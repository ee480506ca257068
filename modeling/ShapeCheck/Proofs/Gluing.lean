import ShapeCheck.Proofs.CallStart

/-!
# Gluing a result into the caller's heap

A result of a callee takes the place of the fragment in the caller's heap. Seen from outside the
nodes keep their selectors and summaries, and the renamed nodes have those of the result. If a region
of the plain heap separates what the caller has placed outside from what the result has placed, the
two layouts fit together.
-/

namespace ShapeCheck

open List

namespace Call

/-- `h₁` is the heap `h` with the nodes `inside` replaced by the heap `post`, whose nodes are renamed
by `r`. -/
structure IsGlued (h post h₁ : Heap) (inside : List Node) (r : Node → Node) : Prop where
  size : h.size ≤ h₁.size
  lt : ∀ v < post.size, r v < h₁.size
  null : r Node.null = Node.null
  inj : ∀ v < post.size, ∀ w < post.size, r v = r w → v = w
  image : ∀ v < post.size, v ≠ Node.null → r v ∈ inside ∨ h.size ≤ r v
  outer : ∀ u < h.size, u ∉ inside → u ≠ Node.null → ∀ sel, h₁.selector? u sel = h.selector? u sel
  selector : ∀ v < post.size, ∀ sel, h₁.selector? (r v) sel = (post.selector? v sel).map r
  bare : ∀ u, u ∈ inside ∨ h.size ≤ u → (∀ v < post.size, r v ≠ u) →
    ∀ sel, h₁.selector? u sel = none
  var : ∀ x, h₁.var? x = h.var? x
  summaries : h₁.summaries.Perm
    (h.summaries.filter (!startsIn inside ·) ++ post.summaries.map (Summary.map r))

/-- The value that `f` has at the node of `T` that is renamed to a node, and the value of `g` at the
node itself if there is none. -/
noncomputable def glue {α : Type} (T : Set Node) (r : Node → Node) (f g : Node → α) (u : Node) : α :=
  open Classical in if hu : ∃ v ∈ T, r v = u then f hu.choose else g u

section Glue

variable {α : Type} {T : Set Node} {r : Node → Node} {f g : Node → α} {u v : Node}

theorem glue_of_mem (hr : ∀ v ∈ T, ∀ w ∈ T, r v = r w → v = w) (hv : v ∈ T) :
    glue T r f g (r v) = f v := by
  have hex : ∃ w ∈ T, r w = r v := ⟨v, hv, rfl⟩
  rw [glue, dif_pos hex, hr _ hex.choose_spec.1 v hv hex.choose_spec.2]

theorem glue_of_forall_ne (hu : ∀ v ∈ T, r v ≠ u) : glue T r f g u = g u := by
  rw [glue, dif_neg]
  rintro ⟨v, hv, heq⟩
  exact hu v hv heq

end Glue

section Reference

variable {A : Abstraction} {h : Heap} {inside : List Node} {u v w : Node} {sel : String}

theorem mem_referenced_of_selector (hin : u ∉ inside) (hw : h.selector? u sel = some w) :
    w ∈ referenced h inside := by
  refine mem_append_left _ (mem_append_right _ (mem_flatMap.2 ⟨u, ?_, ?_⟩))
  · exact mem_filter.2 ⟨Heap.mem_nodes.2 (Heap.lt_size_of_selector? hw), by simpa using hin⟩
  · exact Heap.mem_values_cell.2 ⟨sel, hw⟩

theorem mem_referenced_of_summary {e : Summary} (he : e ∈ h.summaries) (hout : ¬startsIn inside e)
    (hw : w ∈ e.ends) : w ∈ referenced h inside :=
  mem_append_right _ (mem_flatMap.2 ⟨e, mem_filter.2 ⟨he, by simpa using hout⟩, hw⟩)

theorem mem_referenced_of_arrow (hin : u ∉ inside) (hw : A.Arrow h u sel w) :
    w ∈ referenced h inside := by
  rcases hw with hw | ⟨chain, -, -, hw⟩
  · exact mem_referenced_of_selector hin hw
  · exact mem_referenced_of_summary hw (by simpa [startsIn, Summary.source?] using hin) (by simp)

theorem mem_referenced_of_var {x : String} (hx : h.var? x = some v) : v ∈ referenced h inside :=
  mem_append_left _ (mem_append_left _ (Heap.mem_values_vars.2 ⟨x, hx⟩))

end Reference

namespace IsGlued

variable {A : Abstraction} {h post h₁ : Heap} {inside args : List Node} {r : Node → Node}
  {u v w : Node} {sel : String}

section

variable (G : IsGlued h post h₁ inside r)
include G

/-- A node of the glued heap is a renamed node, an old node outside, or has no selectors. -/
theorem cases_node (hpost : post.InRange) (u : Node) : (∃ v < post.size, r v = u)
    ∨ u < h.size ∧ u ∉ inside ∧ u ≠ Node.null ∨
      ∀ sel, h₁.selector? u sel = none := by
  by_cases himage : ∃ v < post.size, r v = u
  · exact .inl himage
  · push Not at himage
    right
    by_cases hout : u ∈ inside ∨ h.size ≤ u
    · exact .inr (G.bare u hout himage)
    · push Not at hout
      refine .inl ⟨hout.2, hout.1, ?_⟩
      rintro rfl
      exact himage _ hpost.pos G.null

theorem ne_of_outer (hv : v < post.size) (hu : u < h.size) (hin : u ∉ inside) (hne : u ≠ Node.null)
    : r v ≠ u := by
  rintro rfl
  have hnull : v ≠ Node.null := by
    rintro rfl
    exact hne G.null
  rcases G.image v hv hnull with hmem | hle
  · exact hin hmem
  · exact Nat.not_lt.2 hle hu

theorem inRange (hh : h.InRange) (hpost : post.InRange) : h₁.InRange := by
  refine ⟨hh.pos.trans_le G.size, fun u sel w hw => ?_, fun x v hx => ?_, fun e he v hv => ?_⟩
  · rcases G.cases_node hpost u with ⟨v, hv, rfl⟩ | ⟨hlt, hin, hne⟩ | hnone
    · rw [G.selector v hv, Option.map_eq_some_iff] at hw
      obtain ⟨t, ht, rfl⟩ := hw
      exact G.lt t (hpost.selector v sel t ht)
    · rw [G.outer u hlt hin hne] at hw
      exact (hh.selector u sel w hw).trans_le G.size
    · rw [hnone] at hw
      cases hw
  · rw [G.var] at hx
    exact (hh.var x v hx).trans_le G.size
  · rw [G.summaries.mem_iff, mem_append] at he
    rcases he with he | he
    · exact (hh.ends e (mem_of_mem_filter he) v hv).trans_le G.size
    · obtain ⟨e', he', rfl⟩ := mem_map.1 he
      obtain ⟨t, ht, rfl⟩ := mem_map.1 hv
      exact G.lt t (hpost.ends e' he' t ht)

theorem isLink (hlinks : ∀ e ∈ h.summaries, A.isLink e) (hlinks' : ∀ e ∈ post.summaries, A.isLink e)
    : ∀ e ∈ h₁.summaries, A.isLink e := by
  intro e he
  rw [G.summaries.mem_iff, mem_append] at he
  rcases he with he | he
  · exact hlinks e (mem_of_mem_filter he)
  · obtain ⟨e', he', rfl⟩ := mem_map.1 he
    rw [Abstraction.isLink_map]
    exact hlinks' e' he'

theorem mem_summaries_pair_iff {label : String} :
    ⟨label, [u, w]⟩ ∈ h₁.summaries ↔ u ∉ inside ∧ ⟨label, [u, w]⟩ ∈ h.summaries ∨
      ∃ v t, r v = u ∧ r t = w ∧ ⟨label, [v, t]⟩ ∈ post.summaries := by
  rw [G.summaries.mem_iff, mem_append, mem_filter, mem_map]
  refine or_congr ?_ ⟨?_, ?_⟩
  · simp [startsIn, Summary.source?, and_comm]
  · rintro ⟨⟨label', ends⟩, he, heq⟩
    obtain ⟨rfl, hends⟩ := Summary.mk.inj heq
    simp only [map_eq_cons_iff, map_eq_nil_iff] at hends
    obtain ⟨v, l, rfl, hv, t, l', rfl, ht, rfl⟩ := hends
    exact ⟨v, t, hv, ht, he⟩
  · rintro ⟨v, t, rfl, rfl, he⟩
    exact ⟨_, he, rfl⟩

theorem chained_outer (hpost : post.InRange) (hlt : u < h.size) (hin : u ∉ inside)
    (hne : u ≠ Node.null) : A.Chained h₁ u sel w ↔ A.Chained h u sel w := by
  refine exists_congr fun chain => and_congr_right fun _ => and_congr_right fun _ => ?_
  rw [G.mem_summaries_pair_iff]
  refine ⟨?_, fun he => .inl ⟨hin, he⟩⟩
  rintro (⟨-, he⟩ | ⟨v, t, rfl, -, he⟩)
  · exact he
  · exact absurd rfl (G.ne_of_outer (hpost.ends _ he v (by simp)) hlt hin hne)

theorem chained_inner (hh : h.InRange) (hpost : post.InRange) (hnull : ∀ w, ¬h.Leads Node.null w)
    (hv : v < post.size) :
    A.Chained h₁ (r v) sel w ↔ ∃ t, r t = w ∧ A.Chained post v sel t := by
  constructor
  · rintro ⟨chain, hchain, hsel, hmem⟩
    rcases G.mem_summaries_pair_iff.1 hmem with ⟨hin, he⟩ | ⟨v', t, heq, rfl, he⟩
    · exfalso
      by_cases hne : v = Node.null
      · rw [hne, G.null] at he
        exact hnull w (Abstraction.Arrow.leads (A := A) (.inr ⟨chain, hchain, hsel, he⟩))
      · rcases G.image v hv hne with hmem | hle
        · exact hin hmem
        · exact Nat.not_lt.2 hle (hh.ends _ he _ (by simp))
    · rw [G.inj v' (hpost.ends _ he v' (by simp)) v hv heq] at he
      exact ⟨t, rfl, chain, hchain, hsel, he⟩
  · rintro ⟨t, rfl, chain, hchain, hsel, he⟩
    exact ⟨chain, hchain, hsel, G.mem_summaries_pair_iff.2 (.inr ⟨v, t, rfl, rfl, he⟩)⟩

theorem isDeterministic (hh : h.InRange) (hpost : post.InRange) (hnull : ∀ w, ¬h.Leads Node.null w)
    (hnull' : ∀ w, ¬post.Leads Node.null w) (hdet : A.IsDeterministic h)
    (hdet' : A.IsDeterministic post) : A.IsDeterministic h₁ := by
  have hsource {g : Heap} (hg : ∀ w, ¬g.Leads Node.null w) {chain v w} (hchain : chain ∈ A.chains)
      (he : ⟨chain.label, [v, w]⟩ ∈ g.summaries) : v ≠ Node.null := by
    rintro rfl
    exact hg w (Abstraction.Arrow.leads (A := A) (.inr ⟨chain, hchain, rfl, he⟩))
  constructor
  case hidden =>
    intro chain hchain u w hmem
    rcases G.mem_summaries_pair_iff.1 hmem with ⟨hin, he⟩ | ⟨v, t, rfl, rfl, he⟩
    · rw [G.outer u (hh.ends _ he u (by simp)) hin (hsource hnull hchain he)]
      exact hdet.hidden chain hchain u w he
    · rw [G.selector v (hpost.ends _ he v (by simp)), hdet'.hidden chain hchain v t he,
        Option.map_none]
  case sources =>
    intro chain hchain
    rw [(G.summaries.filterMap _).nodup_iff, filterMap_append, nodup_append']
    have hmap : (post.summaries.map (Summary.map r)).filterMap (·.linkSource? chain) =
        (post.summaries.filterMap (·.linkSource? chain)).map r := by
      rw [filterMap_map, map_filterMap]
      exact filterMap_congr fun e _ => Summary.linkSource?_map
    refine ⟨(hdet.sources chain hchain).sublist (filter_sublist.filterMap _), ?_, ?_⟩
    · rw [hmap]
      refine (hdet'.sources chain hchain).map_on fun v hv w hw heq => ?_
      obtain ⟨t, hv⟩ := mem_linkSources_iff.1 hv
      obtain ⟨t', hw⟩ := mem_linkSources_iff.1 hw
      exact G.inj v (hpost.ends _ hv v (by simp)) w (hpost.ends _ hw w (by simp)) heq
    · rw [hmap]
      intro u hu hu'
      obtain ⟨w, hu⟩ := mem_linkSources_iff.1 hu
      obtain ⟨he, hin⟩ := mem_filter.1 hu
      obtain ⟨v, hv, rfl⟩ := mem_map.1 hu'
      obtain ⟨t, hv⟩ := mem_linkSources_iff.1 hv
      rcases G.image v (hpost.ends _ hv v (by simp)) (hsource hnull' hchain hv) with hmem | hle
      · simp [startsIn, Summary.source?, hmem] at hin
      · exact Nat.not_lt.2 hle (hh.ends _ he _ (by simp))

end

variable {γ : String → Option Node} {S T F : Set Node} {c c' : Heap} {φ ψ : Node → Node}
  {inner inner' : Node → String → List Node}

/-- The placed nodes of the caller outside, and those of the result. -/
def placed (S T : Set Node) (inside : List Node) (r : Node → Node) : Set Node :=
  {u | u ∈ S ∧ u ∉ inside ∧ u ≠ Node.null ∨ ∃ v ∈ T, r v = u}

theorem mem_placed (G : IsGlued h post h₁ inside r) (L : IsLayout A S h c φ inner)
    (L' : IsLayout A T post c' ψ inner')
    (hinterface : ∀ u ∈ inside, u ∈ referenced h inside → ∃ v ∈ T, r v = u ∧ ψ v = φ u)
    (hu : u ∈ S) (href : u ∈ referenced h inside) :
    u ∈ placed S T inside r ∧ glue T r ψ φ u = φ u := by
  have hφr {v} (hv : v ∈ T) : glue T r ψ φ (r v) = ψ v :=
    glue_of_mem (fun v hv w hw => G.inj v (L'.dom v hv) w (L'.dom w hw)) hv
  by_cases hin : u ∈ inside
  · obtain ⟨v, hv, rfl, heq⟩ := hinterface u hin href
    exact ⟨.inr ⟨v, hv, rfl⟩, (hφr hv).trans heq⟩
  · by_cases hne : u = Node.null
    · subst hne
      have heq := hφr L'.null_mem
      rw [G.null, L'.null] at heq
      exact ⟨.inr ⟨_, L'.null_mem, G.null⟩, heq.trans L.null.symm⟩
    · exact ⟨.inl ⟨hu, hin, hne⟩,
        glue_of_forall_ne fun v hv => G.ne_of_outer (L'.dom v hv) (L.dom u hu) hin hne⟩

/-- A layout of the caller's heap before the call and one of the result after it fit together, if a
region of the plain heap separates the two and the nodes that the caller refers to agree. -/
theorem isLayout (G : IsGlued h post h₁ inside r) (L : IsLayout A S h c φ inner)
    (L' : IsLayout A T post c' ψ inner') (hh : h.InRange) (hpost : post.InRange)
    (hnull : ∀ w, ¬h.Leads Node.null w) (hsize : c.size ≤ c'.size)
    (hF : ∀ z, z ∉ F → ∀ sel, c'.selector? z sel = c.selector? z sel)
    (houtside : ∀ u ∈ S, u ∉ inside → u ≠ Node.null → φ u ∉ F ∧ ∀ sel, ∀ z ∈ inner u sel, z ∉ F)
    (hinside : ∀ v ∈ T, ψ v ∈ F ∧ ∀ sel, ∀ z ∈ inner' v sel, z ∈ F)
    (hinterface : ∀ u ∈ inside, u ∈ referenced h inside → ∃ v ∈ T, r v = u ∧ ψ v = φ u) :
    IsLayout A (placed S T inside r) h₁ c' (glue T r ψ φ) (glue T r inner' inner) := by
  have hinj : ∀ v ∈ T, ∀ w ∈ T, r v = r w → v = w := fun v hv w hw =>
    G.inj v (L'.dom v hv) w (L'.dom w hw)
  have hφr {v} (hv : v ∈ T) : glue T r ψ φ (r v) = ψ v := glue_of_mem hinj hv
  have hir {v} (hv : v ∈ T) : glue T r inner' inner (r v) = inner' v := glue_of_mem hinj hv
  have hseparate {u} (hu : u ∈ S) (hin : u ∉ inside) (hne : u ≠ Node.null) : ∀ v ∈ T, r v ≠ u :=
    fun v hv => G.ne_of_outer (L'.dom v hv) (L.dom u hu) hin hne
  have hφo {u} (hu : u ∈ S) (hin : u ∉ inside) (hne : u ≠ Node.null) : glue T r ψ φ u = φ u :=
    glue_of_forall_ne (hseparate hu hin hne)
  have hio {u} (hu : u ∈ S) (hin : u ∉ inside) (hne : u ≠ Node.null) :
      glue T r inner' inner u = inner u := glue_of_forall_ne (hseparate hu hin hne)
  -- where the caller refers to from outside
  have hrefer {u sel w} (hu : u ∈ S) (hin : u ∉ inside) (hw : A.Arrow h u sel w) :
      w ∈ placed S T inside r ∧ glue T r ψ φ w = φ w :=
    G.mem_placed L L' hinterface (L.closed u hu sel w hw) (mem_referenced_of_arrow hin hw)
  refine .ofLaid (.inr ⟨_, L'.null_mem, G.null⟩) ?null ?dom ?lt ?laid ?apart
  case null =>
    have heq := hφr L'.null_mem
    rwa [G.null, L'.null] at heq
  case dom =>
    rintro u (⟨hu, -, -⟩ | ⟨v, hv, rfl⟩)
    · exact (L.dom u hu).trans_le G.size
    · exact G.lt v (L'.dom v hv)
  case lt =>
    rintro u (⟨hu, hin, hne⟩ | ⟨v, hv, rfl⟩)
    · rw [hφo hu hin hne]
      exact (L.lt u hu).trans_le hsize
    · rw [hφr hv]
      exact L'.lt v hv
  case laid =>
    rintro u (⟨hu, hin, hne⟩ | ⟨v, hv, rfl⟩) sel
    · obtain ⟨hφF, hinnerF⟩ := houtside u hu hin hne
      rw [hφo hu hin hne, hio hu hin hne]
      exact (L.laid hu sel).congr (G.outer u (L.dom u hu) hin hne sel)
        (fun _ => G.chained_outer hpost (L.dom u hu) hin hne) (fun w hw => hrefer hu hin hw)
        (hF _ hφF sel) fun z hz => hF z (hinnerF sel z hz)
    · rw [hφr hv, hir hv]
      exact (L'.laid hv sel).rename r (G.selector v (L'.dom v hv) sel)
        (fun _ => G.chained_inner hh hpost hnull (L'.dom v hv)) (fun t ht =>
          ⟨.inr ⟨t, L'.closed v hv sel t ht, rfl⟩, hφr (L'.closed v hv sel t ht)⟩) rfl
        fun _ _ _ => rfl
  case apart =>
    -- the region separates the places of both kinds
    have hout {u p z} (hu : u ∈ S) (hin : u ∉ inside) (hne : u ≠ Node.null)
        (hz : IsLayout.Takes (glue T r ψ φ) (glue T r inner' inner) u p z) :
        IsLayout.Takes φ inner u p z ∧ z ∉ F := by
      obtain ⟨hφF, hinnerF⟩ := houtside u hu hin hne
      cases p with
      | none =>
        obtain rfl : z = φ u := Eq.trans hz (hφo hu hin hne)
        exact ⟨rfl, hφF⟩
      | some sel =>
        rw [IsLayout.Takes, hio hu hin hne] at hz
        exact ⟨hz, hinnerF sel z hz⟩
    have hins {v p z} (hv : v ∈ T)
        (hz : IsLayout.Takes (glue T r ψ φ) (glue T r inner' inner) (r v) p z) :
        IsLayout.Takes ψ inner' v p z ∧ z ∈ F := by
      cases p with
      | none =>
        obtain rfl : z = ψ v := Eq.trans hz (hφr hv)
        exact ⟨rfl, (hinside v hv).1⟩
      | some sel =>
        rw [IsLayout.Takes, hir hv] at hz
        exact ⟨hz, (hinside v hv).2 sel z hz⟩
    rintro u (⟨hu, hin, hne⟩ | ⟨v, hv, rfl⟩) w (⟨hw, hin', hne'⟩ | ⟨t, ht, rfl⟩) p q z hp hq
    · exact L.isApart u hu w hw p q z (hout hu hin hne hp).1 (hout hw hin' hne' hq).1
    · exact absurd (hins ht hq).2 (hout hu hin hne hp).2
    · exact absurd (hins hv hp).2 (hout hw hin' hne' hq).2
    · exact (L'.isApart v hv t ht p q z (hins hv hp).1 (hins ht hq).1).imp_left (congrArg r)

end IsGlued

end Call

end ShapeCheck
