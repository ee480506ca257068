import ShapeCheck.Call.Scope
import ShapeCheck.Proofs.Simulation

/-!
# The start of a call

A call works on the fragment that its arguments reach. The heap of the callee is a closed part of the
caller's heap under new variables, so it describes what the caller's heap describes; the variables of
the interface become ghosts. Whatever the callee does to the plain heap is confined to the region
that the fragment stands for.
-/

namespace ShapeCheck

open Relation (ReflTransGen)
open List

namespace Call

theorem toList_interfaceVar (i : Nat) :
    (interfaceVar i).toList = interfaceStem ++ Nat.toDigits 10 i := by
  rw [interfaceVar, String.toList_append, String.toList_ofList, Nat.repr_eq_ofList_toDigits,
    String.toList_ofList]

theorem readNumeral?_toDigits (i : Nat) : Text.readNumeral? (Nat.toDigits 10 i) = some i := by
  have hdigit {c} (hc : c ∈ Nat.toDigits 10 i) : c.isDigit := Nat.isDigit_of_mem_toDigits
    (by decide) (by decide) hc
  have hplus : ∀ rest, Nat.toDigits 10 i ≠ '+' :: rest := fun rest heq => by
    have := hdigit (c := '+') (heq ▸ mem_cons_self)
    revert this
    decide
  have hall : (Nat.toDigits 10 i).all Char.isDigit := all_eq_true.2 fun c hc => hdigit hc
  rw [Text.readNumeral?]
  · rw [hall, isEmpty_eq_false_iff.2 Nat.toDigits_ne_nil]
    exact congrArg some (Nat.ofDigitChars_toDigits (by decide) (by decide))
  · exact hplus

@[simp]
theorem interfaceIndex?_interfaceVar (i : Nat) : interfaceIndex? (interfaceVar i) = some i := by
  rw [interfaceIndex?, toList_interfaceVar, if_pos (by simp), drop_left, readNumeral?_toDigits]

theorem interfaceIndex?_returnVar : interfaceIndex? returnVar = none := by
  decide

theorem interfaceVar_inj {i j : Nat} (heq : interfaceVar i = interfaceVar j) : i = j := by
  have hidx := congrArg interfaceIndex? heq
  simpa using hidx

theorem isReserved_interfaceVar (i : Nat) : isReserved (interfaceVar i) := by
  rw [isReserved, toList_interfaceVar]
  rfl

theorem not_isAssignable_interfaceVar (i : Nat) : ¬Heap.IsAssignable (interfaceVar i) := by
  rintro (hfree | heq)
  · rw [isReserved_interfaceVar] at hfree
    cases hfree
  · have hidx := interfaceIndex?_interfaceVar i
    rw [heq, interfaceIndex?_returnVar] at hidx
    cases hidx

/-- The nodes under the names of the interface variables. -/
def interfaceMap (nodes : List Node) (x : String) : Option Node :=
  (SortedMap.ofList (nodes.zipIdx.map fun (v, i) => (interfaceVar i, v))).find? x

section Names

variable {nodes : List Node} {x : String} {v : Node} {g : Heap}

theorem interfaceMap_eq_some_iff :
    interfaceMap nodes x = some v ↔ ∃ i, x = interfaceVar i ∧ nodes[i]? = some v := by
  have hfound {x v} (hx : interfaceMap nodes x = some v) :
      ∃ i, x = interfaceVar i ∧ nodes[i]? = some v := by
    obtain ⟨⟨w, i⟩, hmem, heq⟩ := mem_map.1 (SortedMap.mem_of_find?_ofList hx)
    cases heq
    exact ⟨i, rfl, mem_zipIdx_iff_getElem?.1 hmem⟩
  refine ⟨hfound, ?_⟩
  rintro ⟨i, rfl, hi⟩
  cases hx : interfaceMap nodes (interfaceVar i) with
  | none =>
    rw [interfaceMap, SortedMap.find?_ofList, Option.map_eq_none_iff, find?_eq_none] at hx
    refine absurd ?_ (hx (interfaceVar i, v) ?_)
    · simp
    · exact mem_reverse.2 (mem_map.2 ⟨(v, i), mem_zipIdx_iff_getElem?.2 hi, rfl⟩)
  | some w =>
    obtain ⟨j, hij, hj⟩ := hfound hx
    rw [← hi, interfaceVar_inj hij, hj]

theorem interfaceMap_map (f : Node → Node) :
    interfaceMap (nodes.map f) x = (interfaceMap nodes x).map f := by
  ext w
  simp only [interfaceMap_eq_some_iff, getElem?_map, Option.map_eq_some_iff]
  constructor
  · rintro ⟨i, rfl, v, hi, rfl⟩
    exact ⟨v, ⟨i, rfl, hi⟩, rfl⟩
  · rintro ⟨v, ⟨i, rfl, hi⟩, rfl⟩
    exact ⟨i, rfl, v, hi, rfl⟩

theorem interfaceMap_eq_none (hx : Heap.IsAssignable x) : interfaceMap nodes x = none := by
  refine Option.eq_none_iff_forall_ne_some.2 fun v hv => ?_
  obtain ⟨i, rfl, -⟩ := interfaceMap_eq_some_iff.1 hv
  exact not_isAssignable_interfaceVar i hx

theorem bindInterface_eq : bindInterface g nodes =
    ⟨g.cells, (nodes.zipIdx.map fun (v, i) => (interfaceVar i, v)).foldl
      (fun vars e => vars.insert e.1 e.2) g.vars, g.summaries⟩ := by
  rw [bindInterface]
  generalize nodes.zipIdx = l
  induction l generalizing g with
  | nil => rfl
  | cons e l ih =>
    rw [foldl_cons, ih]
    rfl

@[simp]
theorem size_bindInterface : (bindInterface g nodes).size = g.size := by
  rw [bindInterface_eq]
  rfl

@[simp]
theorem selector?_bindInterface {sel : String} :
    (bindInterface g nodes).selector? v sel = g.selector? v sel := by
  rw [bindInterface_eq]
  rfl

@[simp]
theorem summaries_bindInterface : (bindInterface g nodes).summaries = g.summaries := by
  rw [bindInterface_eq]

theorem var?_bindInterface :
    (bindInterface g nodes).var? x = (interfaceMap nodes x).or (g.var? x) := by
  rw [bindInterface_eq, Heap.var?, SortedMap.find?_foldl_insert, interfaceMap,
    SortedMap.find?_ofList, Heap.var?]

end Names

section Fragment

variable {h : Heap} {args inside : List Node} {params : List String} {u v w : Node} {sel : String}

/-- The nodes other than null that arguments reach. -/
structure IsFragment (h : Heap) (args inside : List Node) : Prop where
  nodup : inside.Nodup
  ne_null : ∀ v ∈ inside, v ≠ Node.null
  lt : ∀ v ∈ inside, v < h.size
  mem_of_mem_args : ∀ v ∈ args, v < h.size → v = Node.null ∨ v ∈ inside
  closed : ∀ v ∈ inside, ∀ w, h.Leads v w → w = Node.null ∨ w ∈ inside
  least : ∀ T : Set Node, (∀ v ∈ args, v ∈ T) → (∀ v w, v ∈ T → h.Leads v w → w ∈ T) →
    ∀ v ∈ inside, v ∈ T

theorem isFragment_fragment (hh : h.InRange) (args : List Node) :
    IsFragment h args (fragment h args) := by
  have hmem {v} : v ∈ fragment h args ↔
      v ≠ Node.null ∧ ∃ r ∈ args, r < h.size ∧ ReflTransGen h.Leads r v := by
    have hlt (hv : ∃ r ∈ args, r < h.size ∧ ReflTransGen h.Leads r v) : v < h.size := by
      obtain ⟨r, -, hr, hrv⟩ := hv
      induction hrv with
      | refl => exact hr
      | tail _ hvw _ => exact hh.lt_of_mem_successors hvw
    simp only [fragment, mem_filter, Bool.and_eq_true, decide_eq_true_eq, hh.mem_reach_iff,
      Heap.mem_nodes]
    exact ⟨And.right, fun hv => ⟨hlt hv.2, hv⟩⟩
  constructor
  case nodup => exact List.Nodup.filter _ nodup_range
  case ne_null => exact fun v hv => (hmem.1 hv).1
  case lt => exact fun v hv => Heap.mem_nodes.1 (mem_of_mem_filter hv)
  case mem_of_mem_args =>
    exact fun v hv hlt => or_iff_not_imp_left.2 fun hne => hmem.2 ⟨hne, v, hv, hlt, .refl⟩
  case closed =>
    intro v hv w hvw
    obtain ⟨-, r, hr, hlt, hrv⟩ := hmem.1 hv
    exact or_iff_not_imp_left.2 fun hne => hmem.2 ⟨hne, r, hr, hlt, hrv.tail hvw⟩
  case least =>
    intro T hargs hstep v hv
    obtain ⟨-, r, hr, -, hrv⟩ := hmem.1 hv
    clear hv
    induction hrv with
    | refl => exact hargs r hr
    | tail _ hvw ih => exact hstep _ _ ih hvw

theorem calleeNode_eq : calleeNode inside v = if v ∈ inside then inside.idxOf v + 1 else Node.null := by
  rw [calleeNode, idxOf?_eq]
  split <;> simp_all

theorem calleeNode_lt : calleeNode inside v < inside.length + 1 := by
  rw [calleeNode_eq]
  split
  · exact Nat.succ_lt_succ (idxOf_lt_length_of_mem ‹_›)
  · exact Nat.succ_pos _

theorem nodeAt_calleeNode (hv : v = Node.null ∨ v ∈ inside) (hnull : Node.null ∉ inside) :
    nodeAt (Node.null :: inside) (calleeNode inside v) = v := by
  rw [calleeNode_eq]
  rcases hv with rfl | hv
  · rw [if_neg hnull]
    rfl
  · rw [if_pos hv]
    exact nodeAt_idxOf hv

@[simp]
theorem size_callee : (callee h inside params args).size = inside.length + 1 := by
  simp [callee, Heap.size]

theorem selector?_callee_null : (callee h inside params args).selector? Node.null sel = none :=
  rfl

theorem selector?_callee_succ {i : Nat} (hi : i < inside.length) :
    (callee h inside params args).selector? (i + 1) sel =
      (h.selector? (nodeAt inside i) sel).map (calleeNode inside) := by
  have hcell : (callee h inside params args).cell (i + 1) =
      (h.cell (nodeAt inside i)).filterMap fun t => some (calleeNode inside t) := by
    rw [Heap.cell, callee, getElem?_cons_succ, getElem?_map, getElem?_eq_nodeAt hi,
      Option.map_some, Option.getD_some]
  rw [Heap.selector?, hcell, SortedMap.find?_filterMap, Heap.selector?, Option.map_eq_bind]
  rfl

theorem inRange_callee : (callee h inside params args).InRange := by
  refine ⟨by simp, fun v sel w hw => ?_, fun x v hx => ?_, fun e he v hv => ?_⟩ <;> rw [size_callee]
  · cases v with
    | zero => cases hw
    | succ i =>
      have hi : i < inside.length := by
        simpa using Heap.lt_size_of_selector? hw
      rw [selector?_callee_succ hi, Option.map_eq_some_iff] at hw
      obtain ⟨t, -, rfl⟩ := hw
      exact calleeNode_lt
  · have hmem := (of_mem_zip (SortedMap.mem_of_find?_ofList hx)).2
    obtain ⟨a, -, rfl⟩ := mem_map.1 hmem
    exact calleeNode_lt
  · obtain ⟨e, -, rfl⟩ := mem_map.1 he
    obtain ⟨a, -, rfl⟩ := mem_map.1 hv
    exact calleeNode_lt

theorem find?_zip_map (f : Node → Node) (x : String) :
    (SortedMap.ofList (params.zip (args.map f))).find? x =
      ((SortedMap.ofList (params.zip args)).find? x).map f := by
  rw [SortedMap.find?_ofList, SortedMap.find?_ofList, zip_map_right, ← map_reverse,
    find?_map, Option.map_map, Option.map_map]
  rfl

namespace IsFragment

variable (hfrag : IsFragment h args inside)
include hfrag

theorem null_not_mem : Node.null ∉ inside :=
  fun hmem => hfrag.ne_null _ hmem rfl

theorem nodeAt_calleeNode (hv : v = Node.null ∨ v ∈ inside) :
    nodeAt (Node.null :: inside) (calleeNode inside v) = v :=
  Call.nodeAt_calleeNode hv hfrag.null_not_mem

theorem mem_of_startsIn {e : Summary} (he : e ∈ h.summaries) (hin : startsIn inside e)
    (hv : v ∈ e.ends) : v = Node.null ∨ v ∈ inside := by
  obtain ⟨label, ends⟩ := e
  cases ends with
  | nil => cases hv
  | cons a ends =>
    have ha : a ∈ inside := by simpa [startsIn, Summary.source?] using hin
    rcases mem_cons.1 hv with rfl | hv
    · exact .inr ha
    · exact hfrag.closed a ha v (Heap.mem_successors_iff.2 (.inr ⟨_, he, rfl, hv⟩))

theorem selector?_nodeAt (hnull : ∀ w, ¬h.Leads Node.null w) {i : Nat}
    (hi : i < (callee h inside params args).size) (sel : String) :
    h.selector? (nodeAt (Node.null :: inside) i) sel =
      ((callee h inside params args).selector? i sel).map (nodeAt (Node.null :: inside)) := by
  cases i with
  | zero => exact Heap.selector?_eq_none_of_not_leads hnull sel
  | succ i =>
    have hi : i < inside.length := by simpa using hi
    have hread : h.selector? (nodeAt (Node.null :: inside) (i + 1)) sel =
        h.selector? (nodeAt inside i) sel := rfl
    rw [hread, selector?_callee_succ hi, Option.map_map]
    cases ht : h.selector? (nodeAt inside i) sel with
    | none => rfl
    | some t =>
      have hlead : h.Leads (nodeAt inside i) t := Heap.mem_successors_iff.2 (.inl ⟨sel, ht⟩)
      exact congrArg some (hfrag.nodeAt_calleeNode (hfrag.closed _ (nodeAt_mem hi) t hlead)).symm

theorem map_summaries_callee (params : List String) :
    (callee h inside params args).summaries.map (Summary.map (nodeAt (Node.null :: inside))) =
      h.summaries.filter (startsIn inside) := by
  rw [callee, List.map_map]
  refine (map_congr_left fun e he => ?_).trans (List.map_id _)
  obtain ⟨he, hin⟩ := mem_filter.1 he
  exact (Summary.map_map (e := e)).trans (Summary.map_eq_self fun v hv =>
    hfrag.nodeAt_calleeNode (hfrag.mem_of_startsIn he hin hv))

end IsFragment

/-- The heap of the callee is a closed part of the caller's, under the variables of the callee. -/
theorem isPart_callee {A : Abstraction} (params : List String) (hfrag : IsFragment h args inside)
    (hpos : 0 < h.size) (hargs : ∀ v ∈ args, v < h.size) (hnull : ∀ w, ¬h.Leads Node.null w)
    (hlinks : ∀ e ∈ h.summaries, A.isLink e) :
    Heap.IsPart (nodeAt (Node.null :: inside)) (callee h inside params args)
      (h.bindArgs params args) := by
  have horder {i} (hi : i < (callee h inside params args).size) :
      nodeAt (Node.null :: inside) i ∈ Node.null :: inside := nodeAt_mem (by simpa using hi)
  constructor
  case null => rfl
  case lt =>
    intro i hi
    rcases mem_cons.1 (horder hi) with heq | hmem
    · rw [heq]
      exact hpos
    · exact hfrag.lt _ hmem
  case inj =>
    intro i hi j hj
    exact nodeAt_inj (nodup_cons.2 ⟨hfrag.null_not_mem, hfrag.nodup⟩) (by simpa using hi)
      (by simpa using hj)
  case closed =>
    intro i hi w hw
    have hw' : w ∈ Node.null :: inside := by
      rcases mem_cons.1 (horder hi) with heq | hmem
      · exact absurd (heq ▸ hw) (hnull w)
      · exact mem_cons.2 (hfrag.closed _ hmem w hw)
    refine ⟨_, ?_, nodeAt_idxOf hw'⟩
    simpa using idxOf_lt_length_of_mem hw'
  case selector => exact fun i hi sel => hfrag.selector?_nodeAt hnull hi sel
  case var =>
    intro x
    have hread : (callee h inside params args).var? x =
        ((h.bindArgs params args).var? x).map (calleeNode inside) := find?_zip_map _ x
    rw [hread, Option.map_map]
    cases hx : (h.bindArgs params args).var? x with
    | none => rfl
    | some a =>
      have ha := (of_mem_zip (Heap.exists_mem_zip_of_var?_bindArgs hx)).2
      exact congrArg some (hfrag.nodeAt_calleeNode (hfrag.mem_of_mem_args a ha (hargs a ha))).symm
  case summaries =>
    have hnodes : (callee h inside params args).nodes.map (nodeAt (Node.null :: inside)) =
        Node.null :: inside := by
      rw [Heap.nodes, size_callee]
      exact map_nodeAt_range
    have hstarts {e} (he : e ∈ h.summaries) :
        startsIn inside e = e.ends.all (decide <| · ∈ Node.null :: inside) := by
      obtain ⟨chain, -, a, b, rfl⟩ := Abstraction.isLink_iff.1 (hlinks e he)
      have ha : a ≠ Node.null := by
        rintro rfl
        exact hnull b (Heap.mem_successors_iff.2 (.inr ⟨_, he, rfl, by simp [Summary.targets]⟩))
      by_cases hmem : a ∈ inside
      · have hin : startsIn inside ⟨chain.label, [a, b]⟩ := by
          simpa [startsIn, Summary.source?] using hmem
        have hb := hfrag.mem_of_startsIn he hin (v := b) (by simp)
        rw [hin]
        simpa [hmem] using hb
      · simp [startsIn, Summary.source?, hmem, ha]
    rw [hfrag.map_summaries_callee params, hnodes]
    exact .of_eq (filter_congr fun e he => hstarts he)

theorem mem_interfaceNodes_iff {start : Heap} :
    v ∈ interfaceNodes h inside start ↔ v ∈ inside ∧ v ∈ referenced h inside := by
  rw [interfaceNodes, (sortBy_perm _ _).mem_iff, mem_filter, decide_eq_true_eq]

end Fragment

end Call

section Enter

open Call

variable {A : Abstraction} {γ : String → Option Node} {S : Set Node} {h c : Heap} {φ : Node → Node}
  {inner : Node → String → List Node} {args inside : List Node} {params : List String} {v w : Node}
  {sel : String}

theorem IsPlacement.bindArgs (L : IsPlacement A γ S h c φ inner) (hargs : ∀ v ∈ args, v ∈ S) :
    IsPlacement A (fun _ => none) S (h.bindArgs params args) (c.bindArgs params (args.map φ)) φ
      inner where
  toIsLayout := L.toIsLayout.replace (Nat.le_refl _) (Nat.le_refl _) (fun _ _ _ _ _ _ => rfl)
    fun _ _ _ => .inl ⟨rfl, fun _ => .rfl, rfl⟩
  named x v hx := hargs v (of_mem_zip (Heap.exists_mem_zip_of_var?_bindArgs hx)).2
  var x := by
    rw [Option.or_none]
    exact find?_zip_map φ x

theorem Describes.bindArgs (params : List String) (hd : Describes A γ h c)
    (L : IsPlacement A γ S h c φ inner) (hargs : ∀ v ∈ args, v ∈ S) :
    Describes A (fun _ => none) (h.bindArgs params args) (c.bindArgs params (args.map φ)) where
  inRange := by
    refine ⟨hd.inRange.pos, hd.inRange.selector, fun x v hx => ?_, hd.inRange.ends⟩
    exact L.dom v (hargs v (of_mem_zip (Heap.exists_mem_zip_of_var?_bindArgs hx)).2)
  det := hd.det.congr (fun _ _ => rfl) rfl
  links := hd.links
  placed := ⟨S, φ, inner, L.bindArgs hargs⟩

theorem Describes.not_leads_null (hd : Describes A γ h c) (hc : c.IsPlain) :
    ¬h.Leads Node.null w := by
  obtain ⟨S, φ, inner, L⟩ := hd.placed
  intro hw
  obtain ⟨sel, hsel⟩ := Abstraction.exists_arrow_of_leads hd.links hw
  exact L.not_arrow_null hc hsel

theorem IsLayout.mem_of_mem_fragment (L : IsLayout A S h c φ inner)
    (hlinks : ∀ e ∈ h.summaries, A.isLink e) (hfrag : IsFragment h args inside)
    (hargs : ∀ v ∈ args, v ∈ S) (hv : v ∈ inside) : v ∈ S := by
  refine hfrag.least S hargs (fun v w hv hvw => ?_) v hv
  obtain ⟨sel, hsel⟩ := Abstraction.exists_arrow_of_leads hlinks hvw
  exact L.closed v hv sel w hsel

/-- The interface variables as ghosts of the callee. -/
def Call.ghosts (φ : Node → Node) (interface : List Node) (x : String) : Option Node :=
  (interfaceMap interface x).map φ

theorem Call.isGhost_ghosts (interface : List Node) : IsGhost (ghosts φ interface) := by
  intro x hx
  rw [ghosts, interfaceMap_eq_none hx, Option.map_none]

theorem Describes.bindInterface {g : Heap} (hd : Describes A (fun _ => none) g c)
    (L : IsPlacement A (fun _ => none) S g c φ inner) (nodes : List Node)
    (hnodes : ∀ v ∈ nodes, v ∈ S) (hfree : ∀ i, c.var? (interfaceVar i) = none) :
    Describes A (ghosts φ nodes) (bindInterface g nodes) c := by
  have hnamed : ∀ x v, (Call.bindInterface g nodes).var? x = some v → v ∈ S := by
    intro x v hx
    rw [var?_bindInterface, Option.or_eq_some_iff] at hx
    rcases hx with hx | ⟨-, hx⟩
    · obtain ⟨i, -, hi⟩ := interfaceMap_eq_some_iff.1 hx
      exact hnodes v (mem_of_getElem? hi)
    · exact L.named x v hx
  refine ⟨⟨by simpa using hd.inRange.pos, fun v sel w hw => ?_, fun x v hx => ?_, fun e he v hv => ?_⟩,
    hd.det.congr (fun _ _ => selector?_bindInterface) summaries_bindInterface, ?_, S, φ, inner,
    ⟨?_, hnamed, fun x => ?_⟩⟩
  · rw [selector?_bindInterface] at hw
    simpa using hd.inRange.selector v sel w hw
  · simpa using L.dom v (hnamed x v hx)
  · rw [summaries_bindInterface] at he
    simpa using hd.inRange.ends e he v hv
  · rw [summaries_bindInterface]
    exact hd.links
  · refine L.toIsLayout.replace (by simp) (Nat.le_refl _) (fun _ _ _ _ _ _ => rfl) fun v hv sel =>
      .inl ⟨selector?_bindInterface, fun w => ?_, rfl⟩
    rw [Abstraction.Chained, Abstraction.Chained, summaries_bindInterface]
  · rw [var?_bindInterface, ghosts]
    cases hx : interfaceMap nodes x with
    | none =>
      rw [Option.map_none, Option.none_or]
      exact L.var x
    | some v =>
      obtain ⟨i, rfl, -⟩ := interfaceMap_eq_some_iff.1 hx
      rw [hfree, Option.some_or, Option.none_or]

/-- The heap that a callee starts with describes the heap that the callee runs on. -/
theorem Describes.enter (hd : Describes A γ h c) (hc : c.IsPlain)
    (L : IsPlacement A γ S h c φ inner) (hargs : ∀ v ∈ args, v ∈ S)
    (hparams : ∀ x ∈ params, isReserved x = false) :
    Describes A (ghosts φ (Call.enter h params args).2.interface) (Call.enter h params args).1
      (c.bindArgs params (args.map φ)) := by
  have hfrag := isFragment_fragment hd.inRange args
  rw [Call.enter]
  generalize fragment h args = inside at hfrag ⊢
  have hpart := isPart_callee params hfrag hd.inRange.pos
    (fun v hv => L.dom v (hargs v hv)) (fun w => hd.not_leads_null hc) hd.links
  have hrange : (callee h inside params args).InRange := inRange_callee
  -- a node of the interface is placed where the caller has it
  have hinterface {v} (hv : v ∈ interfaceNodes h inside (callee h inside params args)) :
      nodeAt (Node.null :: inside) (calleeNode inside v) = v ∧ v ∈ S := by
    have hmem := (mem_interfaceNodes_iff.1 hv).1
    exact ⟨nodeAt_calleeNode (.inr hmem) fun hnull => hfrag.ne_null _ hnull rfl,
      L.toIsLayout.mem_of_mem_fragment hd.links hfrag hargs hmem⟩
  have hghosts : ghosts (φ ∘ nodeAt (Node.null :: inside))
      ((interfaceNodes h inside (callee h inside params args)).map (calleeNode inside)) =
        ghosts φ (interfaceNodes h inside (callee h inside params args)) := by
    funext x
    rw [ghosts, ghosts, interfaceMap_map, Option.map_map]
    refine Option.map_congr fun v hv => congrArg φ ?_
    obtain ⟨i, -, hi⟩ := interfaceMap_eq_some_iff.1 hv
    exact (hinterface (mem_of_getElem? hi)).1
  have hbound := ((hd.bindArgs params L hargs).ofPart hpart hrange).bindInterface
    ((L.bindArgs hargs).comp hpart hrange)
    ((interfaceNodes h inside (callee h inside params args)).map (calleeNode inside))
  rw [hghosts] at hbound
  refine hbound (fun u hu => ?_) fun i => ?_
  · obtain ⟨v, hv, rfl⟩ := mem_map.1 hu
    obtain ⟨hback, hvS⟩ := hinterface hv
    exact ⟨by simpa using calleeNode_lt, hback.symm ▸ hvS⟩
  · refine Option.eq_none_iff_forall_ne_some.2 fun v hv => ?_
    have hmem := (of_mem_zip (Heap.exists_mem_zip_of_var?_bindArgs hv)).1
    have hfree := hparams _ hmem
    rw [isReserved_interfaceVar] at hfree
    cases hfree

/-- The nodes that a fragment stands for, with null and the nodes that are not there yet. -/
def Call.region (c : Heap) (φ : Node → Node) (inner : Node → String → List Node)
    (inside : List Node) : Set Node :=
  {z | z = Node.null ∨ c.size ≤ z ∨ ∃ v ∈ inside, z = φ v ∨ ∃ sel, z ∈ inner v sel}

theorem Call.confined_region (L : IsPlacement A γ S h c φ inner) (hc : c.IsPlain)
    (hlinks : ∀ e ∈ h.summaries, A.isLink e) (hfrag : IsFragment h args inside)
    (hargs : ∀ v ∈ args, v ∈ S) :
    Heap.Confined (region c φ inner inside) c (c.bindArgs params (args.map φ)) := by
  have hnode {v} (hv : v = Node.null ∨ v ∈ inside) : φ v ∈ region c φ inner inside := by
    rcases hv with rfl | hv
    · exact .inl L.null
    · exact .inr (.inr ⟨v, hv, .inl rfl⟩)
  constructor
  case null => exact .inl rfl
  case new => exact fun v hv => .inr (.inl hv)
  case size => exact Nat.le_refl _
  case var =>
    intro x z hx
    obtain ⟨a, ha, rfl⟩ := mem_map.1
      (of_mem_zip (Heap.exists_mem_zip_of_var?_bindArgs hx)).2
    exact hnode (hfrag.mem_of_mem_args a ha (L.dom a (hargs a ha)))
  case selector =>
    intro z hz s y hy
    rw [Heap.selector?_bindArgs] at hy
    -- the nodes on a way from the fragment are in the region
    have hway {v sel w} (hv : v ∈ inside) (hw : A.Arrow h v sel w)
        (hy : y ∈ inner v sel ∨ y = φ w) : y ∈ region c φ inner inside := by
      rcases hy with hy | rfl
      · exact .inr (.inr ⟨v, hv, .inr ⟨sel, hy⟩⟩)
      · exact hnode (hfrag.closed v hv w hw.leads)
    rcases hz with rfl | hz | ⟨v, hv, rfl | ⟨sel, hz⟩⟩
    · rw [hc.selector?_null] at hy
      cases hy
    · rw [Heap.selector?_of_size_le hz] at hy
      cases hy
    · have hvS := L.toIsLayout.mem_of_mem_fragment hlinks hfrag hargs hv
      obtain ⟨w, hw⟩ := L.toIsLayout.exists_arrow hvS s (.inl (by rw [hy]; simp))
      exact hway hv hw ((L.way v hvS s w hw).mem_of_selector? hy)
    · have hvS := L.toIsLayout.mem_of_mem_fragment hlinks hfrag hargs hv
      obtain ⟨w, hw⟩ := L.toIsLayout.exists_arrow hvS sel (.inr (ne_nil_of_mem hz))
      exact hway hv hw ((L.way v hvS sel w hw).mem_of_mem hz hy)
  case outside => exact fun v _ sel => rfl

end Enter

end ShapeCheck
