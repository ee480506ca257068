import ShapeCheck.Proofs.Description

/-!
# Statements on shapes

A statement that runs on a plain heap runs on every shape that describes the heap, provided that the
shape exposes the selector that the statement goes through. What it leaves is described again, it
goes through null in the shape if it does in the heap, and a call has corresponding arguments.
-/

namespace ShapeCheck

open Option

open Code

variable {A : Abstraction} {γ : String → Option Node} {S : Set Node} {h c c' : Heap}
  {φ : Node → Node} {inner : Node → String → List Node} {u v w z : Node} {sel x : String}
  {p : AccessPoint}

/-- No ghost is a variable that statements use. -/
def IsGhost (γ : String → Option Node) : Prop :=
  ∀ x, Heap.IsAssignable x → γ x = none

theorem IsLayout.lt_size_of_mem_inner (L : IsLayout A S h c φ inner) (hv : v ∈ S)
    (hz : z ∈ inner v sel) : z < c.size := by
  obtain ⟨w, hw⟩ := L.exists_arrow hv _ (.inr (List.ne_nil_of_mem hz))
  obtain ⟨l, r, hinner⟩ := List.append_of_mem hz
  have hway := L.way v hv sel w hw
  rw [hinner, Heap.way_append] at hway
  exact hway.2.2.lt_size

theorem IsLayout.insert (L : IsLayout A S h c φ inner) (hv : v ∉ S) (hlt : v < h.size)
    (hz : z < c.size) (hbare : ∀ sel w, ¬A.Arrow h v sel w) (hzbare : ∀ sel, c.selector? z sel = none)
    (hzS : ∀ w ∈ S, z ≠ φ w) (hzinner : ∀ w ∈ S, ∀ sel, z ∉ inner w sel) :
    IsLayout A (insert v S) h c (Function.update φ v z) (Function.update inner v fun _ => []) := by
  have hφv : Function.update φ v z v = z := Function.update_self ..
  have hiv : Function.update inner v (fun _ => []) v = fun _ => [] := Function.update_self ..
  have hne : ∀ w ∈ S, w ≠ v := fun w hw heq => hv (heq ▸ hw)
  have hφ : ∀ w ∈ S, Function.update φ v z w = φ w := fun w hw => Function.update_of_ne (hne w hw) ..
  have hi : ∀ w ∈ S, Function.update inner v (fun _ => []) w = inner w := fun w hw =>
    Function.update_of_ne (hne w hw) ..
  refine .ofLaid (.inr L.null_mem) ((hφ _ L.null_mem).trans L.null) ?dom ?lt ?laid ?apart
  case dom =>
    rintro w (rfl | hw)
    · exact hlt
    · exact L.dom w hw
  case lt =>
    rintro w (rfl | hw)
    · rwa [hφv]
    · rw [hφ w hw]
      exact L.lt w hw
  case laid =>
    rintro u (rfl | hu) sel
    · rw [hφv, hiv]
      exact .ofIdle (hbare sel) (hzbare sel)
    · rw [hφ u hu, hi u hu]
      refine (L.laid hu sel).congr rfl (fun _ => .rfl) (fun w hw => ?_) rfl fun _ _ _ => rfl
      exact ⟨.inr (L.closed u hu sel w hw), hφ w (L.closed u hu sel w hw)⟩
  case apart =>
    have hnew {p y} (hy : IsLayout.Takes (Function.update φ v z)
        (Function.update inner v fun _ => []) v p y) : p = none ∧ y = z := by
      cases p with
      | none => exact ⟨rfl, Eq.trans hy hφv⟩
      | some sel =>
        rw [IsLayout.Takes, hiv] at hy
        cases hy
    have hold {u p y} (hu : u ∈ S) (hy : IsLayout.Takes (Function.update φ v z)
        (Function.update inner v fun _ => []) u p y) : IsLayout.Takes φ inner u p y ∧ y ≠ z := by
      cases p with
      | none =>
        obtain rfl : y = φ u := Eq.trans hy (hφ u hu)
        exact ⟨rfl, (hzS u hu).symm⟩
      | some sel =>
        rw [IsLayout.Takes, hi u hu] at hy
        exact ⟨hy, fun heq => hzinner u hu sel (heq ▸ hy)⟩
    rintro u (rfl | hu) w (rfl | hw) p q y hp hq
    · exact ⟨rfl, (hnew hp).1.trans (hnew hq).1.symm⟩
    · exact absurd (hnew hp).2 (hold hw hq).2
    · exact absurd (hnew hq).2 (hold hu hp).2
    · exact L.isApart u hu w hw p q y (hold hu hp).1 (hold hw hq).1

namespace IsPlacement

variable (L : IsPlacement A γ S h c φ inner)
include L

theorem valueOf {operand? : Option String} (hγ : ∀ x ∈ operand?, γ x = none) :
    h.valueOf operand? ∈ S ∧ c.valueOf operand? = φ (h.valueOf operand?) := by
  cases operand? with
  | none => exact ⟨L.null_mem, L.null.symm⟩
  | some x =>
    have hvar := L.var x
    rw [hγ x rfl, or_none] at hvar
    simp only [Heap.valueOf, bind_some, hvar]
    cases hx : h.var? x with
    | none => exact ⟨L.null_mem, L.null.symm⟩
    | some v => exact ⟨L.named x v hx, rfl⟩

theorem eq_null_iff (hv : v ∈ S) : φ v = Node.null ↔ v = Node.null := by
  constructor
  · intro heq
    exact L.inj v hv _ L.null_mem (heq.trans L.null.symm)
  · rintro rfl
    exact L.null

theorem read (hv : v ∈ S) (hnone : ∀ w, ¬A.Chained h v sel w) :
    (h.selector? v sel).getD Node.null ∈ S ∧
    (c.selector? (φ v) sel).getD Node.null = φ ((h.selector? v sel).getD Node.null) := by
  rw [(L.toIsLayout.selector?_eq hv hnone).1]
  cases ht : h.selector? v sel with
  | none => exact ⟨L.null_mem, L.null.symm⟩
  | some t => exact ⟨L.closed v hv sel t (.inl ht), rfl⟩

theorem setVar (hv : v ∈ S) : IsPlacement A γ S (h.setVar x v) (c.setVar x (φ v)) φ inner where
  toIsLayout := L.toIsLayout.replace (Nat.le_refl _) (Nat.le_refl _) (fun _ _ _ _ _ _ => rfl)
    fun _ _ _ => .inl ⟨rfl, fun _ => .rfl, rfl⟩
  named y w hy := by
    rw [Heap.var?_setVar] at hy
    split at hy
    · cases hy
      exact hv
    · exact L.named y w hy
  var y := by
    rw [Heap.var?_setVar, Heap.var?_setVar]
    split
    · rfl
    · exact L.var y

theorem grow (hh : h.InRange) :
    IsPlacement A γ (insert h.size S) h.grow c.grow (Function.update φ h.size c.size)
      (Function.update inner h.size fun _ => []) where
  toIsLayout := by
    have L' : IsLayout A S h.grow c.grow φ inner :=
      L.toIsLayout.replace (by simp) (by simp) (fun _ _ _ _ _ _ => Heap.selector?_grow)
        fun _ _ _ => .inl ⟨Heap.selector?_grow, fun _ => .rfl, Heap.selector?_grow⟩
    refine L'.insert (fun hmem => Nat.lt_irrefl _ (L.dom _ hmem)) (by simp) (by simp) ?_ ?_ ?_ ?_
    · rintro sel w (hw | ⟨chain, -, -, hw⟩)
      · rw [Heap.selector?_grow, Heap.selector?_of_size_le (Nat.le_refl _)] at hw
        cases hw
      · exact Nat.lt_irrefl _ (hh.ends _ hw h.size (by simp))
    · exact fun sel => by rw [Heap.selector?_grow, Heap.selector?_of_size_le (Nat.le_refl _)]
    · exact fun w hw => Nat.ne_of_gt (L.lt w hw)
    · exact fun w hw sel hz => Nat.lt_irrefl _ (L.lt_size_of_mem_inner hw hz)
  named x v hx := .inr (L.named x v hx)
  var x := by
    rw [Heap.var?_grow, Heap.var?_grow, L.var]
    refine Option.map_congr fun v hv => ?_
    rw [Function.update_of_ne (Nat.ne_of_lt (hh.var x v hv))]

theorem stored (hv : v ∈ S) (hw : w ∈ S) (hne : v ≠ Node.null) (hnone : ∀ t, ¬A.Chained h v sel t) :
    IsPlacement A γ S (Statement.stored h v sel w) (Statement.stored c (φ v) sel (φ w)) φ inner where
  toIsLayout := by
    have hne' : φ v ≠ Node.null := fun heq => hne ((L.eq_null_iff hv).1 heq)
    refine L.toIsLayout.replace (by simp) (by simp) (fun u hu s z hz t => ?_) fun u hu s => ?_
    · exact Heap.selector?_stored_of_ne fun heq => L.fresh u hu s z hz v hv heq.1
    · by_cases hus : u = v ∧ s = sel
      · obtain ⟨rfl, rfl⟩ := hus
        right
        rw [Heap.selector?_stored_self hne (L.dom u hu),
          Heap.selector?_stored_self hne' (L.lt u hu)]
        refine ⟨fun t ht => ?_, fun t ⟨chain, hchain, hsel, ht⟩ => ?_, ?_,
          (L.toIsLayout.selector?_eq hu hnone).2⟩
        · split at ht
          · cases ht
          · cases ht
            exact hw
        · exact hnone t ⟨chain, hchain, hsel, Heap.summaries_stored ▸ ht⟩
        · by_cases hnull : w = Node.null
          · rw [if_pos hnull, if_pos ((L.eq_null_iff hw).2 hnull), map_none]
          · rw [if_neg hnull, if_neg fun heq => hnull ((L.eq_null_iff hw).1 heq), map_some]
      · have hus' : ¬(φ u = φ v ∧ s = sel) := fun heq => hus ⟨L.inj u hu v hv heq.1, heq.2⟩
        refine .inl ⟨Heap.selector?_stored_of_ne hus, fun t => ?_, Heap.selector?_stored_of_ne hus'⟩
        rw [Abstraction.Chained, Abstraction.Chained, Heap.summaries_stored]
  named x u hx := L.named x u (Heap.var?_stored ▸ hx)
  var x := by rw [Heap.var?_stored, Heap.var?_stored, L.var]

end IsPlacement

theorem Abstraction.IsExposed.not_chained (hp : A.IsExposed h p) (hdet : A.IsDeterministic h)
    (hv : h.valueOf (some p.base) = v) (hne : v ≠ Node.null) : ¬A.Chained h v p.selector w := by
  rintro ⟨chain, hchain, hsel, hw⟩
  have hvar : h.var? p.base = some v := by
    rw [Heap.valueOf, bind_some] at hv
    cases hx : h.var? p.base with
    | none =>
      rw [hx] at hv
      exact absurd hv.symm hne
    | some u =>
      rw [hx] at hv
      exact congrArg some hv
  rcases hp v hvar with hsome | hnone
  · rw [← hsel, hdet.hidden chain hchain v w hw] at hsome
    cases hsome
  · exact hnone chain hchain hsel _ hw rfl rfl

theorem Abstraction.IsDeterministic.congr {h' : Heap} (hdet : A.IsDeterministic h)
    (hsel : ∀ v s, h'.selector? v s = h.selector? v s) (hsum : h'.summaries = h.summaries) :
    A.IsDeterministic h' where
  hidden chain hchain v w hw := (hsel v _).trans (hdet.hidden chain hchain v w (hsum ▸ hw))
  sources chain hchain := hsum ▸ hdet.sources chain hchain

theorem Abstraction.IsDeterministic.stored (hdet : A.IsDeterministic h)
    (hnone : ∀ t, ¬A.Chained h v sel t) : A.IsDeterministic (Statement.stored h v sel w) where
  hidden chain hchain u t ht := by
    rw [Heap.summaries_stored] at ht
    have hus : ¬(u = v ∧ chain.selector = sel) := by
      rintro ⟨rfl, hsel⟩
      exact hnone t ⟨chain, hchain, hsel, ht⟩
    rw [Heap.selector?_stored_of_ne hus]
    exact hdet.hidden chain hchain u t ht
  sources chain hchain := by
    rw [Heap.summaries_stored]
    exact hdet.sources chain hchain

namespace Describes

theorem setVar (hd : Describes A γ h c) (L : IsPlacement A γ S h c φ inner) (hv : v ∈ S)
    (hz : z = φ v) : Describes A γ (h.setVar x v) (c.setVar x z) := by
  subst hz
  exact ⟨hd.inRange.setVar (L.dom v hv), hd.det.congr (fun _ _ => rfl) rfl, hd.links, S, φ, inner,
    L.setVar hv⟩

theorem grow (hd : Describes A γ h c) :
    Describes A γ (h.grow.setVar x h.size) (c.grow.setVar x c.size) := by
  obtain ⟨S, φ, inner, L⟩ := hd.placed
  have L' := (L.grow hd.inRange).setVar (x := x) (Set.mem_insert h.size S)
  rw [Function.update_self] at L'
  exact ⟨hd.inRange.grow.setVar (by simp), hd.det.congr (fun _ _ => Heap.selector?_grow) rfl,
    hd.links, _, _, _, L'⟩

theorem stored (hd : Describes A γ h c) (L : IsPlacement A γ S h c φ inner) (hv : v ∈ S)
    (hw : w ∈ S) (hz : z = φ w) (hne : v ≠ Node.null) (hnone : ∀ t, ¬A.Chained h v sel t) :
    Describes A γ (Statement.stored h v sel w) (Statement.stored c (φ v) sel z) := by
  subst hz
  refine ⟨hd.inRange.stored hne (L.dom v hv) (L.dom w hw), hd.det.stored hnone, ?_, S, φ, inner,
    L.stored hv hw hne hnone⟩
  rw [Heap.summaries_stored]
  exact hd.links

end Describes

section Steps

variable {stmt : Statement} {loc : Location}

section

variable (L : IsPlacement A γ S h c φ inner) (hγ : IsGhost γ) (hstmt : stmt.IsUnreserved)
include L hγ hstmt

theorem IsPlacement.valueOf_names (operand? : Option String)
    (hmem : ∀ x ∈ operand?, x ∈ stmt.instruction.names) :
    h.valueOf operand? ∈ S ∧ c.valueOf operand? = φ (h.valueOf operand?) :=
  L.valueOf fun x hx => hγ x (.inl (hstmt x (hmem x hx)))

theorem IsPlacement.outcomes_eq {guard : Guard} {target : Nat}
    (hi : stmt.instruction = .branch guard target) : guard.outcomes c = guard.outcomes h := by
  cases guard with
  | any => rfl
  | compare lhs rhs? equal =>
    obtain ⟨hv, hz⟩ := L.valueOf_names hγ hstmt (some lhs)
      (by simp [hi, Instruction.names])
    obtain ⟨hw, ht⟩ := L.valueOf_names hγ hstmt rhs?
      (by simp +contextual [hi, Instruction.names])
    have hiff : φ (h.valueOf (some lhs)) = φ (h.valueOf rhs?) ↔
        h.valueOf (some lhs) = h.valueOf rhs? := ⟨L.inj _ hv _ hw, fun heq => by rw [heq]⟩
    simp only [Guard.outcomes, hz, ht, beq_eq_decide, hiff]

/-- A statement that goes through a variable does so in both heaps, or goes through null in both. -/
theorem IsPlacement.through_eq_fault_iff {base : String} (hbase : base ∈ stmt.instruction.names)
    (f f' : Node → Heap) : stmt.through c base f = .fault ↔ stmt.through h base f' = .fault := by
  obtain ⟨hv, hz⟩ := L.valueOf_names hγ hstmt (some base) (by simpa using hbase)
  simp only [Statement.through, hz, L.eq_null_iff hv]
  split <;> simp

end

namespace Describes

variable (hd : Describes A γ h c) (hγ : IsGhost γ) (hstmt : stmt.IsUnreserved)
include hd hγ hstmt

/-- A statement that goes on in the heap goes on in the shape, and what it leaves is described. -/
theorem moves (hexposed : ∀ p ∈ stmt.accessPoints, A.IsExposed h p) {next : List (Location × Heap)}
    (hstep : stmt.step c = .moves next) (hnext : (loc, c') ∈ next) :
    ∃ next' h', stmt.step h = .moves next' ∧ (loc, h') ∈ next' ∧ Describes A γ h' c' := by
  obtain ⟨S, φ, inner, L⟩ := hd.placed
  have hvalue := L.valueOf_names hγ hstmt
  -- where the statement goes through a base, the base is no null and no summary hides the selector
  have hthrough {base s v} {f : Node → Heap} (hbase : base ∈ stmt.instruction.names)
      (hp : ⟨base, s⟩ ∈ stmt.accessPoints) (hv : h.valueOf (some base) = v)
      (hgo : stmt.through c base f = .moves next) :
      (loc, c') = (stmt.next, f (φ v)) ∧ v ∈ S ∧ v ≠ Node.null ∧ ∀ w, ¬A.Chained h v s w := by
    subst hv
    obtain ⟨hv, hz⟩ := hvalue (some base) (by simpa using hbase)
    rw [Statement.through, hz] at hgo
    by_cases hne : h.valueOf (some base) = Node.null
    · rw [if_pos ((L.eq_null_iff hv).2 hne)] at hgo
      cases hgo
    · rw [if_neg fun heq => hne ((L.eq_null_iff hv).1 heq)] at hgo
      cases hgo
      exact ⟨List.mem_singleton.1 hnext, hv, hne,
        fun w => (hexposed _ hp).not_chained hd.det rfl hne⟩
  rw [Statement.step] at hstep ⊢
  cases hi : stmt.instruction with
  | assignNull x =>
    rw [hi] at hstep
    cases hstep
    cases List.mem_singleton.1 hnext
    exact ⟨_, _, rfl, List.mem_singleton_self _, hd.setVar L L.null_mem L.null.symm⟩
  | assignNew x =>
    rw [hi] at hstep
    cases hstep
    cases List.mem_singleton.1 hnext
    exact ⟨_, _, rfl, List.mem_singleton_self _, hd.grow⟩
  | assignVar x y =>
    rw [hi] at hstep
    cases hstep
    cases List.mem_singleton.1 hnext
    obtain ⟨hv, hz⟩ := hvalue (some y) (by simp [hi, Instruction.names])
    exact ⟨_, _, rfl, List.mem_singleton_self _, hd.setVar L hv hz⟩
  | load x base s =>
    rw [hi] at hstep
    obtain ⟨heq, hv, hne, hnone⟩ := hthrough (s := s) (by simp [hi, Instruction.names])
      (by simp [Statement.accessPoints, Statement.accessPoint?, hi]) rfl hstep
    cases heq
    obtain ⟨hw, ht⟩ := L.read hv hnone
    exact ⟨_, _, if_neg hne, List.mem_singleton_self _, hd.setVar L hw ht⟩
  | store base s value? =>
    rw [hi] at hstep
    obtain ⟨heq, hv, hne, hnone⟩ := hthrough (s := s) (by simp [hi, Instruction.names])
      (by simp [Statement.accessPoints, Statement.accessPoint?, hi]) rfl hstep
    cases heq
    obtain ⟨hw, ht⟩ := hvalue value? (by simp +contextual [hi, Instruction.names])
    exact ⟨_, _, if_neg hne, List.mem_singleton_self _, hd.stored L hv hw ht hne hnone⟩
  | call method args result? =>
    rw [hi] at hstep
    cases hstep
  | branch guard target =>
    rw [hi] at hstep
    dsimp only at hstep ⊢
    rw [L.outcomes_eq hγ hstmt hi] at hstep
    generalize guard.outcomes h = outcomes at hstep ⊢
    cases hstep
    rw [List.mem_append] at hnext
    refine ⟨_, h, rfl, ?_⟩
    rw [List.mem_append]
    rcases hnext with hnext | hnext <;> split at hnext
    · next htaken =>
      cases List.mem_singleton.1 hnext
      exact ⟨.inl (by rw [if_pos htaken]; exact List.mem_singleton_self _), hd⟩
    · cases hnext
    · next hpassed =>
      cases List.mem_singleton.1 hnext
      exact ⟨.inr (by rw [if_pos hpassed]; exact List.mem_singleton_self _), hd⟩
    · cases hnext
  | goto target =>
    rw [hi] at hstep
    cases hstep
    cases List.mem_singleton.1 hnext
    exact ⟨_, _, rfl, List.mem_singleton_self _, hd⟩
  | «return» value? =>
    rw [hi] at hstep
    cases hstep
    cases List.mem_singleton.1 hnext
    refine ⟨_, _, rfl, List.mem_singleton_self _, ?_⟩
    cases value? with
    | none => exact hd
    | some x =>
      obtain ⟨hv, hz⟩ := hvalue (some x) (by simp [hi, Instruction.names])
      exact hd.setVar L hv hz
  | skip =>
    rw [hi] at hstep
    cases hstep
    cases List.mem_singleton.1 hnext
    exact ⟨_, _, rfl, List.mem_singleton_self _, hd⟩

theorem fault (hstep : stmt.step c = .fault) : stmt.step h = .fault := by
  obtain ⟨S, φ, inner, L⟩ := hd.placed
  rw [Statement.step] at hstep ⊢
  cases hi : stmt.instruction with
  | load x base s =>
    rw [hi] at hstep
    exact (L.through_eq_fault_iff hγ hstmt (by simp [hi, Instruction.names]) _ _).1 hstep
  | store base s value? =>
    rw [hi] at hstep
    exact (L.through_eq_fault_iff hγ hstmt (by simp [hi, Instruction.names]) _ _).1 hstep
  | _ =>
    rw [hi] at hstep
    cases hstep

theorem call {site : CallSite} (hstep : stmt.step c = .call site) :
    ∃ S φ inner args, IsPlacement A γ S h c φ inner ∧ (∀ v ∈ args, v ∈ S) ∧
      site.args = args.map φ ∧ stmt.step h = .call ⟨site.method, args, site.result⟩ := by
  obtain ⟨S, φ, inner, L⟩ := hd.placed
  obtain ⟨args, hi, hsite⟩ := Statement.instruction_of_call hstep
  have hargs : ∀ a ∈ args, h.valueOf a ∈ S ∧ c.valueOf a = φ (h.valueOf a) := fun a ha =>
    L.valueOf_names hγ hstmt a fun x hx => by
      obtain rfl : a = some x := hx
      simp [hi, Instruction.names, ha]
  refine ⟨S, φ, inner, args.map h.valueOf, L, fun v hv => ?_, ?_, by rw [Statement.step, hi]⟩
  · obtain ⟨a, ha, rfl⟩ := List.mem_map.1 hv
    exact (hargs a ha).1
  · rw [hsite, List.map_map]
    exact List.map_congr_left fun a ha => (hargs a ha).2

end Describes

end Steps

end ShapeCheck
