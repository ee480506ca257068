import ShapeCheck.Engine.Verify

/-!
# What a computation on a session ensures

A computation on a session ends with a value or with an error, and in both cases with a session. It
*ensures* a condition on values and one on errors if it ends in accordance with them. There is one
rule for each way in which computations are composed.

A computation *keeps* a property of sessions if the property is left over however it ends.
-/

namespace ShapeCheck.Run

variable {α β : Type} {s t : Session}

/-- How a computation ends: a value or an error, and the session. -/
def outcome (x : Run α) (s : Session) : Except GenerationError α × Session :=
  x.run.run s

theorem exists_outcome_eq_ok {x : Run α} (hok : (x.outcome s).1.toOption.isSome) :
    ∃ a t, x.outcome s = (.ok a, t) := by
  rcases hx : x.outcome s with ⟨_ | a, t⟩
  · rw [hx] at hok
    cases hok
  · exact ⟨a, t, rfl⟩

/-- From the session `s` the computation ends with a value and a session as `Q` says, or with an
error and a session as `F` says. -/
def Ensures (x : Run α) (s : Session) (Q : α → Session → Prop)
    (F : GenerationError → Session → Prop) : Prop :=
  match x.outcome s with
  | (.ok a, s') => Q a s'
  | (.error e, s') => F e s'

section Rules

variable {x : Run α} {f : α → Run β} {Q Q' : α → Session → Prop} {R : β → Session → Prop}
  {F F' : GenerationError → Session → Prop}

theorem Ensures.imp (hx : x.Ensures s Q F) (hQ : ∀ a s', Q a s' → Q' a s')
    (hF : ∀ e s', F e s' → F' e s') : x.Ensures s Q' F' := by
  unfold Ensures at hx ⊢
  split
  · next heq => exact hQ _ _ (by simpa only [heq] using hx)
  · next heq => exact hF _ _ (by simpa only [heq] using hx)

theorem Ensures.of_ok {a : α} (hx : x.Ensures s Q F) (heq : x.outcome s = (.ok a, t)) : Q a t := by
  simpa only [Ensures, heq] using hx

theorem Ensures.of_error {e : GenerationError} (hx : x.Ensures s Q F)
    (heq : x.outcome s = (.error e, t)) : F e t := by
  simpa only [Ensures, heq] using hx

theorem Ensures.of_outcome (hQ : ∀ a t, x.outcome s = (.ok a, t) → Q a t)
    (hF : ∀ e t, x.outcome s = (.error e, t) → F e t) : x.Ensures s Q F := by
  unfold Ensures
  split
  · next heq => exact hQ _ _ heq
  · next heq => exact hF _ _ heq

theorem Ensures.and (hx : x.Ensures s Q F) (hx' : x.Ensures s Q' F') :
    x.Ensures s (fun a t => Q a t ∧ Q' a t) fun e t => F e t ∧ F' e t :=
  .of_outcome (fun _ _ heq => ⟨hx.of_ok heq, hx'.of_ok heq⟩) fun _ _ heq =>
    ⟨hx.of_error heq, hx'.of_error heq⟩

theorem ensures_pure {a : α} : (pure a : Run α).Ensures s Q F ↔ Q a s :=
  Iff.rfl

theorem ensures_get {Q : Session → Session → Prop} : (get : Run Session).Ensures s Q F ↔ Q s s :=
  Iff.rfl

theorem ensures_set {Q : PUnit → Session → Prop} :
    (set t : Run PUnit).Ensures s Q F ↔ Q ⟨⟩ t :=
  Iff.rfl

theorem ensures_modify {g : Session → Session} {Q : PUnit → Session → Prop} :
    (modify g : Run PUnit).Ensures s Q F ↔ Q ⟨⟩ (g s) :=
  Iff.rfl

theorem ensures_modifyGet {g : Session → α × Session} :
    (modifyGet g : Run α).Ensures s Q F ↔ Q (g s).1 (g s).2 :=
  Iff.rfl

theorem outcome_bind (x : Run α) (f : α → Run β) (s : Session) : (x >>= f).outcome s =
    match x.outcome s with
    | (.ok a, s') => (f a).outcome s'
    | (.error e, s') => (.error e, s') := by
  have hrun : (x >>= f).outcome s =
      (ExceptT.bindCont f (x.outcome s).1 : StateM Session _).run (x.outcome s).2 := rfl
  rw [hrun]
  rcases x.outcome s with ⟨_ | _, _⟩ <;> rfl

theorem exists_of_outcome_bind {b : β} (hb : (x >>= f).outcome s = (.ok b, t)) :
    ∃ a u, x.outcome s = (.ok a, u) ∧ (f a).outcome u = (.ok b, t) := by
  rw [outcome_bind] at hb
  rcases hx : x.outcome s with ⟨_ | a, u⟩
  · rw [hx] at hb
    cases hb
  · rw [hx] at hb
    exact ⟨a, u, rfl, hb⟩

theorem ensures_bind : (x >>= f).Ensures s R F ↔
    x.Ensures s (fun a s' => (f a).Ensures s' R F) F := by
  unfold Ensures
  rw [outcome_bind]
  rcases x.outcome s with ⟨_ | _, _⟩ <;> rfl

/-- The value that the first computation finds, or else the value of the second. -/
def orElseRun (x : Run (Option α)) (y : Run α) : Run α :=
  x >>= fun a? => a?.elim y pure

theorem bind_eq_orElseRun {x : Run (Option α)} {f : Option α → Run α} {y : Run α}
    (hsome : ∀ a, f (some a) = pure a) (hnone : f none = y) : x >>= f = x.orElseRun y := by
  have hf : f = fun a? => a?.elim y pure := funext fun a? => by
    cases a? with
    | none => exact hnone
    | some a => exact hsome a
  rw [hf, orElseRun]

theorem ensures_orElseRun {x : Run (Option α)} {y : Run α} : (x.orElseRun y).Ensures s Q F ↔
    x.Ensures s (fun a? t => (∀ a, a? = some a → Q a t) ∧ (a? = none → y.Ensures t Q F)) F := by
  rw [orElseRun, ensures_bind]
  refine ⟨fun h => h.imp (fun a? t h => ?_) fun _ _ h => h, fun h => h.imp (fun a? t h => ?_)
    fun _ _ h => h⟩
  · cases a? with
    | none => exact ⟨nofun, fun _ => h⟩
    | some a => exact ⟨fun _ ha => Option.some.inj ha ▸ h, nofun⟩
  · cases a? with
    | none => exact h.2 rfl
    | some a => exact h.1 a rfl

theorem Ensures.foldlM {I : List α → β → Session → Prop} {g : β → α → Run β} :
    {l : List α} → {b : β} → {s : Session} → I l b s →
    (∀ a rest b s, a ∈ l → I (a :: rest) b s → (g b a).Ensures s (I rest) F) →
    (l.foldlM g b).Ensures s (I []) F
  | [], _, _, hI, _ => hI
  | a :: l, b, s, hI, hstep => by
    rw [List.foldlM_cons, ensures_bind]
    refine (hstep a l b s List.mem_cons_self hI).imp (fun b' s' hI' => ?_) fun _ _ h => h
    exact Ensures.foldlM hI' fun a' rest b s ha' => hstep a' rest b s (List.mem_cons_of_mem _ ha')

end Rules

/-- A property that composed computations have if their parts do. -/
structure IsComposed (C : (α : Type) → Run α → Prop) : Prop where
  pure {α : Type} (a : α) : C α (Pure.pure a)
  get : C Session MonadState.get
  bind {α β : Type} {x : Run α} {f : α → Run β} : C α x → (∀ a, C β (f a)) → C β (x >>= f)

theorem IsComposed.mapM {C : (α : Type) → Run α → Prop} (hC : IsComposed C) {f : α → Run β}
    (hf : ∀ a, C β (f a)) (l : List α) : C (List β) (l.mapM f) := by
  induction l with
  | nil => exact hC.pure []
  | cons a l ih =>
    rw [List.mapM_cons]
    exact hC.bind (hf a) fun b => hC.bind ih fun bs => hC.pure (b :: bs)

/-- Whether the computation ends with a value or with an error, the session that it leaves has the
property if the first session had it. -/
def Keeps (x : Run α) (I : Session → Prop) : Prop :=
  ∀ s, I s → I (x.outcome s).2

section Keeps

variable {x : Run α} {f : α → Run β} {I : Session → Prop}

theorem Ensures.outcome_snd {Q : Session → Prop} (hx : x.Ensures s (fun _ => Q) fun _ => Q) :
    Q (x.outcome s).2 := by
  unfold Ensures at hx
  split at hx
  · next heq => rwa [heq]
  · next heq => rwa [heq]

theorem isComposed_keeps (I : Session → Prop) : IsComposed fun _ x => x.Keeps I where
  pure _ _ hs := hs
  get _ hs := hs
  bind {_ _ x _} hx hf s hs := by
    have hs' := hx s hs
    rw [outcome_bind]
    generalize x.outcome s = r at hs' ⊢
    rcases r with ⟨_ | a, s'⟩
    · exact hs'
    · exact hf a s' hs'

theorem Keeps.mapM (hf : ∀ a, (f a).Keeps I) (l : List α) : (l.mapM f).Keeps I :=
  (isComposed_keeps I).mapM hf l

end Keeps

end ShapeCheck.Run
