import ShapeCheck.Proofs.Balance
import ShapeCheck.Proofs.Closure
import ShapeCheck.Proofs.Errors

/-!
# Where control goes

A method that resolves is sealed: jumps lead to its lines, and its last line returns. So a run of it,
and the exploration of its states, never comes to a place without a statement, except the exit.
-/

namespace ShapeCheck

open Option

namespace Code

/-- A place with a statement, or the exit. -/
def Method.IsPlace (m : Method) (l : Location) : Prop :=
  l = .exit ∨ ∃ i stmt, l = .line i ∧ m.statement? i = some stmt

theorem Method.Has.isPlace {m : Method} {l : Location} (hl : m.Has l) : m.IsPlace l := by
  cases l with
  | line i => exact .inr ⟨i, _, rfl, List.getElem?_eq_getElem hl⟩
  | exit => exact .inl rfl

theorem Statement.next_mem_targets {stmt : Statement} {g : Heap} {site : CallSite}
    (hstep : stmt.step g = .call site) : stmt.next ∈ stmt.targets := by
  obtain ⟨args, hi, -⟩ := instruction_of_call hstep
  simp [targets, hi]

theorem Method.Runs.has {P : Program} {Q : Method → Heap → Outcome → Prop} {m : Method}
    (hsealed : m.IsSealed) {c : Heap} {o : Outcome} (hrun : m.Runs P Q c o) {l : Location} {c' : Heap}
    (ho : o = .state l c') : m.Has l := by
  cases hrun with
  | start =>
    cases ho
    exact hsealed.start
  | step hrun hstep =>
    subst ho
    cases hstep with
    | move hstmt hstep hnext =>
      exact hsealed.targets _ (List.mem_of_getElem? hstmt) _
        ((Statement.targets_of_step hstep).2 _ hnext)
    | call hstmt hstep _ _ =>
      exact hsealed.targets _ (List.mem_of_getElem? hstmt) _ (Statement.next_mem_targets hstep)

end Code

namespace Engine

variable {E : Engine} {m : Code.Method} {Ans : Answering} {heaps : List Heap} {t : State}

theorem Reached.has_of_isSealed (hsealed : m.IsSealed) (ht : Reached E m Ans heaps t) :
    m.Has t.location := by
  induction ht with
  | start _ => exact hsealed.start
  | source _ _ _ _ ih => exact ih
  | @step g i stmt next p _ hstmt hnext hp _ =>
    refine hsealed.targets stmt (List.mem_of_getElem? hstmt) _ ?_
    unfold Code.Statement.Yields at hnext
    split at hnext
    · next hstep =>
      subst hnext
      exact (Code.Statement.targets_of_step hstep).2 p hp
    · next hstep =>
      obtain ⟨results, -, rfl⟩ := hnext
      obtain ⟨h, -, rfl⟩ := List.mem_map.1 hp
      exact Code.Statement.next_mem_targets hstep
    · exact hnext.elim

theorem exists_reached_of_search {steps : Nat} {method : String} {S : Search} {s s' : Session}
    {r : E.Space × Option Verdict} (hm : E.program.method? method = some m) (hS : S.IsBelow 0)
    (hr : (E.search steps method heaps S).outcome s = (.ok r, s')) (ht : r.1.Holds t) :
    ∃ Ans, Reached E m Ans heaps t := by
  obtain ⟨-, -, hheaps⟩ := exists_method_of_generateWith hr
  have hready : IsReady E.unjudged.protocol E (E.invoke steps) m heaps :=
    ⟨E.unjudged.isObeyed_invoke steps, fun _ _ _ _ _ _ _ _ _ => trivial⟩
  have hensures : (E.generateWith (E.invoke steps) steps method heaps S).Ensures s _ _ :=
    generateWith_ensures False hm hheaps hready (admits_unjudged s).follows False.elim hS
  obtain ⟨id, hid⟩ := ht
  exact ⟨_, (hensures.of_ok hr).1.2.reached id t hid⟩

end Engine

namespace Code

/-- Runs of a program, explorations of its states and searches through them stay at the places of a
method. -/
structure Method.StaysInside (m : Method) (P : Program) (x : String) : Prop where
  runs : ∀ c l c', P.Runs m c (.state l c') → m.IsPlace l
  reached : ∀ (E : Engine) (Ans : Answering) (heaps : List Heap) (t : State),
    E.Reached m Ans heaps t → m.IsPlace t.location
  search : ∀ (E : Engine) (steps : Nat) (heaps : List Heap) (S : Search) (s s' : Session)
    (r : E.Space × Option Verdict) (t : State), E.program = P →
    (S = .depthFirst ∨ ∃ a labels, S = .onTheFly a labels) →
    (E.search steps x heaps S).outcome s = (.ok r, s') → r.1.Holds t → m.IsPlace t.location

theorem Method.IsSealed.staysInside {P : Program} {x : String} {m : Method} (hsealed : m.IsSealed)
    (hm : P.method? x = some m) : m.StaysInside P x where
  runs c l c' hrun := by
    obtain ⟨n, hrun⟩ := hrun
    cases n with
    | zero => exact hrun.elim
    | succ n => exact (Method.Runs.has hsealed hrun rfl).isPlace
  reached E Ans heaps t ht := (ht.has_of_isSealed hsealed).isPlace
  search E steps heaps S s s' r t hE hS hr ht := by
    have hbelow : S.IsBelow 0 := by
      obtain rfl | ⟨a, labels, rfl⟩ := hS
      · exact Search.isBelow_depthFirst
      · exact Search.isBelow_onTheFly a labels
    obtain ⟨Ans, hreached⟩ := Engine.exists_reached_of_search (hE ▸ hm) hbelow hr ht
    exact (hreached.has_of_isSealed hsealed).isPlace

/-- **Programs resolve if and only if their names are right.** Then the methods are those that are
written, and control never comes to a place without a statement, except the exit. -/
theorem resolve_exact (p : Source.Program) :
    ((∃ P, resolve p = .ok P) ↔ p.IsResolvable) ∧
    ∀ P, resolve p = .ok P →
      (∀ x, (P.method? x).isSome ↔ ∃ d ∈ p.methods, d.name.name = x) ∧
      ∀ d ∈ p.methods, ∃ m, P.method? d.name.name = some m ∧ Translates d m ∧
        m.StaysInside P d.name.name := by
  refine ⟨exists_resolve_iff, fun P hP => ?_⟩
  obtain ⟨sigs, hall, -⟩ := method?_of_resolve hP
  refine ⟨fun x => ⟨fun hx => ?_, ?_⟩, fun d hd => ?_⟩
  · obtain ⟨m, hm⟩ := isSome_iff_exists.1 hx
    obtain ⟨d, hd, hname, -⟩ := translates_of_resolve hP hm
    exact ⟨d, hd, hname⟩
  · rintro ⟨d, hd, rfl⟩
    exact hall d hd
  · obtain ⟨m, hm⟩ := isSome_iff_exists.1 (hall d hd)
    obtain ⟨d', hd', hname, htranslates⟩ := translates_of_resolve hP hm
    -- Methods are told apart by their names.
    obtain rfl := List.inj_on_of_nodup_map (exists_resolve_iff.1 ⟨P, hP⟩).methods hd' hd hname
    exact ⟨m, hm, htranslates, htranslates.isSealed.staysInside hm⟩

/-- A loop over a list with a call resolves; without its end label, it does not. -/
theorem resolve_exact_loop :
    (∃ p P m, Source.parse
        "method m(x)\x7bl:if x==null goto e;x=m(x);goto l;e:\x7dinit m\x7bx=list 2;y=x;\x7d" = .ok p ∧
      resolve p = .ok P ∧ p.IsResolvable ∧ P.method? "m" = some m ∧
      m.statements.map (·.instruction) = [.branch (.compare "x" none true) 3,
        .call "m" [some "x"] (some "x"), .goto 0, .return none] ∧ m.StaysInside P "m") ∧
    ∃ p, Source.parse "method m(x)\x7bl:if x==null goto e;x=m(x);goto l;\x7d" = .ok p ∧
      ¬p.IsResolvable := by
  constructor
  · have hcompile : ((Source.parse
        "method m(x)\x7bl:if x==null goto e;x=m(x);goto l;e:\x7dinit m\x7bx=list 2;y=x;\x7d").toOption.bind
        fun p => (resolve p).toOption.bind fun P => (P.method? "m").map fun m =>
          m.statements.map (·.instruction)) = some [.branch (.compare "x" none true) 3,
            .call "m" [some "x"] (some "x"), .goto 0, .return none] := by
      decide +kernel
    obtain ⟨p, hp, hcompile⟩ := bind_eq_some_iff.1 hcompile
    obtain ⟨P, hP, hcompile⟩ := bind_eq_some_iff.1 hcompile
    obtain ⟨m, hm, hinstructions⟩ := map_eq_some_iff.1 hcompile
    have hP := eq_ok_of_toOption hP
    obtain ⟨hnames, hmethods⟩ := (resolve_exact p).2 P hP
    obtain ⟨d, hd, hname⟩ := (hnames "m").1 (by rw [hm]; rfl)
    obtain ⟨m', hm', -, hinside⟩ := hmethods d hd
    rw [hname] at hm' hinside
    obtain rfl := Option.some.inj (hm.symm.trans hm')
    exact ⟨p, P, m, eq_ok_of_toOption hp, hP, (resolve_exact p).1.1 ⟨P, hP⟩, hm,
      hinstructions, hinside⟩
  · have hparse : (Source.parse "method m(x)\x7bl:if x==null goto e;x=m(x);goto l;\x7d").toOption.map
        (fun p => (resolve p).toOption) = some none := by
      decide +kernel
    obtain ⟨p, hp, hnone⟩ := map_eq_some_iff.1 hparse
    refine ⟨p, eq_ok_of_toOption hp, fun hresolvable => ?_⟩
    obtain ⟨P, hP⟩ := (resolve_exact p).1.2 hresolvable
    rw [hP] at hnone
    cases hnone

end Code

end ShapeCheck
