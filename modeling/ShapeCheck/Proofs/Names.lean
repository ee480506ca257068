import ShapeCheck.Proofs.Execution
import ShapeCheck.Proofs.Resolution
import ShapeCheck.Proofs.RoundTrip

/-!
# Names in compiled programs

A word of a source text begins with a letter or an underscore, so no name that a program mentions is
reserved. The names are followed from the tokens through the syntax tree to the instructions.
-/

namespace ShapeCheck

open List

namespace Source

theorem isReserved_eq_false {x : String} (hx : IsName x) : Call.isReserved x = false := by
  obtain ⟨hword, -⟩ := hx
  rw [isWord, Bool.and_eq_true] at hword
  rw [Call.isReserved, decide_eq_false_iff_not]
  intro hhead
  rw [hhead] at hword
  exact absurd hword.1 (by decide +kernel)

/-- The variables that a statement mentions. -/
def StmtKind.names : StmtKind → List String
  | .assign x .null | .assign x .new => [x.name]
  | .assign x (.var y) => [x.name, y.name]
  | .assign x (.load base _) => [x.name, base.name]
  | .assign x (.call c) => c.args.filterMap Operand.name? ++ [x.name]
  | .store base _ value => base.name :: value.name?.toList
  | .call c => c.args.filterMap Operand.name?
  | .branch .any _ | .goto _ | .skip => []
  | .branch (.compare lhs rhs _) _ => lhs.name :: rhs.name?.toList
  | .return value => (value.map Ident.name).toList

/-- Neither the parameters nor the statements mention a reserved variable. -/
structure MethodDecl.IsUnreserved (d : MethodDecl) : Prop where
  params : ∀ x ∈ d.params, Call.isReserved x.name = false
  body : ∀ s ∈ d.body, ∀ x ∈ s.kind.names, Call.isReserved x = false

/-- No variable of the initial heap is reserved. -/
def InitDecl.IsUnreserved (d : InitDecl) : Prop :=
  ∀ b ∈ d.bindings, Call.isReserved b.var.name = false

/-- A declaration without reserved variables; a property has no variables of its own. -/
def Decl.IsUnreserved : Decl → Prop
  | .method d => d.IsUnreserved
  | .property _ => True
  | .init d => d.IsUnreserved

theorem Operand.token_of_mem_name? {a : Operand} {x : String} (hx : x ∈ a.name?) :
    a.token = .ident x := by
  rw [Operand.token, Option.mem_def.1 hx]
  rfl

theorem mem_bracketTokens {k : TokenKind} {items : List TokenKind} (hk : k ∈ items) :
    k ∈ bracketTokens items :=
  mem_cons_of_mem _ (mem_append_left _ (mem_intersperse hk))

theorem CallExpr.ident_mem_tokens {c : CallExpr} {x : String}
    (hx : x ∈ c.args.filterMap Operand.name?) : .ident x ∈ c.tokens := by
  obtain ⟨a, ha, hname⟩ := mem_filterMap.1 hx
  have hmem : a.token ∈ c.args.map Operand.token := mem_map_of_mem ha
  rw [Operand.token_of_mem_name? hname] at hmem
  exact mem_cons_of_mem _ (mem_bracketTokens hmem)

theorem StmtKind.ident_mem_tokens {kind : StmtKind} {x : String} (hx : x ∈ kind.names) :
    .ident x ∈ kind.tokens := by
  have hvalue {a : Operand} (hx : x ∈ a.name?.toList) : .ident x = a.token :=
    (Operand.token_of_mem_name? (Option.mem_toList.1 hx)).symm
  unfold StmtKind.names at hx
  split at hx
  case h_3 | h_4 =>
    rcases mem_pair.1 hx with rfl | rfl <;> simp [StmtKind.tokens, Rhs.tokens, Ident.token]
  case h_5 =>
    rcases mem_append.1 hx with hx | hx
    · exact mem_cons_of_mem _ (mem_cons_of_mem _ (CallExpr.ident_mem_tokens hx))
    · exact mem_singleton.1 hx ▸ mem_cons_self
  case h_6 =>
    rcases mem_cons.1 hx with rfl | hx
    · exact mem_cons_self
    · simp [StmtKind.tokens, hvalue hx]
  case h_7 => exact CallExpr.ident_mem_tokens hx
  case h_8 | h_9 | h_10 => cases hx
  case h_11 =>
    rcases mem_cons.1 hx with rfl | hx
    · exact mem_cons_of_mem _ mem_cons_self
    · simp [StmtKind.tokens, Condition.tokens, hvalue hx]
  case h_12 value =>
    cases value with
    | none => cases hx
    | some y => exact mem_singleton.1 hx ▸ mem_cons_of_mem _ mem_cons_self
  all_goals exact mem_singleton.1 hx ▸ mem_cons_self

theorem Decl.IsWritable.isUnreserved {d : Decl} (hd : d.IsWritable) : d.IsUnreserved := by
  have hname {x : String} (hx : .ident x ∈ d.tokens) : Call.isReserved x = false :=
    isReserved_eq_false (hd (.ident x) hx)
  cases d with
  | method d =>
    refine ⟨fun x hx => hname ?_, fun s hs x hx => hname ?_⟩
    · refine mem_cons_of_mem _ (mem_cons_of_mem _ (mem_append_left _ ?_))
      exact mem_bracketTokens (mem_map_of_mem hx)
    · have hmem : .ident x ∈ s.tokens :=
        mem_append_left _ (mem_append_right _ (StmtKind.ident_mem_tokens hx))
      have hbody : .ident x ∈ d.body.flatMap Stmt.tokens := mem_flatMap_of_mem hs hmem
      simp [Decl.tokens, MethodDecl.tokens, hbody]
  | property _ => trivial
  | init d =>
    refine fun b hb => hname ?_
    have hmem : .ident b.var.name ∈ d.bindings.flatMap Binding.tokens :=
      mem_flatMap_of_mem hb mem_cons_self
    simp [Decl.tokens, InitDecl.tokens, hmem]

theorem isUnreserved_of_parse {src : String} {p : Program} (hp : parse src = .ok p) :
    ∀ d ∈ p.decls, d.IsUnreserved :=
  fun d hd => ((kinds_of_parse hp).1 d hd).isUnreserved

theorem mem_decls_of_mem_methods {p : Program} {d : MethodDecl} (hd : d ∈ p.methods) :
    Decl.method d ∈ p.decls := by
  obtain ⟨decl, hdecl, heq⟩ := mem_filterMap.1 hd
  cases decl with
  | method m => exact Option.some.inj heq ▸ hdecl
  | property _ => cases heq
  | init _ => cases heq

end Source

namespace Code

theorem Performs.names_eq {d : Source.MethodDecl} {kind : Source.StmtKind} {i : Instruction}
    (h : Performs d kind i) : i.names = kind.names := by
  cases h with
  | assignCall | call => simp [Instruction.names, Source.StmtKind.names, filterMap_map]
  | branch =>
    rename_i cond _ _ _
    cases cond <;> rfl
  | _ => rfl

/-- A compiled program mentions no reserved variables. -/
theorem isUnreserved_of_compile {src : String} {P : Program} (hP : compile src = .ok P) :
    P.IsUnreserved := by
  obtain ⟨p, hparse, hresolve⟩ := exists_resolve_of_compile hP
  intro name m hm
  obtain ⟨d, hd, -, htranslates⟩ := translates_of_resolve hresolve hm
  obtain ⟨hparams, hbody⟩ :=
    Source.isUnreserved_of_parse hparse _ (Source.mem_decls_of_mem_methods hd)
  refine ⟨?_, htranslates.forall_mem (fun stmt s hs _ hperforms x hx => ?_) (forall_mem_nil _)⟩
  · rw [htranslates.params]
    exact forall_mem_map.2 hparams
  · rw [hperforms.names_eq] at hx
    exact hbody s hs x hx

end Code

end ShapeCheck
