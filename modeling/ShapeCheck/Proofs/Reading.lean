import ShapeCheck.Proofs.Rendering

/-!
# Reading rendered programs

Every parser of the grammar reads back what its construct is rendered as, whatever follows, as long as
the next token does not belong to the construct. Only the places are not those of the original.

A formula is rendered with round brackets around every binary connective, so it is read as a unary
formula, with no look at the token behind it. Eight steps for a token are enough to read it.

## Main results

* `takes_temporal`, `takes_decl`, `takes_program`: what is rendered is read back.
-/

namespace ShapeCheck.Source

open List

/-- What the tokens ahead are. -/
def Reader.kinds (r : Reader) : List TokenKind :=
  r.ahead.map Token.kind

namespace Parser

variable {α β γ : Type}

/-- With the tokens `l` ahead, the parser reads a value as `Q` says, and the tokens `m` are left. -/
def Takes (p : Parser α) (l m : List TokenKind) (Q : α → Prop) : Prop :=
  ∀ r : Reader, r.kinds = l → ∃ a r', p.run r = .ok (a, r') ∧ r'.kinds = m ∧ Q a

/-! ### Rules -/

section Rules

variable {p : Parser α} {f : α → Parser β} {l m n : List TokenKind} {k : TokenKind} {Q : α → Prop}
  {R : β → Prop}

theorem takes_pure {a : α} (ha : Q a) : (pure a : Parser α).Takes l l Q :=
  fun r hr => ⟨a, r, rfl, hr, ha⟩

theorem Takes.bind (hp : p.Takes l m Q) (hf : ∀ a, Q a → (f a).Takes m n R) :
    (p >>= f).Takes l n R := by
  intro r hr
  obtain ⟨a, r', hrun, hr', ha⟩ := hp r hr
  obtain ⟨b, s, hrun', hs, hb⟩ := hf a ha r' hr'
  refine ⟨b, s, ?_, hs, hb⟩
  rw [StateT.run_bind, hrun]
  exact hrun'

theorem Takes.imp {Q' : α → Prop} (hp : p.Takes l m Q) (hQ : ∀ a, Q a → Q' a) : p.Takes l m Q' := by
  intro r hr
  obtain ⟨a, r', hrun, hr', ha⟩ := hp r hr
  exact ⟨a, r', hrun, hr', hQ a ha⟩

theorem takes_get : (get : Parser Reader).Takes l l fun r => r.kinds = l :=
  fun r hr => ⟨r, r, rfl, hr, hr⟩

theorem takes_peek : peek.Takes (k :: l) (k :: l) fun t => t.kind = k := by
  refine takes_get.bind fun r hr => takes_pure ?_
  cases hahead : r.ahead with
  | nil => simp [Reader.kinds, hahead] at hr
  | cons t rest =>
    simp only [Reader.kinds, hahead, map_cons, List.cons.injEq] at hr
    exact hr.1

theorem takes_peekKind : peekKind.Takes (k :: l) (k :: l) fun k' => k' = k :=
  takes_peek.bind fun _ ht => takes_pure (Q := fun k' => k' = k) ht

/-- A look at the next token. -/
theorem Takes.peekKind {f : TokenKind → Parser β} (hf : (f k).Takes (k :: l) m R) :
    (Parser.peekKind >>= f).Takes (k :: l) m R :=
  takes_peekKind.bind fun _ hk => hk ▸ hf

theorem takes_here : here.Takes l l fun _ => True := by
  have hpeek : peek.Takes l l fun _ => True := takes_get.bind fun _ _ => takes_pure trivial
  exact hpeek.bind fun _ _ => takes_pure trivial

theorem takes_spanFrom (start : Span) : (spanFrom start).Takes l l fun _ => True :=
  takes_get.bind fun _ _ => takes_pure trivial

theorem takes_advance (hk : k ≠ .eof) : advance.Takes (k :: l) l fun _ => True := by
  intro r hr
  cases hahead : r.ahead with
  | nil => simp [Reader.kinds, hahead] at hr
  | cons t rest =>
    simp only [Reader.kinds, hahead, map_cons, List.cons.injEq] at hr
    refine ⟨(), ⟨t.span, rest⟩, ?_, hr.2, trivial⟩
    have hne : t.kind ≠ .eof := hr.1 ▸ hk
    show Except.ok ((), _) = _
    simp [hahead, hne]

/-- A step over the next token. -/
theorem Takes.advance (hp : p.Takes l m Q) (hk : k ≠ .eof) :
    (Parser.advance >>= fun _ => p).Takes (k :: l) m Q :=
  (takes_advance hk).bind fun _ _ => hp

theorem takes_accept (hk : k ≠ .eof) : (accept k).Takes (k :: l) l fun b => b = true := by
  refine Takes.peekKind ?_
  rw [if_pos rfl]
  exact (takes_pure (Q := fun b => b = true) rfl).advance hk

theorem takes_accept_of_ne {k' : TokenKind} (hk : k ≠ k') :
    (accept k').Takes (k :: l) (k :: l) fun b => b = false := by
  refine Takes.peekKind ?_
  rw [if_neg hk]
  exact takes_pure rfl

/-- The token that is asked for stands there. -/
theorem Takes.accept {q : Parser α} (hp : p.Takes l m Q) (hk : k ≠ .eof) :
    (Parser.accept k >>= fun b => if b = true then p else q).Takes (k :: l) m Q :=
  (takes_accept hk).bind fun b hb => by rwa [if_pos hb]

/-- Another token stands there than the one that is asked for. -/
theorem Takes.decline {q : Parser α} {k' : TokenKind} (hq : q.Takes (k :: l) m Q) (hk : k ≠ k') :
    (Parser.accept k' >>= fun b => if b = true then p else q).Takes (k :: l) m Q :=
  (takes_accept_of_ne hk).bind fun b hb => by rwa [if_neg (by simp [hb])]

theorem takes_expect (hk : k ≠ .eof) : (expect k).Takes (k :: l) l fun _ => True := by
  refine (takes_accept hk).bind fun b hb => ?_
  rw [hb]
  exact takes_pure trivial

/-- The token that has to stand there does. -/
theorem Takes.expect (hp : p.Takes l m Q) (hk : k ≠ .eof) :
    (Parser.expect k >>= fun _ => p).Takes (k :: l) m Q :=
  (takes_expect hk).bind fun _ _ => hp

end Rules

/-! ### Names and lists -/

section Items

variable {l m : List TokenKind}

theorem takes_ident (x : Ident) : ident.Takes (x.token :: l) l fun y => y.bare = x.bare := by
  rw [Ident.token]
  refine takes_peek.bind fun t ht => ?_
  rw [ht]
  exact Takes.advance (takes_pure rfl) (by simp)

theorem takes_selector (x : Ident) :
    selector.Takes (x.selectorToken :: l) l fun y => y.bare = x.bare := by
  rw [Ident.selectorToken, wordKind, String.ofList_toList]
  cases hword : Keyword.ofText? x.name with
  | some k =>
    have htext : k.text = x.name := by
      rw [Keyword.ofText?] at hword
      exact of_decide_eq_true (find?_some hword :)
    refine takes_peek.bind fun t ht => ?_
    rw [ht]
    refine Takes.advance (takes_pure ?_) (by simp)
    rw [Ident.bare, Ident.bare, htext]
  | none =>
    refine takes_peek.bind fun t ht => ?_
    rw [ht]
    exact takes_ident x

theorem takes_operand (a : Operand) : operand.Takes (a.token :: l) l fun b => b.bare = a.bare := by
  cases a with
  | null => exact Takes.accept (takes_pure rfl) (by simp)
  | var x =>
    refine Takes.decline ?_ (by simp [Operand.token, Operand.name?, valueToken])
    refine (takes_ident x).bind fun y hy => takes_pure ?_
    exact congrArg Operand.var hy

theorem takes_integer (n : Nat) : integer.Takes (.integer n :: l) l fun i => i = n :=
  Takes.peekKind (Takes.advance (takes_pure (Q := fun i => i = n) rfl) (by simp))

/-- Items with commas between them. Enough steps are granted if there is one for every item. -/
theorem takes_commaList {item : Parser α} {token : α → TokenKind} {f : α → β}
    (hitem : ∀ a l, item.Takes (token a :: l) l fun b => f b = f a) (first : α) (rest : List α)
    {steps : Nat} (hsteps : rest.length < steps) :
    (commaList item steps).Takes
      (((first :: rest).map token).intersperse (.symbol .comma) ++ .symbol .rightParen :: l)
      (.symbol .rightParen :: l) fun as => as.map f = (first :: rest).map f := by
  induction rest generalizing first steps with
  | nil =>
    obtain ⟨steps, rfl⟩ := Nat.exists_eq_add_one_of_ne_zero (Nat.ne_of_gt hsteps)
    refine (hitem first _).bind fun a ha => ?_
    refine Takes.decline (takes_pure ?_) (by simp)
    rw [map_singleton, map_singleton, ha]
  | cons second rest ih =>
    obtain ⟨steps, rfl⟩ := Nat.exists_eq_add_one_of_ne_zero (Nat.ne_of_gt (Nat.zero_lt_of_lt hsteps))
    refine (hitem first _).bind fun a ha => ?_
    refine Takes.accept ?_ (by simp)
    refine (ih second (Nat.lt_of_succ_lt_succ hsteps)).bind fun as has => takes_pure ?_
    rw [map_cons, ha, has, map_cons (l := second :: rest)]

theorem takes_bracketed {item : Parser α} {token : α → TokenKind} {f : α → β}
    (hitem : ∀ a l, item.Takes (token a :: l) l fun b => f b = f a)
    (hparen : ∀ a, token a ≠ .symbol .rightParen) (items : List α) :
    (bracketed item).Takes (bracketTokens (items.map token) ++ l) l fun as =>
      as.map f = items.map f := by
  rw [bracketTokens, cons_append, append_assoc]
  refine Takes.expect ?_ (by simp)
  cases items with
  | nil =>
    refine Takes.peekKind ?_
    rw [if_pos rfl]
    exact Takes.expect (takes_pure rfl) (by simp)
  | cons first rest =>
    obtain ⟨tail, htail⟩ : ∃ tail, ((first :: rest).map token).intersperse (.symbol .comma) ++
        ([.symbol .rightParen] ++ l) = token first :: tail := by
      cases rest <;> exact ⟨_, rfl⟩
    rw [htail]
    refine Takes.peekKind ?_
    rw [if_neg (hparen first), ← htail]
    refine takes_get.bind fun r hr => ?_
    have hsteps : rest.length < r.ahead.length := by
      have hlength := congrArg List.length hr
      simp only [Reader.kinds, length_map, length_append, length_intersperse,
        length_cons] at hlength
      omega
    refine (takes_commaList hitem first rest hsteps).bind fun as has => ?_
    exact Takes.expect (takes_pure has) (by simp)

end Items

/-! ### Statements -/

section Statements

variable {l : List TokenKind}

theorem takes_comparison (equal : Bool) :
    comparison.Takes (comparisonToken equal :: l) l fun b => b = equal := by
  cases equal with
  | true => exact Takes.peekKind (Takes.advance (takes_pure (Q := fun b => b = true) rfl)
      (by simp [comparisonToken]))
  | false => exact Takes.peekKind (Takes.advance (takes_pure (Q := fun b => b = false) rfl)
      (by simp [comparisonToken]))

theorem takes_callOf {method : Ident} (c : CallExpr) (hmethod : method.bare = c.method.bare) :
    (callOf method).Takes (bracketTokens (c.args.map Operand.token) ++ l) l fun d =>
      d.bare = c.bare := by
  have hparen (a : Operand) : a.token ≠ .symbol .rightParen := by
    cases a <;> exact TokenKind.noConfusion
  refine (takes_bracketed (fun a _ => takes_operand a) hparen c.args).bind fun args hargs =>
    (takes_spanFrom _).bind fun _ _ => takes_pure ?_
  simp only [CallExpr.bare, hmethod, hargs]

/-- The right side of an assignment, in front of a semicolon. -/
theorem takes_rhs (value : Rhs) :
    rhs.Takes (value.tokens ++ .symbol .semicolon :: l) (.symbol .semicolon :: l) fun v =>
      v.bare = value.bare := by
  cases value with
  | null => exact Takes.peekKind (Takes.advance (takes_pure rfl) (by simp))
  | new => exact Takes.peekKind (Takes.advance (takes_pure rfl) (by simp))
  | var x =>
    refine Takes.peekKind ((takes_ident x).bind fun y hy => Takes.peekKind (takes_pure ?_))
    exact congrArg Rhs.var hy
  | load base sel =>
    refine Takes.peekKind ((takes_ident base).bind fun y hy => Takes.peekKind ?_)
    refine Takes.advance ((takes_selector sel).bind fun z hz => takes_pure ?_) (by simp)
    rw [Rhs.bare, hy, hz, Rhs.bare]
  | call c =>
    refine Takes.peekKind ((takes_ident c.method).bind fun y hy => Takes.peekKind ?_)
    refine (takes_callOf c hy).bind fun d hd => takes_pure ?_
    exact congrArg Rhs.call hd

theorem takes_condition (cond : Condition) :
    condition.Takes (cond.tokens ++ l) l fun c => c.bare = cond.bare := by
  cases cond with
  | any => exact Takes.accept (takes_pure rfl) (by simp)
  | compare lhs rhs equal =>
    refine Takes.decline ?_ (by simp [Ident.token])
    refine (takes_ident lhs).bind fun x hx => (takes_comparison equal).bind fun b hb =>
      (takes_operand rhs).bind fun a ha => takes_pure ?_
    rw [Condition.bare, hx, ha, hb, Condition.bare]

/-- A statement in front of its semicolon. -/
theorem takes_stmtKind (kind : StmtKind) :
    stmtKind.Takes (kind.tokens ++ .symbol .semicolon :: l) (.symbol .semicolon :: l) fun k =>
      k.bare = kind.bare := by
  cases kind with
  | assign target value =>
    refine Takes.peekKind ((takes_ident target).bind fun x hx => Takes.peekKind ?_)
    refine Takes.advance ((takes_rhs value).bind fun v hv => takes_pure ?_) (by simp)
    rw [StmtKind.bare, hx, hv, StmtKind.bare]
  | store base sel value =>
    refine Takes.peekKind ((takes_ident base).bind fun x hx => Takes.peekKind ?_)
    refine Takes.advance ((takes_selector sel).bind fun y hy => Takes.expect ?_ (by simp)) (by simp)
    refine (takes_operand value).bind fun v hv => takes_pure ?_
    rw [StmtKind.bare, hx, hy, hv, StmtKind.bare]
  | call c =>
    refine Takes.peekKind ((takes_ident c.method).bind fun x hx => Takes.peekKind ?_)
    refine (takes_callOf c hx).bind fun d hd => takes_pure ?_
    exact congrArg StmtKind.call hd
  | branch cond target =>
    rw [StmtKind.tokens, cons_append, append_assoc]
    refine Takes.peekKind (Takes.advance ?_ (by simp))
    refine (takes_condition cond).bind fun c hc => Takes.expect ?_ (by simp)
    refine (takes_ident target).bind fun x hx => takes_pure ?_
    rw [StmtKind.bare, hc, hx, StmtKind.bare]
  | goto target =>
    refine Takes.peekKind (Takes.advance ((takes_ident target).bind fun x hx => takes_pure ?_) (by simp))
    exact congrArg StmtKind.goto hx
  | «return» value =>
    cases value with
    | none =>
      refine Takes.peekKind (Takes.advance (Takes.peekKind ?_) (by simp))
      rw [if_pos rfl]
      exact takes_pure rfl
    | some x =>
      refine Takes.peekKind (Takes.advance (Takes.peekKind ?_) (by simp))
      rw [if_neg (by simp [Ident.token])]
      refine (takes_ident x).bind fun y hy => takes_pure ?_
      rw [StmtKind.bare, Option.map_some, hy, StmtKind.bare, Option.map_some]
  | skip => exact Takes.peekKind (Takes.advance (takes_pure rfl) (by simp))

/-- Labels. What follows is not a label, which is a name with a colon. -/
theorem takes_labels (names : List Ident) (hl : ∀ x m, l ≠ .ident x :: .symbol .colon :: m) :
    labels.Takes (labelTokens names ++ l) l fun xs => xs.map Ident.bare = names.map Ident.bare := by
  have hlabelsIn {steps : Nat} (hsteps : names.length ≤ steps) : (labelsIn steps).Takes
      (labelTokens names ++ l) l fun xs => xs.map Ident.bare = names.map Ident.bare := by
    induction names generalizing steps with
    | nil =>
      cases steps with
      | zero => exact takes_pure rfl
      | succ steps =>
        refine takes_get.bind fun r hr => ?_
        split
        · next x m hkinds =>
          exact absurd (hr.symm.trans hkinds) (hl x m)
        · exact takes_pure rfl
    | cons x names ih =>
      cases steps with
      | zero => cases hsteps
      | succ steps =>
        refine takes_get.bind fun r hr => ?_
        rw [show r.ahead.map Token.kind = _ from hr]
        refine (takes_ident x).bind fun y hy => Takes.expect ?_ (by simp)
        refine (ih (Nat.le_of_succ_le_succ hsteps)).bind fun ys hys => takes_pure ?_
        rw [map_cons, map_cons, hy, hys]
  refine takes_get.bind fun r hr => hlabelsIn ?_
  have hlength := congrArg List.length hr
  simp only [Reader.kinds, length_map, length_append, labelTokens, length_flatMap,
    length_cons, length_nil, map_const', sum_replicate_nat] at hlength
  omega

/-- A statement begins neither with a label nor with a closing brace. -/
theorem exists_tokens_eq (kind : StmtKind) (l : List TokenKind) :
    ∃ k m, kind.tokens ++ .symbol .semicolon :: l = k :: m ∧ k ≠ .symbol .rightBrace ∧
      ∀ m', m ≠ .symbol .colon :: m' := by
  cases kind with
  | branch cond target =>
    cases cond <;> exact ⟨_, _, rfl, by simp, by simp [Condition.tokens, Ident.token]⟩
  | «return» value => cases value <;> exact ⟨_, _, rfl, by simp, by simp [Ident.token]⟩
  | assign _ _ | store _ _ _ | call _ | goto _ | skip =>
    exact ⟨_, _, rfl, by simp [Ident.token], by simp [Ident.token, bracketTokens]⟩

theorem takes_stmt (names : List Ident) (kind : StmtKind) :
    (stmt names).Takes (kind.tokens ++ .symbol .semicolon :: l) l fun s =>
      s.labels = names ∧ s.kind.bare = kind.bare :=
  takes_here.bind fun _ _ => (takes_stmtKind kind).bind fun _ hk => Takes.expect
    ((takes_spanFrom _).bind fun _ _ => takes_pure ⟨rfl, hk⟩) (by simp)

/-- The statements of a body. Enough steps are granted if there is one for each of them and one more. -/
theorem takes_bodyIn (body : List Stmt) (last : List Ident) {steps : Nat}
    (hsteps : body.length < steps) :
    (bodyIn steps).Takes
      (body.flatMap Stmt.tokens ++ (labelTokens last ++ .symbol .rightBrace :: l)) l fun b =>
        b.1.map Stmt.bare = body.map Stmt.bare ∧ b.2.map Ident.bare = last.map Ident.bare := by
  obtain ⟨steps, rfl⟩ := Nat.exists_eq_add_one_of_ne_zero (Nat.ne_of_gt (Nat.zero_lt_of_lt hsteps))
  induction body generalizing steps with
  | nil =>
    refine (takes_labels last (by simp)).bind fun names hnames => ?_
    exact Takes.accept (takes_pure ⟨rfl, hnames⟩) (by simp)
  | cons s body ih =>
    obtain ⟨steps, rfl⟩ := Nat.exists_eq_add_one_of_ne_zero (n := steps) (by
      rw [length_cons] at hsteps
      omega)
    generalize hrest : body.flatMap Stmt.tokens ++ (labelTokens last ++ .symbol .rightBrace :: l) = rest
    have htokens : (s :: body).flatMap Stmt.tokens ++ (labelTokens last ++ .symbol .rightBrace :: l) =
        labelTokens s.labels ++ (s.kind.tokens ++ .symbol .semicolon :: rest) := by
      simp [← hrest, Stmt.tokens]
    obtain ⟨k, m, hkm, hbrace, hcolon⟩ := exists_tokens_eq s.kind rest
    rw [htokens]
    refine (takes_labels s.labels ?_).bind fun names hnames => ?_
    · intro x m' hm'
      rw [hkm] at hm'
      exact hcolon m' (List.cons.inj hm').2
    · rw [hkm]
      refine Takes.decline ?_ hbrace
      rw [← hkm]
      refine (takes_stmt names s.kind).bind fun t ht => ?_
      rw [← hrest]
      refine (ih steps (Nat.lt_of_succ_lt_succ hsteps)).bind fun b hb => takes_pure ?_
      refine ⟨?_, hb.2⟩
      rw [map_cons, map_cons, hb.1, Stmt.bare, ht.1, ht.2, hnames, Stmt.bare]

theorem length_le_length_flatMap {f : α → List β} (hf : ∀ a, f a ≠ []) (as : List α) :
    as.length ≤ (as.flatMap f).length := by
  induction as with
  | nil => exact Nat.le_refl 0
  | cons a as ih =>
    have hpos := length_pos_iff.2 (hf a)
    rw [flatMap_cons, length_append, length_cons]
    omega

theorem takes_methodDecl (d : MethodDecl) :
    methodDecl.Takes (d.tokens ++ l) l fun e => e.bare = d.bare := by
  have htokens : d.tokens ++ l = .keyword .method :: d.name.token ::
      (bracketTokens (d.params.map Ident.token) ++ .symbol .leftBrace ::
        (d.body.flatMap Stmt.tokens ++ (labelTokens d.endLabels ++ .symbol .rightBrace :: l))) := by
    simp [MethodDecl.tokens]
  have hparen (x : Ident) : x.token ≠ .symbol .rightParen := TokenKind.noConfusion
  rw [htokens]
  refine takes_here.bind fun _ _ => Takes.expect ?_ (by simp)
  refine (takes_ident d.name).bind fun x hx => ?_
  refine (takes_bracketed (fun x _ => takes_ident x) hparen d.params).bind fun params hparams => ?_
  refine Takes.expect (takes_get.bind fun r hr => ?_) (by simp)
  have hsteps : d.body.length < r.ahead.length := by
    have hbody := length_le_length_flatMap (f := Stmt.tokens) (by simp [Stmt.tokens]) d.body
    have hlength := congrArg List.length hr
    simp only [Reader.kinds, length_map, length_append, length_cons] at hlength
    omega
  refine (takes_bodyIn d.body d.endLabels hsteps).bind fun b hb => ?_
  refine (takes_spanFrom _).bind fun _ _ => takes_pure ?_
  simp only [MethodDecl.bare, hx, hparams, hb.1, hb.2]

end Statements

/-! ### Formulae -/

section Formulae

variable {l : List TokenKind}

theorem takes_value (target : Option String) :
    operand.Takes (valueToken target :: l) l fun a => a.name? = target := by
  cases target with
  | none => exact Takes.accept (takes_pure rfl) (by simp)
  | some x =>
    refine Takes.decline ?_ (by simp [valueToken])
    refine (takes_ident ⟨x, {}⟩).bind fun y hy => takes_pure ?_
    exact congrArg (fun z => some z.name) hy

theorem takes_name (x : String) : ident.Takes (.ident x :: l) l fun y => y.name = x :=
  (takes_ident ⟨x, {}⟩).imp fun _ hy => congrArg Ident.name hy

theorem takes_proposition (p : Proposition) :
    proposition.Takes (p.tokens ++ l) l fun q => q = p := by
  cases p with
  | compare lhs rhs equal =>
    refine Takes.peekKind ((takes_name lhs).bind fun x hx => ?_)
    refine (takes_comparison equal).bind fun b hb => (takes_value rhs).bind fun a ha => takes_pure ?_
    rw [hx, hb, ha]
  | reach source target =>
    refine Takes.peekKind (Takes.advance (Takes.expect ?_ (by simp)) (by simp))
    refine (takes_name source).bind fun x hx => Takes.expect ?_ (by simp)
    refine (takes_value target).bind fun a ha => Takes.expect (takes_pure ?_) (by simp)
    rw [hx, ha]
  | terminated => exact Takes.peekKind (Takes.advance (takes_pure (Q := fun q => q = _) rfl) (by simp))

theorem takes_atom (p : Proposition) :
    atom.Takes (.symbol .leftBracket :: (p.tokens ++ .symbol .rightBracket :: l)) l fun t =>
      t.bare = .atom p {} := by
  refine takes_here.bind fun _ _ => Takes.expect ?_ (by simp)
  refine (takes_proposition p).bind fun q hq => Takes.expect ?_ (by simp)
  refine (takes_spanFrom _).bind fun _ _ => takes_pure ?_
  rw [Temporal.bare, hq]

section Levels

variable {ks : List TokenKind} {k : TokenKind} {steps : Nat} {Q : Temporal → Prop}

/-- A formula that does not begin with a unary operator. -/
theorem takes_unary_of_primary {m : List TokenKind} (h : (primary steps).Takes (k :: l) m Q)
    (hk : unary? k = none) : (unary (steps + 1)).Takes (k :: l) m Q := by
  rw [unary]
  refine Takes.peekKind ?_
  rwa [hk]

/-- A unary formula that no *until* and no *release* follows. -/
theorem takes_binary (h : (unary steps).Takes ks (k :: l) Q) (huntil : k ≠ .keyword .until)
    (hrelease : k ≠ .keyword .release) : (binary (steps + 1)).Takes ks (k :: l) Q := by
  rw [binary]
  exact h.bind fun _ ha => Takes.decline (Takes.decline (takes_pure ha) hrelease) huntil

theorem takes_conjunction (h : (binary (steps + 1)).Takes ks (k :: l) Q) (hand : k ≠ .keyword .and) :
    (conjunction (steps + 2)).Takes ks (k :: l) Q := by
  rw [conjunction]
  refine h.bind fun a ha => ?_
  rw [conjunctionFrom]
  exact Takes.decline (takes_pure ha) hand

theorem takes_disjunction (h : (conjunction (steps + 2)).Takes ks (k :: l) Q)
    (hor : k ≠ .keyword .or) : (disjunction (steps + 3)).Takes ks (k :: l) Q := by
  rw [disjunction]
  refine h.bind fun a ha => ?_
  rw [disjunctionFrom]
  exact Takes.decline (takes_pure ha) hor

theorem takes_implication (h : (disjunction (steps + 3)).Takes ks (k :: l) Q)
    (himplies : k ≠ .keyword .implies) : (implication (steps + 4)).Takes ks (k :: l) Q := by
  rw [implication]
  exact h.bind fun a ha => Takes.decline (takes_pure ha) himplies

/-- A unary formula that no binary connective follows. -/
theorem takes_implication_of_unary (h : (unary steps).Takes ks (k :: l) Q)
    (hk : k ∉ [.keyword .until, .keyword .release, .keyword .and, .keyword .or, .keyword .implies]) :
    (implication (steps + 4)).Takes ks (k :: l) Q := by
  simp only [mem_cons, not_mem_nil, or_false, not_or] at hk
  obtain ⟨huntil, hrelease, hand, hor, himplies⟩ := hk
  exact takes_implication (takes_disjunction (takes_conjunction (takes_binary h huntil hrelease) hand)
    hor) himplies

end Levels

/-- The tokens `ks` are read as the formula `a` if enough steps are granted, whatever follows. -/
def ReadsAs (ks : List TokenKind) (a : Temporal) (steps : Nat) : Prop :=
  ∀ n, steps ≤ n → ∀ l, (unary n).Takes (ks ++ l) l fun t => t.bare = a.bare

/-! ### Connectives -/

section Connectives

variable {ks ls : List TokenKind} {a b : Temporal} {steps : Nat}

/-- Two formulae with a connective between them, up to the closing bracket. -/
def ReadsPair (connective : Keyword) (ks ls : List TokenKind) (t : Temporal) (steps : Nat) : Prop :=
  ∀ l, (implication (steps + 5)).Takes
    (ks ++ .keyword connective :: (ls ++ .symbol .rightParen :: l)) (.symbol .rightParen :: l) fun u =>
      u.bare = t.bare

section

variable (ha : ReadsAs ks a steps) (hb : ReadsAs ls b steps)
include ha hb

theorem readsPair_until : ReadsPair .until ks ls (.until a b) steps := by
  intro l
  refine takes_implication (takes_disjunction (takes_conjunction ?_ (by simp)) (by simp)) (by simp)
  rw [binary]
  refine (ha (steps + 1) (by omega) _).bind fun x hx => Takes.accept ?_ (by simp)
  refine (takes_binary (hb steps (by omega) _) (by simp) (by simp)).bind fun y hy => takes_pure ?_
  rw [Temporal.bare, hx, hy, Temporal.bare]

theorem readsPair_release : ReadsPair .release ks ls (.release a b) steps := by
  intro l
  refine takes_implication (takes_disjunction (takes_conjunction ?_ (by simp)) (by simp)) (by simp)
  rw [binary]
  refine (ha (steps + 1) (by omega) _).bind fun x hx =>
    Takes.decline (Takes.accept ?_ (by simp)) (by simp)
  refine (takes_binary (hb steps (by omega) _) (by simp) (by simp)).bind fun y hy => takes_pure ?_
  rw [Temporal.bare, hx, hy, Temporal.bare]

theorem readsPair_and : ReadsPair .and ks ls (.and a b) steps := by
  intro l
  refine takes_implication (takes_disjunction ?_ (by simp)) (by simp)
  rw [conjunction]
  refine (takes_binary (ha (steps + 1) (by omega) _) (by simp) (by simp)).bind fun x hx => ?_
  rw [conjunctionFrom]
  refine Takes.accept ?_ (by simp)
  refine (takes_binary (hb steps (by omega) _) (by simp) (by simp)).bind fun y hy => ?_
  rw [conjunctionFrom]
  refine Takes.decline (takes_pure ?_) (by simp)
  rw [Temporal.bare, hx, hy, Temporal.bare]

theorem readsPair_or : ReadsPair .or ks ls (.or a b) steps := by
  intro l
  refine takes_implication ?_ (by simp)
  rw [disjunction]
  refine (takes_conjunction (takes_binary (ha (steps + 1) (by omega) _) (by simp) (by simp))
    (by simp)).bind fun x hx => ?_
  rw [disjunctionFrom]
  refine Takes.accept ?_ (by simp)
  refine (takes_conjunction (takes_binary (hb steps (by omega) _) (by simp) (by simp))
    (by simp)).bind fun y hy => ?_
  rw [disjunctionFrom]
  refine Takes.decline (takes_pure ?_) (by simp)
  rw [Temporal.bare, hx, hy, Temporal.bare]

theorem readsPair_implies : ReadsPair .implies ks ls (.implies a b) steps := by
  intro l
  rw [implication]
  refine (takes_disjunction (takes_conjunction (takes_binary (ha (steps + 1) (by omega) _) (by simp)
    (by simp)) (by simp)) (by simp)).bind fun x hx => Takes.accept ?_ (by simp)
  refine (takes_implication_of_unary (hb steps (by omega) _) (by simp)).bind fun y hy => takes_pure ?_
  rw [Temporal.bare, hx, hy, Temporal.bare]

end

/-- Two formulae with a connective between them, with their brackets. -/
theorem ReadsPair.takes_unary {connective : Keyword} {t : Temporal} {l : List TokenKind}
    (h : ReadsPair connective ks ls t steps) :
    (unary (steps + 7)).Takes (binaryTokens connective ks ls ++ l) l fun u => u.bare = t.bare := by
  have htokens : binaryTokens connective ks ls ++ l = .symbol .leftParen ::
      (ks ++ .keyword connective :: (ls ++ .symbol .rightParen :: l)) := by
    simp [binaryTokens]
  rw [htokens]
  refine takes_unary_of_primary ?_ rfl
  rw [primary]
  refine Takes.peekKind (Takes.advance ?_ (by simp))
  exact (h l).bind fun u hu => Takes.expect (takes_pure hu) (by simp)

/-- A unary operator in front of a formula. -/
theorem ReadsAs.operator {k : Keyword} {op : Temporal → Temporal} (ha : ReadsAs ks a steps)
    (hk : unary? (.keyword k) = some op) (hop : ∀ t, t.bare = a.bare → (op t).bare = (op a).bare) :
    ReadsAs (.keyword k :: ks) (op a) (steps + 1) := by
  intro n hn l
  obtain ⟨n, rfl⟩ := Nat.exists_eq_add_of_le' (Nat.le_of_add_left_le hn)
  rw [cons_append, unary]
  refine Takes.peekKind ?_
  rw [hk]
  refine Takes.advance ?_ (by simp)
  exact (ha n (by omega) l).bind fun t ht => takes_pure (hop t ht)

end Connectives

/-- A formula is read back from its tokens, if eight steps are granted for each of them. -/
theorem takes_unary (t : Temporal) : ReadsAs t.tokens t (8 * t.tokens.length) := by
  -- With brackets around it, a formula of two parts takes seven steps more than each part.
  have hpair {connective : Keyword} {a b t : Temporal}
      (ha : ReadsAs a.tokens a (8 * a.tokens.length)) (hb : ReadsAs b.tokens b (8 * b.tokens.length))
      (h : ∀ n, ReadsAs a.tokens a n → ReadsAs b.tokens b n →
        ReadsPair connective a.tokens b.tokens t n) :
      ReadsAs (binaryTokens connective a.tokens b.tokens) t
        (8 * (binaryTokens connective a.tokens b.tokens).length) := by
    intro n hn l
    simp only [binaryTokens, length_cons, length_append, length_nil] at hn
    obtain ⟨n, rfl⟩ := Nat.exists_eq_add_of_le' (Nat.le_trans (by omega : 7 ≤ _) hn)
    exact (h n (fun m hm => ha m (by omega)) fun m hm => hb m (by omega)).takes_unary
  have hunary {k : Keyword} {ks : List TokenKind} {t : Temporal}
      (h : ReadsAs (.keyword k :: ks) t (8 * ks.length + 1)) :
      ReadsAs (.keyword k :: ks) t (8 * (.keyword k :: ks : List TokenKind).length) := by
    intro n hn
    rw [length_cons] at hn
    exact h n (by omega)
  have hsteps {n : Nat} (hn : 8 ≤ n) : ∃ m, n = m + 2 := ⟨n - 2, by omega⟩
  induction t with
  | const value =>
    intro n hn l
    obtain ⟨n, rfl⟩ := hsteps hn
    cases value with
    | true | false =>
      refine takes_unary_of_primary ?_ rfl
      rw [primary]
      exact Takes.peekKind (Takes.advance (takes_pure rfl) (by simp))
  | atom p span =>
    intro n hn l
    rw [Temporal.tokens, length_cons] at hn
    obtain ⟨n, rfl⟩ := hsteps (Nat.le_trans (by omega) hn)
    rw [Temporal.tokens, cons_append, append_assoc]
    refine takes_unary_of_primary ?_ rfl
    rw [primary]
    exact Takes.peekKind (takes_atom p)
  | not a ih => exact hunary (ih.operator rfl fun t ht => congrArg Temporal.not ht)
  | next a ih => exact hunary (ih.operator rfl fun t ht => congrArg Temporal.next ht)
  | always a ih => exact hunary (ih.operator rfl fun t ht => congrArg Temporal.always ht)
  | eventually a ih => exact hunary (ih.operator rfl fun t ht => congrArg Temporal.eventually ht)
  | and a b iha ihb => exact hpair iha ihb fun _ => readsPair_and
  | or a b iha ihb => exact hpair iha ihb fun _ => readsPair_or
  | implies a b iha ihb => exact hpair iha ihb fun _ => readsPair_implies
  | «until» a b iha ihb => exact hpair iha ihb fun _ => readsPair_until
  | release a b iha ihb => exact hpair iha ihb fun _ => readsPair_release

/-- A formula that no binary connective follows. -/
theorem takes_temporal (t : Temporal) {k : TokenKind}
    (hk : k ∉ [.keyword .until, .keyword .release, .keyword .and, .keyword .or, .keyword .implies]) :
    temporal.Takes (t.tokens ++ k :: l) (k :: l) fun u => u.bare = t.bare := by
  refine takes_get.bind fun r hr => ?_
  have hlength := congrArg List.length hr
  simp only [Reader.kinds, length_map, length_append, length_cons] at hlength
  obtain ⟨n, hn⟩ : ∃ n, 8 * (r.ahead.length + 1) = n + 4 := ⟨8 * r.ahead.length + 4, by omega⟩
  rw [hn]
  exact takes_implication_of_unary (takes_unary t n (by omega) _) hk

end Formulae

/-! ### Declarations -/

section Declarations

variable {l : List TokenKind}

theorem takes_propertyDecl (d : PropertyDecl) :
    propertyDecl.Takes (d.tokens ++ l) l fun e => e.bare = d.bare := by
  have htokens : d.tokens ++ l = .keyword .property :: d.name.token :: .symbol .leftBrace ::
      (d.formula.tokens ++ .symbol .rightBrace :: l) := by
    simp [PropertyDecl.tokens]
  rw [htokens]
  refine takes_here.bind fun _ _ => Takes.expect ?_ (by simp)
  refine (takes_ident d.name).bind fun x hx => Takes.expect ?_ (by simp)
  refine (takes_temporal d.formula (by simp)).bind fun t ht => Takes.expect ?_ (by simp)
  refine (takes_spanFrom _).bind fun _ _ => takes_pure ?_
  rw [PropertyDecl.bare, hx, ht, PropertyDecl.bare]

theorem takes_shape (s : Shape) : shape.Takes (s.tokens ++ l) l fun t => t.bare = s.bare := by
  cases s with
  | null => exact Takes.peekKind (Takes.advance (takes_pure rfl) (by simp))
  | list n | cycle n =>
    refine Takes.peekKind (Takes.advance ((takes_integer n).bind fun i hi => takes_pure ?_) (by simp))
    rw [hi]
  | «alias» x =>
    refine Takes.peekKind ((takes_ident x).bind fun y hy => takes_pure ?_)
    exact congrArg Shape.alias hy

theorem takes_binding (b : Binding) : binding.Takes (b.tokens ++ l) l fun c => c.bare = b.bare := by
  have htokens : b.tokens ++ l = b.var.token :: .symbol .assign ::
      (b.shape.tokens ++ .symbol .semicolon :: l) := by
    simp [Binding.tokens]
  rw [htokens]
  refine takes_here.bind fun _ _ => (takes_ident b.var).bind fun x hx => Takes.expect ?_ (by simp)
  refine (takes_shape b.shape).bind fun s hs => Takes.expect ?_ (by simp)
  refine (takes_spanFrom _).bind fun _ _ => takes_pure ?_
  rw [Binding.bare, hx, hs, Binding.bare]

theorem takes_bindingsIn (bindings : List Binding) {steps : Nat} (hsteps : bindings.length < steps) :
    (bindingsIn steps).Takes (bindings.flatMap Binding.tokens ++ .symbol .rightBrace :: l) l fun bs =>
      bs.map Binding.bare = bindings.map Binding.bare := by
  obtain ⟨steps, rfl⟩ := Nat.exists_eq_add_one_of_ne_zero (Nat.ne_of_gt (Nat.zero_lt_of_lt hsteps))
  induction bindings generalizing steps with
  | nil => exact Takes.accept (takes_pure rfl) (by simp)
  | cons b bindings ih =>
    obtain ⟨steps, rfl⟩ := Nat.exists_eq_add_one_of_ne_zero (n := steps) (by
      rw [length_cons] at hsteps
      omega)
    rw [flatMap_cons, append_assoc]
    refine Takes.decline ?_ (by simp [Ident.token])
    refine (takes_binding b).bind fun c hc => ?_
    refine (ih steps (Nat.lt_of_succ_lt_succ hsteps)).bind fun bs hbs => takes_pure ?_
    rw [map_cons, map_cons, hc, hbs]

theorem takes_initDecl (d : InitDecl) :
    initDecl.Takes (d.tokens ++ l) l fun e => e.bare = d.bare := by
  have htokens : d.tokens ++ l = .keyword .init :: d.method.token :: .symbol .leftBrace ::
      (d.bindings.flatMap Binding.tokens ++ .symbol .rightBrace :: l) := by
    simp [InitDecl.tokens]
  rw [htokens]
  refine takes_here.bind fun _ _ => Takes.expect ?_ (by simp)
  refine (takes_ident d.method).bind fun x hx => Takes.expect ?_ (by simp)
  refine takes_get.bind fun r hr => ?_
  have hsteps : d.bindings.length < r.ahead.length := by
    have hbindings := length_le_length_flatMap (f := Binding.tokens) (by simp [Binding.tokens]) d.bindings
    have hlength := congrArg List.length hr
    simp only [Reader.kinds, length_map, length_append, length_cons] at hlength
    omega
  refine (takes_bindingsIn d.bindings hsteps).bind fun bs hbs => ?_
  refine (takes_spanFrom _).bind fun _ _ => takes_pure ?_
  rw [InitDecl.bare, hx, hbs, InitDecl.bare]

theorem takes_decl (d : Decl) : decl.Takes (d.tokens ++ l) l fun e => e.bare = d.bare := by
  cases d with
  | method d =>
    refine Takes.peekKind ((takes_methodDecl d).bind fun e he => takes_pure ?_)
    exact congrArg Decl.method he
  | property d =>
    refine Takes.peekKind ((takes_propertyDecl d).bind fun e he => takes_pure ?_)
    exact congrArg Decl.property he
  | init d =>
    refine Takes.peekKind ((takes_initDecl d).bind fun e he => takes_pure ?_)
    exact congrArg Decl.init he

theorem exists_decl_tokens_eq (d : Decl) : ∃ k m, d.tokens = k :: m ∧ k ≠ .eof := by
  cases d <;> exact ⟨_, _, rfl, by simp⟩

theorem takes_declsIn (decls : List Decl) {steps : Nat} (hsteps : decls.length ≤ steps) :
    (declsIn steps).Takes (decls.flatMap Decl.tokens ++ [.eof]) [.eof] fun ds =>
      ds.map Decl.bare = decls.map Decl.bare := by
  induction decls generalizing steps with
  | nil =>
    cases steps with
    | zero => exact takes_pure rfl
    | succ steps =>
      refine Takes.peekKind ?_
      rw [if_pos rfl]
      exact takes_pure rfl
  | cons d decls ih =>
    cases steps with
    | zero => cases hsteps
    | succ steps =>
      obtain ⟨k, m, hkm, hk⟩ := exists_decl_tokens_eq d
      rw [flatMap_cons, append_assoc, hkm, cons_append]
      refine Takes.peekKind ?_
      rw [if_neg hk, ← cons_append, ← hkm]
      refine (takes_decl d).bind fun e he => ?_
      refine (ih (Nat.le_of_succ_le_succ hsteps)).bind fun ds hds => takes_pure ?_
      rw [map_cons, map_cons, he, hds]

/-- A program is read back from its tokens. -/
theorem takes_program (p : Program) :
    program.Takes (p.tokens ++ [.eof]) [.eof] fun q => q.bare = p.bare := by
  refine takes_here.bind fun _ _ => takes_get.bind fun r hr => ?_
  have hsteps : p.decls.length ≤ r.ahead.length := by
    have hdecls := length_le_length_flatMap (f := Decl.tokens) (fun d => by
      obtain ⟨k, m, hkm, -⟩ := exists_decl_tokens_eq d
      simp [hkm]) p.decls
    have hlength := congrArg List.length hr
    simp only [Reader.kinds, Program.tokens, length_map, length_append, length_cons]
      at hlength
    omega
  refine (takes_declsIn p.decls hsteps).bind fun ds hds => ?_
  refine (takes_spanFrom _).bind fun _ _ => takes_pure ?_
  rw [Program.bare, hds, Program.bare]

end Declarations

end Parser

end ShapeCheck.Source
