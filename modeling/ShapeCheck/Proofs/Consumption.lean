import ShapeCheck.Proofs.Reading

/-!
# What parsers consume

Every parser of the grammar consumes the tokens that its result is rendered as, neither more nor fewer,
and none of them is an error. A formula is the exception: brackets that are not needed leave no trace
in it. But its names are those of the tokens, so that it can be written as well.
-/

namespace ShapeCheck.Source

open List

/-- The tokens ahead that are parts of the grammar can be written. -/
def Reader.IsScanned (r : Reader) : Prop :=
  ∀ k ∈ r.kinds, k.isGrammatical → k.IsWritable

theorem isScanned_ofText (src : String) : (Reader.ofText src).IsScanned := by
  intro k hk
  obtain ⟨t, ht, rfl⟩ := mem_map.1 hk
  exact isWritable_of_mem_scanFrom {} src.toList t (mem_filter.1 ht).1

theorem Reader.IsScanned.of_append {r r' : Reader} {ks : List TokenKind} (hr : r.IsScanned)
    (hks : r.kinds = ks ++ r'.kinds) : r'.IsScanned :=
  fun k hk => hr k (hks ▸ mem_append_right ks hk)

namespace Parser

variable {α β : Type}

/-- If the parser gives a result, then it has consumed tokens as `R` says, and all of them can be
written. -/
def Consumes (p : Parser α) (R : α → List TokenKind → Prop) : Prop :=
  ∀ r a r', r.IsScanned → p.run r = .ok (a, r') →
    ∃ ks, r.kinds = ks ++ r'.kinds ∧ (∀ k ∈ ks, k.IsWritable) ∧ R a ks

/-- If the next token is `k` and the parser gives a result, then it has consumed tokens as `R` says. -/
def ConsumesFrom (p : Parser α) (k : TokenKind) (R : α → List TokenKind → Prop) : Prop :=
  ∀ r a r', r.IsScanned → r.kinds.headD .eof = k → p.run r = .ok (a, r') →
    ∃ ks, r.kinds = ks ++ r'.kinds ∧ (∀ k ∈ ks, k.IsWritable) ∧ R a ks

section Rules

variable {p : Parser α} {f : α → Parser β} {k : TokenKind} {Q R : α → List TokenKind → Prop}
  {S : β → List TokenKind → Prop}

theorem exists_of_run_bind {r r' : Reader} {b : β} (h : (p >>= f).run r = .ok (b, r')) :
    ∃ a s, p.run r = .ok (a, s) ∧ (f a).run s = .ok (b, r') := by
  rw [StateT.run_bind] at h
  cases hrun : p.run r with
  | error e => rw [hrun] at h; cases h
  | ok x =>
    rw [hrun] at h
    exact ⟨x.1, x.2, rfl, h⟩

theorem consumes_pure {a : α} (ha : R a []) : (pure a : Parser α).Consumes R := by
  intro r b r' _ heq
  cases heq
  exact ⟨[], rfl, forall_mem_nil _, ha⟩

theorem Consumes.bind (hp : p.Consumes Q)
    (hf : ∀ a ks, (∀ k ∈ ks, k.IsWritable) → Q a ks → (f a).Consumes fun b ls => S b (ks ++ ls)) :
    (p >>= f).Consumes S := by
  intro r b r' hr heq
  obtain ⟨a, s, hrun, heq⟩ := exists_of_run_bind heq
  obtain ⟨ks, hks, hwritable, ha⟩ := hp r a s hr hrun
  obtain ⟨ls, hls, hwritable', hb⟩ := hf a ks hwritable ha s b r' (hr.of_append hks) heq
  refine ⟨ks ++ ls, ?_, forall_mem_append.2 ⟨hwritable, hwritable'⟩, hb⟩
  rw [hks, hls, append_assoc]

theorem Consumes.imp (hp : p.Consumes Q)
    (hQ : ∀ a ks, (∀ k ∈ ks, k.IsWritable) → Q a ks → R a ks) : p.Consumes R := by
  intro r a r' hr heq
  obtain ⟨ks, hks, hwritable, ha⟩ := hp r a r' hr heq
  exact ⟨ks, hks, hwritable, hQ a ks hwritable ha⟩

theorem Consumes.weaken (hp : p.Consumes R) : p.ConsumesFrom k R :=
  fun r a r' hr _ heq => hp r a r' hr heq

theorem Consumes.after (hf : ∀ a, (f a).Consumes S) (hp : p.Consumes fun _ ks => ks = []) :
    (p >>= f).Consumes S :=
  hp.bind fun a ks _ hks => by rw [hks]; exact hf a

theorem consumes_get : (get : Parser Reader).Consumes fun _ ks => ks = [] := by
  intro r a r' _ heq
  cases heq
  exact ⟨[], rfl, forall_mem_nil _, rfl⟩

theorem consumes_peek : peek.Consumes fun _ ks => ks = [] :=
  .after (fun _ => consumes_pure rfl) consumes_get

theorem consumes_here : here.Consumes fun _ ks => ks = [] :=
  .after (fun _ => consumes_pure rfl) consumes_peek

theorem consumes_spanFrom (start : Span) : (spanFrom start).Consumes fun _ ks => ks = [] :=
  .after (fun _ => consumes_pure rfl) consumes_get

theorem consumes_throw (e : ParseError) : (throw e : Parser α).Consumes R := by
  intro r a r' _ heq
  cases heq

theorem consumes_unexpected (expected : String) : (unexpected expected : Parser α).Consumes R := by
  refine .after (fun t => ?_) consumes_peek
  split <;> exact consumes_throw _

theorem run_peekKind (r : Reader) : peekKind.run r = .ok (r.kinds.headD .eof, r) := by
  show Except.ok ((r.ahead.head?.getD ⟨.eof, {}⟩).kind, r) = _
  rw [Reader.kinds]
  cases r.ahead <;> rfl

theorem consumes_of_peek {f : Token → Parser β} (hf : ∀ t, (f t).ConsumesFrom t.kind S) :
    (peek >>= f).Consumes S := by
  intro r b r' hr heq
  have hkind := (Prod.mk.inj (Except.ok.inj (run_peekKind r))).1
  exact hf _ r b r' hr hkind.symm heq

theorem consumes_of_peekKind {f : TokenKind → Parser β} (hf : ∀ k, (f k).ConsumesFrom k S) :
    (peekKind >>= f).Consumes S := by
  have hpeek : (peek >>= fun t => f t.kind).Consumes S := consumes_of_peek fun t => hf t.kind
  exact hpeek

theorem ConsumesFrom.advance (hk : k.isGrammatical)
    (hp : k.IsWritable → p.Consumes fun a ks => R a (k :: ks)) :
    (Parser.advance >>= fun _ => p).ConsumesFrom k R := by
  intro r a r' hr hhead heq
  cases hahead : r.ahead with
  | nil =>
    rw [Reader.kinds, hahead] at hhead
    rw [← hhead] at hk
    cases hk
  | cons t rest =>
    have hkinds : r.kinds = k :: rest.map Token.kind := by
      rw [Reader.kinds, hahead] at hhead ⊢
      rw [map_cons, ← hhead]
      rfl
    have hne : t.kind ≠ .eof := by
      intro ht
      rw [Reader.kinds, hahead, map_cons, ht] at hhead
      rw [← hhead] at hk
      cases hk
    obtain ⟨_, s, hrun, heq⟩ := exists_of_run_bind heq
    have hs : s = ⟨t.span, rest⟩ := by
      cases hrun
      simp [hahead, hne]
    subst hs
    have hwritable : k.IsWritable := hr k (by rw [hkinds]; exact mem_cons_self) hk
    have hscanned : Reader.IsScanned ⟨t.span, rest⟩ :=
      hr.of_append (show r.kinds = [k] ++ Reader.kinds ⟨t.span, rest⟩ from hkinds)
    obtain ⟨ks, hks, hall, ha⟩ := hp hwritable _ a r' hscanned heq
    refine ⟨k :: ks, ?_, forall_mem_cons.2 ⟨hwritable, hall⟩, ha⟩
    rw [hkinds, cons_append, ← hks]
    rfl

theorem Consumes.accept {q : Parser α} (hk : k.isGrammatical)
    (hp : p.Consumes fun a ks => R a (k :: ks)) (hq : q.Consumes R) :
    (Parser.accept k >>= fun b => if b = true then p else q).Consumes R := by
  have haccept : (Parser.accept k).Consumes fun b ks => ks = if b then [k] else [] := by
    refine consumes_of_peekKind fun k' => ?_
    split
    · next heq =>
      subst heq
      exact .advance hk fun _ => consumes_pure rfl
    · exact Consumes.weaken (consumes_pure rfl)
  refine haccept.bind fun b ks _ hks => ?_
  cases b with
  | true =>
    rw [hks]
    exact hp
  | false =>
    rw [hks]
    exact hq

theorem Consumes.expect (hk : k.isGrammatical) (hp : p.Consumes fun a ks => R a (k :: ks)) :
    (Parser.expect k >>= fun _ => p).Consumes R := by
  have hexpect : (Parser.expect k).Consumes fun _ ks => ks = [k] :=
    .accept hk (consumes_pure rfl) (consumes_unexpected _)
  refine hexpect.bind fun _ ks _ hks => ?_
  rw [hks]
  exact hp

end Rules

theorem consumes_ident : ident.Consumes fun x ks => ks = [x.token] := by
  refine consumes_of_peek fun t => ?_
  split
  · next name hname =>
    rw [hname]
    exact .advance rfl fun _ => consumes_pure rfl
  · exact Consumes.weaken (consumes_unexpected _)

theorem consumes_selector : selector.Consumes fun x ks => ks = [x.selectorToken] := by
  refine consumes_of_peek fun t => ?_
  split
  · next k hk =>
    rw [hk]
    refine .advance rfl fun _ => consumes_pure ?_
    simp [Ident.selectorToken, wordKind, (isWord_text k).2]
  · refine Consumes.weaken (consumes_ident.imp fun x ks hwritable hks => ?_)
    subst hks
    have hname : IsName x.name := hwritable _ mem_cons_self
    simp [Ident.selectorToken, Ident.token, wordKind, hname.2]

theorem consumes_operand : operand.Consumes fun a ks => ks = [a.token] :=
  .accept rfl (consumes_pure rfl) (consumes_ident.bind fun _ _ _ hks => consumes_pure (by
    rw [hks]
    rfl))

theorem consumes_integer : integer.Consumes fun n ks => ks = [.integer n] := by
  refine consumes_of_peekKind fun k => ?_
  split
  · exact .advance rfl fun _ => consumes_pure rfl
  · exact Consumes.weaken (consumes_unexpected _)

theorem consumes_commaList {item : Parser α} {token : α → TokenKind}
    (hitem : item.Consumes fun a ks => ks = [token a]) (steps : Nat) :
    (commaList item steps).Consumes fun as ks =>
      as ≠ [] ∧ ks = (as.map token).intersperse (.symbol .comma) := by
  induction steps with
  | zero => exact consumes_unexpected _
  | succ steps ih =>
    refine hitem.bind fun a ks _ hks => .accept rfl ?_ (consumes_pure ⟨cons_ne_nil _ _, ?_⟩)
    · refine ih.bind fun as ls _ hls => consumes_pure ⟨cons_ne_nil _ _, ?_⟩
      obtain ⟨b, bs, rfl⟩ := exists_cons_of_ne_nil hls.1
      rw [hks, hls.2]
      simp
    · rw [hks]
      rfl

theorem consumes_bracketed {item : Parser α} {token : α → TokenKind}
    (hitem : item.Consumes fun a ks => ks = [token a]) :
    (bracketed item).Consumes fun as ks => ks = bracketTokens (as.map token) := by
  have hclose {as : List α} {ks : List TokenKind}
      (hks : ks = (as.map token).intersperse (.symbol .comma)) :
      (expectSymbol .rightParen >>= fun _ => pure as : Parser (List α)).Consumes fun as ls =>
        .symbol .leftParen :: (ks ++ ls) = bracketTokens (as.map token) :=
    .expect rfl (consumes_pure (by rw [hks]; rfl))
  refine .expect rfl (consumes_of_peekKind fun k => ?_)
  split
  · exact (hclose rfl).weaken
  · refine Consumes.weaken (.after (fun r => ?_) consumes_get)
    exact (consumes_commaList hitem _).bind fun as ks _ hks => hclose hks.2

theorem consumes_comparison : comparison.Consumes fun equal ks => ks = [comparisonToken equal] := by
  refine consumes_of_peekKind fun k => ?_
  split
  · exact .advance rfl fun _ => consumes_pure rfl
  · exact .advance rfl fun _ => consumes_pure rfl
  · exact Consumes.weaken (consumes_unexpected _)

theorem consumes_callOf (method : Ident) : (callOf method).Consumes fun c ks =>
    c.tokens = method.token :: ks :=
  (consumes_bracketed consumes_operand).bind fun _ _ _ hks => .after (fun _ => consumes_pure (by
    rw [hks, append_nil]
    rfl)) (consumes_spanFrom _)

theorem consumes_rhs : rhs.Consumes fun value ks => ks = value.tokens := by
  refine consumes_of_peekKind fun k => ?_
  split
  · exact .advance rfl fun _ => consumes_pure rfl
  · exact .advance rfl fun _ => consumes_pure rfl
  · refine Consumes.weaken (consumes_ident.bind fun x ks _ hks => consumes_of_peekKind fun k => ?_)
    rw [hks]
    split
    · refine .advance rfl fun _ => consumes_selector.bind fun sel ls _ hls => consumes_pure ?_
      rw [hls]
      rfl
    · exact Consumes.weaken ((consumes_callOf x).bind fun c ls _ hls => consumes_pure (by
        rw [append_nil]
        exact hls.symm))
    · exact Consumes.weaken (consumes_pure rfl)
  · exact Consumes.weaken (consumes_unexpected _)

theorem consumes_condition : condition.Consumes fun cond ks => ks = cond.tokens := by
  refine .accept rfl (consumes_pure rfl) ?_
  refine consumes_ident.bind fun lhs ks _ hks => consumes_comparison.bind fun equal ls _ hls =>
    consumes_operand.bind fun rhs ms _ hms => consumes_pure ?_
  rw [hks, hls, hms]
  rfl

theorem consumes_identStmt : identStmt.Consumes fun kind ks => ks = kind.tokens := by
  refine consumes_ident.bind fun x ks _ hks => consumes_of_peekKind fun k => ?_
  rw [hks]
  split
  · exact Consumes.weaken ((consumes_callOf x).bind fun c ls _ hls => consumes_pure (by
      rw [append_nil]
      exact hls.symm))
  · refine .advance rfl fun _ => consumes_selector.bind fun sel ls _ hls => .expect rfl
      (consumes_operand.bind fun value ms _ hms => consumes_pure ?_)
    rw [hls, hms]
    rfl
  · refine .advance rfl fun _ => consumes_rhs.bind fun value ls _ hls => consumes_pure ?_
    rw [hls, append_nil]
    rfl
  · exact Consumes.weaken (consumes_unexpected _)

theorem consumes_stmtKind : stmtKind.Consumes fun kind ks => ks = kind.tokens := by
  refine consumes_of_peekKind fun k => ?_
  split
  · refine .advance rfl fun _ => consumes_condition.bind fun cond ks _ hks => .expect rfl
      (consumes_ident.bind fun target ls _ hls => consumes_pure ?_)
    rw [hks, hls]
    rfl
  · refine .advance rfl fun _ => consumes_ident.bind fun target ks _ hks => consumes_pure ?_
    rw [hks]
    rfl
  · refine .advance rfl fun _ => consumes_of_peekKind fun k => ?_
    split
    · exact Consumes.weaken (consumes_pure rfl)
    · refine Consumes.weaken (consumes_ident.bind fun x ks _ hks => consumes_pure ?_)
      rw [hks]
      rfl
  · exact .advance rfl fun _ => consumes_pure rfl
  · exact consumes_identStmt.weaken
  · exact Consumes.weaken (consumes_unexpected _)

theorem consumes_stmt (labels : List Ident) : (stmt labels).Consumes fun s ks =>
    labelTokens labels ++ ks = s.tokens := by
  refine .after (fun start => consumes_stmtKind.bind fun kind ks _ hks => .expect rfl
    (.after (fun span => consumes_pure ?_) (consumes_spanFrom _))) consumes_here
  rw [hks, Stmt.tokens, append_assoc]

theorem consumes_labelsIn (steps : Nat) :
    (labelsIn steps).Consumes fun names ks => ks = labelTokens names := by
  induction steps with
  | zero => exact consumes_pure rfl
  | succ steps ih =>
    refine .after (fun r => ?_) consumes_get
    split
    · refine consumes_ident.bind fun x ks _ hks => .expect rfl (ih.bind fun names ls _ hls =>
        consumes_pure ?_)
      rw [hks, hls, append_nil]
      rfl
    · exact consumes_pure rfl

theorem consumes_bodyIn (steps : Nat) : (bodyIn steps).Consumes fun b ks =>
    ks = b.1.flatMap Stmt.tokens ++ labelTokens b.2 ++ [.symbol .rightBrace] := by
  induction steps with
  | zero => exact consumes_unexpected _
  | succ steps ih =>
    have hlabels : labels.Consumes fun names ks => ks = labelTokens names :=
      .after (fun r => consumes_labelsIn _) consumes_get
    refine hlabels.bind fun names ks _ hks => .accept rfl (consumes_pure ?_) ?_
    · rw [hks]
      rfl
    · refine (consumes_stmt names).bind fun s ls _ hls => ih.bind fun b ms _ hms => consumes_pure ?_
      rw [hks, append_nil, ← append_assoc, hls, hms, flatMap_cons, append_assoc,
        append_assoc, append_assoc]

theorem consumes_methodDecl : methodDecl.Consumes fun d ks => ks = d.tokens := by
  refine .after (fun start => .expect rfl ?_) consumes_here
  refine consumes_ident.bind fun name ks _ hks => (consumes_bracketed consumes_ident).bind
    fun params ls _ hls => .expect rfl (.after (fun r => ?_) consumes_get)
  refine (consumes_bodyIn _).bind fun b ms _ hms => .after (fun span => consumes_pure ?_)
    (consumes_spanFrom _)
  rw [hks, hls, hms, append_nil]
  rfl

theorem consumes_proposition : proposition.Consumes fun p ks => ks = p.tokens := by
  refine consumes_of_peekKind fun k => ?_
  split
  · exact .advance rfl fun _ => consumes_pure rfl
  · refine .advance rfl fun _ => .expect rfl (consumes_ident.bind fun source ks _ hks => .expect rfl
      (consumes_operand.bind fun target ls _ hls => .expect rfl (consumes_pure ?_)))
    rw [hks, hls]
    rfl
  · refine Consumes.weaken (consumes_ident.bind fun lhs ks _ hks => consumes_comparison.bind
      fun equal ls _ hls => consumes_operand.bind fun rhs ms _ hms => consumes_pure ?_)
    rw [hks, hls, hms]
    rfl
  · exact Consumes.weaken (consumes_unexpected _)

theorem consumes_atom : atom.Consumes fun t _ => t.IsWritable := by
  refine .after (fun start => .expect rfl (consumes_proposition.bind fun p ks hwritable hks =>
    .expect rfl (.after (fun span => consumes_pure ?_) (consumes_spanFrom _)))) consumes_here
  refine forall_mem_cons.2 ⟨trivial, forall_mem_append.2 ⟨hks ▸ hwritable, ?_⟩⟩
  exact forall_mem_singleton.2 trivial

section Writable

variable {a b : Temporal}

theorem isWritable_binaryTokens {k : Keyword} (ha : a.IsWritable) (hb : b.IsWritable) :
    ∀ k' ∈ binaryTokens k a.tokens b.tokens, k'.IsWritable := by
  refine forall_mem_cons.2 ⟨trivial, forall_mem_append.2 ⟨ha, ?_⟩⟩
  refine forall_mem_cons.2 ⟨trivial, forall_mem_append.2 ⟨hb, ?_⟩⟩
  exact forall_mem_singleton.2 trivial

theorem exists_keyword_of_unary? {k : TokenKind} {op : Temporal → Temporal} (hk : unary? k = some op) :
    ∃ word, k = .keyword word ∧ ∀ a, (op a).tokens = k :: a.tokens := by
  unfold unary? at hk
  split at hk <;> cases hk <;> exact ⟨_, rfl, fun _ => rfl⟩

end Writable

theorem consumes_formula (steps : Nat) :
    ((implication steps).Consumes fun t _ => t.IsWritable) ∧
      ((disjunction steps).Consumes fun t _ => t.IsWritable) ∧
      (∀ a, a.IsWritable → (disjunctionFrom steps a).Consumes fun t _ => t.IsWritable) ∧
      ((conjunction steps).Consumes fun t _ => t.IsWritable) ∧
      (∀ a, a.IsWritable → (conjunctionFrom steps a).Consumes fun t _ => t.IsWritable) ∧
      ((binary steps).Consumes fun t _ => t.IsWritable) ∧
      ((unary steps).Consumes fun t _ => t.IsWritable) ∧
      ((primary steps).Consumes fun t _ => t.IsWritable) := by
  induction steps with
  | zero =>
    exact ⟨consumes_unexpected _, consumes_unexpected _, fun _ _ => consumes_unexpected _,
      consumes_unexpected _, fun _ _ => consumes_unexpected _, consumes_unexpected _,
      consumes_unexpected _, consumes_unexpected _⟩
  | succ steps ih =>
    obtain ⟨himp, hdis, hdisFrom, hcon, hconFrom, hbin, hun, hprim⟩ := ih
    refine ⟨?_, ?_, fun a ha => ?_, ?_, fun a ha => ?_, ?_, ?_, ?_⟩
    · rw [implication]
      exact hdis.bind fun a _ _ ha => .accept rfl (himp.bind fun b _ _ hb =>
        consumes_pure (isWritable_binaryTokens ha hb)) (consumes_pure ha)
    · rw [disjunction]
      exact hcon.bind fun a _ _ ha => hdisFrom a ha
    · rw [disjunctionFrom]
      exact .accept rfl (hcon.bind fun b _ _ hb => hdisFrom _ (isWritable_binaryTokens ha hb))
        (consumes_pure ha)
    · rw [conjunction]
      exact hbin.bind fun a _ _ ha => hconFrom a ha
    · rw [conjunctionFrom]
      exact .accept rfl (hbin.bind fun b _ _ hb => hconFrom _ (isWritable_binaryTokens ha hb))
        (consumes_pure ha)
    · rw [binary]
      exact hun.bind fun a _ _ ha => .accept rfl
        (hbin.bind fun b _ _ hb => consumes_pure (isWritable_binaryTokens ha hb))
        (.accept rfl (hbin.bind fun b _ _ hb => consumes_pure (isWritable_binaryTokens ha hb))
          (consumes_pure ha))
    · rw [unary]
      refine consumes_of_peekKind fun k => ?_
      split
      · next op hop =>
        obtain ⟨word, rfl, htokens⟩ := exists_keyword_of_unary? hop
        refine .advance rfl fun _ => hun.bind fun a _ _ ha => consumes_pure ?_
        rw [Temporal.IsWritable, htokens]
        exact forall_mem_cons.2 ⟨trivial, ha⟩
      · exact hprim.weaken
    · rw [primary]
      refine consumes_of_peekKind fun k => ?_
      split
      · exact .advance rfl fun _ => consumes_pure (forall_mem_singleton.2 trivial)
      · exact .advance rfl fun _ => consumes_pure (forall_mem_singleton.2 trivial)
      · exact .advance rfl fun _ => himp.bind fun a _ _ ha => .expect rfl (consumes_pure ha)
      · exact consumes_atom.weaken
      · exact Consumes.weaken (consumes_unexpected _)

theorem consumes_temporal : temporal.Consumes fun t _ => t.IsWritable :=
  .after (fun _ => (consumes_formula _).1) consumes_get

theorem consumes_propertyDecl : propertyDecl.Consumes fun d ks =>
    ks ≠ [] ∧ ∀ k ∈ d.tokens, k.IsWritable := by
  refine .after (fun start => .expect rfl ?_) consumes_here
  refine consumes_ident.bind fun name ks hname hks => .expect rfl ?_
  refine consumes_temporal.bind fun t ls _ ht => .expect rfl (.after (fun span => consumes_pure ?_)
    (consumes_spanFrom _))
  refine ⟨cons_ne_nil _ _, forall_mem_cons.2 ⟨trivial, forall_mem_cons.2 ⟨?_, ?_⟩⟩⟩
  · exact hname _ (hks ▸ mem_cons_self)
  · refine forall_mem_cons.2 ⟨trivial, forall_mem_append.2 ⟨ht, ?_⟩⟩
    exact forall_mem_singleton.2 trivial

theorem consumes_shape : shape.Consumes fun s ks => ks = s.tokens := by
  refine consumes_of_peekKind fun k => ?_
  split
  · exact .advance rfl fun _ => consumes_pure rfl
  · refine .advance rfl fun _ => consumes_integer.bind fun n ks _ hks => consumes_pure ?_
    rw [hks]
    rfl
  · refine .advance rfl fun _ => consumes_integer.bind fun n ks _ hks => consumes_pure ?_
    rw [hks]
    rfl
  · refine Consumes.weaken (consumes_ident.bind fun x ks _ hks => consumes_pure ?_)
    rw [hks]
    rfl
  · exact Consumes.weaken (consumes_unexpected _)

theorem consumes_binding : binding.Consumes fun b ks => ks = b.tokens := by
  refine .after (fun start => consumes_ident.bind fun x ks _ hks => .expect rfl
    (consumes_shape.bind fun s ls _ hls => .expect rfl (.after (fun span => consumes_pure ?_)
      (consumes_spanFrom _)))) consumes_here
  rw [hks, hls]
  rfl

theorem consumes_bindingsIn (steps : Nat) : (bindingsIn steps).Consumes fun bs ks =>
    ks = bs.flatMap Binding.tokens ++ [.symbol .rightBrace] := by
  induction steps with
  | zero => exact consumes_unexpected _
  | succ steps ih =>
    refine .accept rfl (consumes_pure rfl) ?_
    refine consumes_binding.bind fun b ks _ hks => ih.bind fun bs ls _ hls => consumes_pure ?_
    rw [hks, hls, append_nil, flatMap_cons, append_assoc]

theorem consumes_initDecl : initDecl.Consumes fun d ks => ks = d.tokens := by
  refine .after (fun start => .expect rfl ?_) consumes_here
  refine consumes_ident.bind fun name ks _ hks => .expect rfl (.after (fun r => ?_) consumes_get)
  refine (consumes_bindingsIn _).bind fun bs ls _ hls => .after (fun span => consumes_pure ?_)
    (consumes_spanFrom _)
  rw [hks, hls, append_nil]
  rfl

/-- A declaration consumes the tokens that it is rendered as, unless it is a property. -/
theorem consumes_decl : decl.Consumes fun d ks =>
    ks ≠ [] ∧ d.IsWritable ∧ ((∀ e, d ≠ .property e) → ks = d.tokens) := by
  refine consumes_of_peekKind fun k => ?_
  split
  · refine Consumes.weaken (consumes_methodDecl.bind fun d ks hwritable hks => consumes_pure ?_)
    subst hks
    rw [append_nil]
    exact ⟨cons_ne_nil _ _, hwritable, fun _ => rfl⟩
  · refine Consumes.weaken (consumes_propertyDecl.bind fun d ks _ hd => consumes_pure ?_)
    rw [append_nil]
    exact ⟨hd.1, hd.2, fun hne => absurd rfl (hne d)⟩
  · refine Consumes.weaken (consumes_initDecl.bind fun d ks hwritable hks => consumes_pure ?_)
    subst hks
    rw [append_nil]
    exact ⟨cons_ne_nil _ _, hwritable, fun _ => rfl⟩
  · exact Consumes.weaken (consumes_unexpected _)

theorem consumes_declsIn (steps : Nat) : (declsIn steps).Consumes fun ds ks =>
    (∀ d ∈ ds, d.IsWritable) ∧ ((∀ d ∈ ds, ∀ e, d ≠ .property e) → ks = ds.flatMap Decl.tokens) := by
  induction steps with
  | zero => exact consumes_pure ⟨forall_mem_nil _, fun _ => rfl⟩
  | succ steps ih =>
    refine consumes_of_peekKind fun k => ?_
    split
    · exact Consumes.weaken (consumes_pure ⟨forall_mem_nil _, fun _ => rfl⟩)
    · refine Consumes.weaken (consumes_decl.bind fun d ks _ hd => ih.bind fun ds ls _ hds =>
        consumes_pure ⟨forall_mem_cons.2 ⟨hd.2.1, hds.1⟩, fun hne => ?_⟩)
      obtain ⟨hne, hnes⟩ := forall_mem_cons.1 hne
      rw [hd.2.2 hne, hds.2 hnes, append_nil, flatMap_cons]

/-- Declarations are read up to the end of the text, if there is a step for every token. -/
theorem headD_of_declsIn {steps : Nat} {r r' : Reader} {ds : List Decl} (hr : r.IsScanned)
    (hsteps : r.kinds.length ≤ steps) (hrun : (declsIn steps).run r = .ok (ds, r')) :
    r'.kinds.headD .eof = .eof := by
  induction steps generalizing r ds with
  | zero =>
    cases hrun
    rw [eq_nil_of_length_eq_zero (Nat.le_zero.1 hsteps)]
    rfl
  | succ steps ih =>
    obtain ⟨k, s, hpeek, hrun⟩ := exists_of_run_bind hrun
    obtain ⟨rfl, rfl⟩ := Prod.mk.inj (Except.ok.inj ((run_peekKind r).symm.trans hpeek))
    split at hrun
    · next heof =>
      cases hrun
      exact heof
    · obtain ⟨d, t, hdecl, hrun⟩ := exists_of_run_bind hrun
      obtain ⟨ds', u, hdecls, hrun⟩ := exists_of_run_bind hrun
      cases hrun
      obtain ⟨ks, hks, -, hne, -⟩ := consumes_decl r d t hr hdecl
      refine ih (hr.of_append hks) ?_ hdecls
      have hpos := length_pos_iff.2 hne
      rw [hks, length_append] at hsteps
      omega

end Parser

end ShapeCheck.Source
