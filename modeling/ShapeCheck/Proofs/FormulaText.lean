import ShapeCheck.Code.Proposition
import ShapeCheck.Proofs.Resolution
import ShapeCheck.Proofs.RoundTrip
import Mathlib.Data.List.Forall2

/-!
# Formulae as text

The written form of a temporal formula has brackets around every binary connective and around every
proposition, so it has the tokens of the formula and is read back as the same formula, whatever the
precedence of its connectives. Atoms of a formula are the written forms of its propositions. Read back
at a state, each of them is the proposition that it was made from, and so it holds where that does.
-/

namespace ShapeCheck

open List

namespace Source

/-- The text writes the tokens, in front of every text that ends a word. -/
def Writes (ks : List TokenKind) (text : String) : Prop :=
  ∀ ⦃ls : List TokenKind⦄ ⦃rest : List Char⦄, Spells ls rest → EndsWord rest →
    Spells (ks ++ ls) (text.toList ++ rest)

variable {ks : List TokenKind} {p : Proposition} {t : Temporal}

theorem Writes.spells {text : String} (h : Writes ks text) :
    Spells ks text.toList := by
  have hspells := h .empty endsWord_nil
  rwa [append_nil, append_nil] at hspells

theorem Proposition.writes_text (hp : p.IsWritable) : Writes p.tokens p.text := by
  intro ls rest hrest hend
  cases p with
  | compare lhs rhs equal =>
    simp only [Proposition.IsWritable, Proposition.tokens, forall_mem_cons] at hp
    obtain ⟨hlhs, -, hrhs, -⟩ := hp
    have hcompare := spells_comparison equal (spells_value hrhs hrest hend).blank
    have hspells := Spells.ident (x := lhs) hlhs hcompare.blank endsWord_blank
    simpa [Proposition.tokens, Proposition.text] using hspells
  | reach source target =>
    simp only [Proposition.IsWritable, Proposition.tokens, forall_mem_cons] at hp
    obtain ⟨-, -, hsource, -, htarget, -⟩ := hp
    have hclose := Spells.symbol (s := .rightParen) (by simp) hrest
    have hcomma := Spells.symbol (s := .comma) (by simp)
      (spells_value htarget hclose (endsWord_symbol _)).blank
    have hopen := Spells.symbol (s := .leftParen) (by simp)
      (Spells.ident (x := source) hsource hcomma (endsWord_symbol _))
    have hspells := Spells.keyword .reach hopen (endsWord_symbol _)
    simpa [Proposition.tokens, Proposition.text, Symbol.text, Keyword.text] using hspells
  | terminated => exact Spells.keyword .terminated hrest hend

theorem Writes.unary {a : String} (w : Keyword) (ha : Writes ks a) :
    Writes (.keyword w :: ks) (w.text ++ " " ++ a) := by
  intro ls rest hrest hend
  have hspells := Spells.keyword w (ha hrest hend).blank endsWord_blank
  simpa using hspells

theorem Writes.binary {ms : List TokenKind} {a b : String} (w : Keyword) (ha : Writes ks a)
    (hb : Writes ms b) :
    Writes (binaryTokens w ks ms) ("(" ++ a ++ (" " ++ w.text ++ " ") ++ b ++ ")") := by
  intro ls rest hrest _
  have hclose := Spells.symbol (s := .rightParen) (by simp) hrest
  have hright := Spells.keyword w (hb hclose (endsWord_symbol _)).blank endsWord_blank
  have hspells := Spells.symbol (s := .leftParen) (by simp) (ha hright.blank endsWord_blank)
  simpa [binaryTokens, Symbol.text] using hspells

theorem isWritable_of_binaryTokens {w : Keyword} {ms : List TokenKind}
    (h : ∀ k ∈ binaryTokens w ks ms, k.IsWritable) :
    (∀ k ∈ ks, k.IsWritable) ∧ ∀ k ∈ ms, k.IsWritable := by
  simp only [binaryTokens, forall_mem_cons, forall_mem_append] at h
  exact ⟨h.2.1, h.2.2.2.1⟩

theorem Temporal.writes_text (ht : t.IsWritable) :
    Writes t.tokens (Code.temporal t).text := by
  induction t with
  | const value =>
    cases value with
    | true => exact fun ls rest hrest hend => Spells.keyword .true hrest hend
    | false => exact fun ls rest hrest hend => Spells.keyword .false hrest hend
  | atom p span =>
    intro ls rest hrest _
    simp only [Temporal.IsWritable, Temporal.tokens, forall_mem_cons,
      forall_mem_append] at ht
    have hclose := Spells.symbol (s := .rightBracket) (by simp) hrest
    have hspells := Spells.symbol (s := .leftBracket) (by simp)
      (Proposition.writes_text ht.2.1 hclose (endsWord_symbol _))
    simpa [Temporal.tokens, Code.temporal, Ltl.text, Symbol.text] using hspells
  | not a ih => exact .unary .not (ih (forall_mem_cons.1 ht).2)
  | next a ih => exact .unary .next (ih (forall_mem_cons.1 ht).2)
  | always a ih => exact .unary .always (ih (forall_mem_cons.1 ht).2)
  | eventually a ih => exact .unary .eventually (ih (forall_mem_cons.1 ht).2)
  | and a b iha ihb =>
    obtain ⟨ha, hb⟩ := isWritable_of_binaryTokens ht
    exact .binary .and (iha ha) (ihb hb)
  | or a b iha ihb =>
    obtain ⟨ha, hb⟩ := isWritable_of_binaryTokens ht
    exact .binary .or (iha ha) (ihb hb)
  | implies a b iha ihb =>
    obtain ⟨ha, hb⟩ := isWritable_of_binaryTokens ht
    exact .binary .implies (iha ha) (ihb hb)
  | «until» a b iha ihb =>
    obtain ⟨ha, hb⟩ := isWritable_of_binaryTokens ht
    exact .binary .until (iha ha) (ihb hb)
  | release a b iha ihb =>
    obtain ⟨ha, hb⟩ := isWritable_of_binaryTokens ht
    exact .binary .release (iha ha) (ihb hb)

theorem Temporal.temporal_bare (t : Temporal) : Code.temporal t.bare = Code.temporal t := by
  induction t with
  | const value => cases value <;> rfl
  | atom p span => rfl
  | not a ih | next a ih | always a ih | eventually a ih =>
    simp only [Temporal.bare, Code.temporal, ih]
  | and a b iha ihb | or a b iha ihb | implies a b iha ihb | «until» a b iha ihb
  | release a b iha ihb => simp only [Temporal.bare, Code.temporal, iha, ihb]

/-- The formula was read from a text, by itself or as a property of a program. -/
def Temporal.IsParsed (t : Temporal) : Prop :=
  ∃ src, parseWith Parser.temporal src = .ok t ∨
    ∃ p, parse src = .ok p ∧ ∃ d ∈ p.properties, d.formula = t

theorem PropertyDecl.isWritable_formula {p : Program} (hp : p.IsWritable) {d : PropertyDecl}
    (hd : d ∈ p.properties) : d.formula.IsWritable := by
  obtain ⟨decl, hdecl, heq⟩ := mem_filterMap.1 hd
  cases decl with
  | method _ => cases heq
  | init _ => cases heq
  | property e =>
    obtain rfl := Option.some.inj heq
    exact fun k hk => hp _ hdecl k (by simp [Decl.tokens, PropertyDecl.tokens, hk])

theorem Temporal.IsParsed.isWritable (ht : t.IsParsed) : t.IsWritable := by
  obtain ⟨src, hsrc | ⟨p, hp, d, hd, rfl⟩⟩ := ht
  · obtain ⟨r, hrun⟩ := exists_run_of_parseWith hsrc
    obtain ⟨-, -, -, hwritable⟩ := Parser.consumes_temporal _ _ _ (isScanned_ofText src) hrun
    exact hwritable
  · exact PropertyDecl.isWritable_formula (kinds_of_parse hp).1 hd

/-- **A formula is read back from its written form.** All of the text is read, and what is read has the
structure of the formula, so it means the same. -/
theorem temporal_text_parses_back (ht : t.IsParsed) :
    ∃ u r, Parser.temporal.run (.ofText (Code.temporal t).text) = .ok (u, r) ∧
      r.kinds = [.eof] ∧ parseWith Parser.temporal (Code.temporal t).text = .ok u ∧
      u.bare = t.bare ∧ Code.temporal u = Code.temporal t := by
  have hkinds := kinds_ofText_of_spells (Temporal.writes_text ht.isWritable).spells
  obtain ⟨u, r, hrun, hr, hu⟩ := Parser.takes_temporal t (by simp) _ hkinds
  refine ⟨u, r, hrun, hr, ?_, hu, ?_⟩
  · rw [parseWith, hrun]
    rfl
  · rw [← u.temporal_bare, hu, t.temporal_bare]

/-- Implication and until group to the right, and negation binds tighter. -/
theorem temporal_text_parses_back_nested :
    ∃ t : Temporal, t.IsParsed ∧ (Code.temporal t).text =
        "(not [x == null] implies ([x != y] until (always [reach(x, null)] until [terminated])))" ∧
      ∃ u r, Parser.temporal.run (.ofText (Code.temporal t).text) = .ok (u, r) ∧
        r.kinds = [.eof] ∧ parseWith Parser.temporal (Code.temporal t).text = .ok u ∧
        u.bare = t.bare ∧ Code.temporal u = Code.temporal t := by
  have hparse : (parseWith Parser.temporal
      "not [x==null] implies [x!=y] until always [reach(x,null)] until [terminated]").toOption.map
      (fun t => (Code.temporal t).text) = some
        "(not [x == null] implies ([x != y] until (always [reach(x, null)] until [terminated])))" := by
    decide +kernel
  obtain ⟨t, ht, htext⟩ := Option.map_eq_some_iff.1 hparse
  have hparsed : t.IsParsed := ⟨_, .inl (Code.eq_ok_of_toOption ht)⟩
  exact ⟨t, hparsed, htext, temporal_text_parses_back hparsed⟩

theorem parseWith_text (hp : p.IsWritable) :
    parseWith Parser.proposition p.text = .ok p := by
  have hkinds := kinds_ofText_of_spells (Proposition.writes_text hp).spells
  obtain ⟨q, r, hrun, -, rfl⟩ := Parser.takes_proposition p _ hkinds
  rw [parseWith, hrun]
  rfl

theorem propositionLabels_text (hp : p.IsWritable) (s : State) :
    propositionLabels s p.text = p.holds s := by
  rw [propositionLabels, parseWith_text hp]

/-- The names in a proposition. -/
def Proposition.names : Proposition → List String
  | .compare lhs rhs _ => lhs :: rhs.toList
  | .reach source target => source :: target.toList
  | .terminated => []

theorem Proposition.isWritable_iff : p.IsWritable ↔ ∀ x ∈ p.names, IsName x := by
  cases p with
  | compare lhs rhs equal =>
    cases rhs <;> simp [Proposition.IsWritable, Proposition.tokens, Proposition.names, valueToken,
      TokenKind.IsWritable, comparisonToken]
  | reach source target =>
    cases target <;> simp [Proposition.IsWritable, Proposition.tokens, Proposition.names, valueToken,
      TokenKind.IsWritable]
  | terminated =>
    simp [Proposition.IsWritable, Proposition.tokens, Proposition.names, TokenKind.IsWritable]

/-- The propositions of a formula in order. -/
def Temporal.propositions : Temporal → List Proposition
  | .const _ => []
  | .atom p _ => [p]
  | .not a | .next a | .always a | .eventually a => a.propositions
  | .and a b | .or a b | .implies a b | .until a b | .release a b =>
    a.propositions ++ b.propositions

theorem Temporal.isWritable_propositions (ht : t.IsWritable) :
    ∀ p ∈ t.propositions, p.IsWritable := by
  induction t with
  | const value => exact forall_mem_nil _
  | atom p span =>
    refine forall_mem_singleton.2 fun k hk => ht k ?_
    simp [Temporal.tokens, hk]
  | not a ih | next a ih | always a ih | eventually a ih => exact ih (forall_mem_cons.1 ht).2
  | and a b iha ihb | or a b iha ihb | implies a b iha ihb | «until» a b iha ihb
  | release a b iha ihb =>
    obtain ⟨ha, hb⟩ := isWritable_of_binaryTokens ht
    exact forall_mem_append.2 ⟨iha ha, ihb hb⟩

end Source

/-- The atoms of a formula in order, negated or not. -/
def Formula.atoms : Formula → List String
  | .top | .bot => []
  | .atom p | .natom p => [p]
  | .next a => a.atoms
  | .and a b | .or a b | .until a b | .release a b => a.atoms ++ b.atoms

namespace Code

theorem atoms_nnf (t : Source.Temporal) (neg : Bool) :
    ((temporal t).nnf neg).atoms = t.propositions.map Source.Proposition.text := by
  induction t generalizing neg with
  | const value => cases value <;> cases neg <;> rfl
  | atom p span => cases neg <;> rfl
  | not a ih | next a ih | always a ih | eventually a ih => cases neg <;> exact ih _
  | and a b iha ihb | or a b iha ihb | implies a b iha ihb | «until» a b iha ihb
  | release a b iha ihb =>
    cases neg <;>
      simp only [temporal, Ltl.nnf, Formula.atoms, Source.Temporal.propositions, map_append,
        iha, ihb]

/-- **Atoms are read as the propositions that they were made from.** A proposition over names of the
scanner is read back from its text, so the text holds where the proposition does. The properties of a
compiled program are those of its text, and each of their atoms is read as the proposition that stands
there. -/
theorem atoms_are_propositions :
    (∀ p : Source.Proposition,
      (∀ x ∈ p.names, ∃ src, ∃ t ∈ Source.scan src, t.kind = .ident x) →
      Source.parseWith Source.Parser.proposition p.text = .ok p ∧
        ∀ s, propositionLabels s p.text = p.holds s) ∧
    ∀ (src : String) (P : Program), compile src = .ok P → ∃ p, Source.parse src = .ok p ∧
      List.Forall₂ (fun d q => q.name = d.name.name ∧
        q.formula.atoms.map (Source.parseWith Source.Parser.proposition) =
          d.formula.propositions.map .ok ∧
        ∀ s, q.formula.atoms.map (propositionLabels s) =
          d.formula.propositions.map (·.holds s)) p.properties P.properties := by
  constructor
  · intro p hp
    have hwritable : p.IsWritable :=
      Source.Proposition.isWritable_iff.2 fun x hx => Source.isName_iff_exists_scan.2 (hp x hx)
    exact ⟨Source.parseWith_text hwritable, Source.propositionLabels_text hwritable⟩
  · intro src P hP
    obtain ⟨p, hparse, hresolve⟩ := exists_resolve_of_compile hP
    refine ⟨p, hparse, ?_⟩
    rw [properties_of_resolve hresolve, forall₂_map_right_iff, forall₂_same]
    intro d hd
    have hwritable := Source.Temporal.isWritable_propositions
      (Source.PropertyDecl.isWritable_formula (Source.kinds_of_parse hparse).1 hd)
    have hatoms : (property d).formula.atoms = d.formula.propositions.map Source.Proposition.text :=
      atoms_nnf d.formula false
    refine ⟨rfl, ?_, fun s => ?_⟩
    · rw [hatoms, List.map_map]
      exact map_congr_left fun q hq => Source.parseWith_text (hwritable q hq)
    · rw [hatoms, List.map_map]
      exact map_congr_left fun q hq => Source.propositionLabels_text (hwritable q hq) s

/-- Words are not confined to one alphabet. -/
theorem atoms_are_propositions_umlaut :
    (∀ x ∈ (Source.Proposition.compare "größe" none false).names,
      ∃ src, ∃ t ∈ Source.scan src, t.kind = .ident x) ∧
    Source.parseWith Source.Parser.proposition "größe != null" = .ok (.compare "größe" none false) ∧
    ∃ P p, compile "property p\x7balways not [größe!=null]\x7d" = .ok P ∧
      Source.parse "property p\x7balways not [größe!=null]\x7d" = .ok p ∧
      List.Forall₂ (fun d q => q.name = d.name.name ∧
        q.formula.atoms.map (Source.parseWith Source.Parser.proposition) =
          d.formula.propositions.map .ok ∧
        ∀ s, q.formula.atoms.map (propositionLabels s) =
          d.formula.propositions.map (·.holds s)) p.properties P.properties := by
  have hname : Source.IsName "größe" := by decide +kernel
  have hnames : ∀ x ∈ (Source.Proposition.compare "größe" none false).names,
      ∃ src, ∃ t ∈ Source.scan src, t.kind = .ident x :=
    forall_mem_singleton.2 (Source.isName_iff_exists_scan.1 hname)
  have hcompile : (compile "property p\x7balways not [größe!=null]\x7d").toOption.isSome := by
    decide +kernel
  obtain ⟨P, hP⟩ := Option.isSome_iff_exists.1 hcompile
  have hP := eq_ok_of_toOption hP
  obtain ⟨p, hp, hall⟩ := atoms_are_propositions.2 _ P hP
  exact ⟨hnames, (atoms_are_propositions.1 _ hnames).1, P, p, hP, hp, hall⟩

end Code

end ShapeCheck
