import ShapeCheck.Proofs.Consumption
import ShapeCheck.Proofs.Lexeme

/-!
# Rendering and parsing

A program that can be written is read back from every text that writes its tokens, with other places
but otherwise the same. Conversely, a text that is read as a program without properties consists of
just the tokens that the program is rendered as, apart from comments and white space. So nothing in it
is skipped, reordered or made up. No text with an error of the scanner is read as a program at all.
-/

namespace ShapeCheck.Source

open List

variable {src : String} {q : Program}

theorem kinds_ofText_of_spells {ks : List TokenKind} (h : Spells ks src.toList) :
    (Reader.ofText src).kinds = ks ++ [.eof] := by
  have hscan : (scan src).map Token.kind = ks ++ [.eof] := h.map_kind_scanFrom {}
  have hall : (scan src).filter (!·.kind.isTrivia) = scan src := by
    refine filter_eq_self.2 fun t ht => ?_
    have hkind : t.kind ∈ ks ++ [.eof] := hscan ▸ mem_map_of_mem ht
    rcases mem_append.1 hkind with hk | hk
    · have hwritable := h.isWritable _ hk
      cases hkind : t.kind with
      | comment _ => rw [hkind] at hwritable; exact hwritable.elim
      | _ => rfl
    · rw [mem_singleton.1 hk]
      rfl
  rw [Reader.kinds, Reader.ofText, hall, hscan]

theorem exists_kinds_ofText (src : String) :
    ∃ ks, (Reader.ofText src).kinds = ks ++ [.eof] ∧ .eof ∉ ks := by
  obtain ⟨inner, hscan, hinner⟩ := (cut_scan src).exists_eof
  refine ⟨(inner.filter (!·.kind.isTrivia)).map Token.kind, ?_, fun hmem => ?_⟩
  · rw [Reader.kinds, Reader.ofText, hscan, filter_append, map_append]
    rfl
  · obtain ⟨t, ht, hkind⟩ := mem_map.1 hmem
    exact hinner t (mem_filter.1 ht).1 hkind

theorem parse_of_spells {p : Program} (h : Spells p.tokens src.toList) :
    ∃ q, parse src = .ok q ∧ q.bare = p.bare := by
  obtain ⟨q, r, hrun, -, hq⟩ := Parser.takes_program p _ (kinds_ofText_of_spells h)
  refine ⟨q, ?_, hq⟩
  rw [parse, parseWith, hrun]
  rfl

theorem exists_run_of_parseWith {α : Type} {p : Parser α} {a : α} (h : parseWith p src = .ok a) :
    ∃ r, p.run (.ofText src) = .ok (a, r) := by
  rw [parseWith] at h
  cases hrun : p.run (.ofText src) with
  | error e => rw [hrun] at h; cases h
  | ok x =>
    rw [hrun] at h
    obtain rfl := Except.ok.inj h
    exact ⟨x.2, rfl⟩

/-- What is left of a text is its end alone, if it starts with the end and the tokens before can be
written. -/
theorem eq_eof_of_append {ks ls rest : List TokenKind} (happend : ks ++ rest = ls ++ [.eof])
    (hks : ∀ k ∈ ks, k.IsWritable) (hls : .eof ∉ ls) (hrest : rest.headD .eof = .eof) :
    rest = [.eof] := by
  rcases append_eq_append_iff.1 happend with ⟨ms, hms, hrest'⟩ | ⟨ms, hms, hend⟩
  · -- The end stands in `rest`, behind tokens `ms` of the text proper: there are none.
    cases ms with
    | nil => exact hrest'
    | cons k ms =>
      rw [hrest'] at hrest
      obtain rfl : k = .eof := hrest
      exact (hls (hms ▸ by simp)).elim
  · cases ms with
    | nil => exact hend.symm
    | cons k ms =>
      obtain rfl : .eof = k := (List.cons.inj hend).1
      exact (hks .eof (hms ▸ by simp)).elim

/-- A text that is read as a program consists of tokens that can be written. They are the tokens of the
program, if it has no properties. -/
theorem kinds_of_parse (h : parse src = .ok q) :
    q.IsWritable ∧ ∃ ks, (Reader.ofText src).kinds = ks ++ [.eof] ∧ (∀ k ∈ ks, k.IsWritable) ∧
      ((∀ d ∈ q.decls, ∀ e, d ≠ .property e) → ks = q.tokens) := by
  obtain ⟨r, hrun⟩ := exists_run_of_parseWith h
  obtain ⟨start, s₁, hhere, hrun⟩ := Parser.exists_of_run_bind hrun
  cases hhere
  obtain ⟨s₂, s₃, hget, hrun⟩ := Parser.exists_of_run_bind hrun
  cases hget
  obtain ⟨decls, s, hdecls, hrun⟩ := Parser.exists_of_run_bind hrun
  cases hrun
  have hscanned := isScanned_ofText src
  obtain ⟨ks, hks, hwritable, hall, htokens⟩ := Parser.consumes_declsIn _ _ _ _ hscanned hdecls
  obtain ⟨ls, hls, heof⟩ := exists_kinds_ofText src
  have hend := Parser.headD_of_declsIn hscanned (length_map _).le hdecls
  have hrest := eq_eof_of_append (hks.symm.trans hls) hwritable heof hend
  exact ⟨hall, ks, hrest ▸ hks, hwritable, htokens⟩

theorem ne_bad_of_parse (h : parse src = .ok q) {t : Token} (ht : t ∈ scan src) (e : ScanError) :
    t.kind ≠ .bad e := by
  obtain ⟨-, ks, hks, hwritable, -⟩ := kinds_of_parse h
  intro hbad
  have hmem : TokenKind.bad e ∈ (Reader.ofText src).kinds :=
    mem_map.2 ⟨t, mem_filter.2 ⟨ht, by rw [hbad]; rfl⟩, hbad⟩
  rw [hks, mem_append, mem_singleton] at hmem
  rcases hmem with hmem | hmem
  · exact hwritable _ hmem
  · cases hmem

theorem Program.ne_property_of_properties {p : Program} (h : p.properties = []) :
    ∀ d ∈ p.decls, ∀ e, d ≠ .property e := by
  rintro _ hd e rfl
  have hmem : e ∈ p.properties := mem_filterMap.2 ⟨_, hd, rfl⟩
  rw [h] at hmem
  cases hmem

/-- A text that is read as a program without properties has the tokens of the program's rendering. -/
theorem kinds_eq_of_parse (h : parse src = .ok q) (hproperties : q.properties = []) :
    ((scan src).filter (!·.kind.isTrivia)).map Token.kind = (scan q.rendering).map Token.kind := by
  obtain ⟨hwritable, ks, hks, -, htokens⟩ := kinds_of_parse h
  have hrendering : (scan q.rendering).map Token.kind = q.tokens ++ [.eof] :=
    (Program.spells_rendering hwritable).map_kind_scanFrom {}
  rw [hrendering, ← htokens (Program.ne_property_of_properties hproperties)]
  exact hks

/-- **Rendering and parsing fit together.** A program that can be written is read back, up to places,
from its rendering and from every other text with its tokens, and the text of a statement is such a
text. Conversely, a program that was read can be written, its text has no error of the scanner, and
without properties the text has the tokens of the rendering, apart from comments. -/
theorem parse_exact :
    (∀ p : Program, p.IsWritable → ∃ q, parse p.rendering = .ok q ∧ q.bare = p.bare) ∧
    (∀ (p : Program) (src : String), Spells p.tokens src.toList →
      ∃ q, parse src = .ok q ∧ q.bare = p.bare) ∧
    (∀ kind : StmtKind, (∀ k ∈ kind.tokens, k.IsWritable) → Spells kind.tokens kind.text.toList) ∧
    ∀ (src : String) (q : Program), parse src = .ok q →
      q.IsWritable ∧ (∀ t ∈ scan src, ∀ e, t.kind ≠ .bad e) ∧
      (q.properties = [] →
        ((scan src).filter (!·.kind.isTrivia)).map Token.kind =
          (scan q.rendering).map Token.kind) := by
  refine ⟨fun p hp => ?_, fun p src hsrc => ?_, fun kind hkind => ?_, fun src q hq => ?_⟩
  · exact parse_of_spells (Program.spells_rendering hp)
  · exact parse_of_spells hsrc
  · exact StmtKind.spells_text hkind
  · exact ⟨(kinds_of_parse hq).1, fun t ht e => ne_bad_of_parse hq ht e, kinds_eq_of_parse hq⟩

/-- A method with a label, a call, a field named by a keyword, an end label and a comment. -/
theorem parse_exact_labels :
    ∃ q, parse "method m(x)\x7bl:y=m(null);y.if=x;if y!=null goto l;goto e;e:\x7d//" =
        .ok q ∧ q.properties = [] ∧ q.IsWritable ∧
      (∃ q', parse q.rendering = .ok q' ∧ q'.bare = q.bare) ∧
      ((scan "method m(x)\x7bl:y=m(null);y.if=x;if y!=null goto l;goto e;e:\x7d//").filter
        (!·.kind.isTrivia)).map Token.kind = (scan q.rendering).map Token.kind := by
  have hparse : (parse
      "method m(x)\x7bl:y=m(null);y.if=x;if y!=null goto l;goto e;e:\x7d//").map
        (·.properties) = .ok [] := by
    decide +kernel
  cases hq : parse
      "method m(x)\x7bl:y=m(null);y.if=x;if y!=null goto l;goto e;e:\x7d//" with
  | error e => rw [hq] at hparse; cases hparse
  | ok q =>
    rw [hq] at hparse
    have hproperties : q.properties = [] := Except.ok.inj hparse
    obtain ⟨hrendered, -, -, hread⟩ := parse_exact
    obtain ⟨hwritable, -, hkinds⟩ := hread _ q hq
    exact ⟨q, rfl, hproperties, hwritable, hrendered q hwritable, hkinds hproperties⟩

end ShapeCheck.Source
