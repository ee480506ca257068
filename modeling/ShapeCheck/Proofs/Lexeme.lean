import ShapeCheck.Source.Scan
import Mathlib.Data.List.DropRight

/-!
# Tokens and the text they stand for

A text is *cut* into tokens if it is a sequence of gaps of white space and non-empty lexemes in turn,
where each token has the place of its lexeme, and the last gap is followed by the token for the end.
Scanning cuts a text. What is known about the places of tokens then follows from the cutting alone,
without a look at the scanner: places are on the boundaries of characters, in order, and leave out
nothing but white space.

A place counts bytes, lines and columns at once, one character after the other. The place after some
characters is known from the characters as a whole: their size, their line breaks, and what follows the
last one of these.
-/

namespace ShapeCheck.Source

open Text List

namespace Place

/-- The place after some characters. -/
def after (cs : List Char) : Place :=
  ({} : Place).skip cs

variable {cs ds : List Char} {c : Char}

theorem skip_after : (after cs).skip ds = after (cs ++ ds) :=
  foldl_append.symm

theorem after_concat : after (cs ++ [c]) = (after cs).next c :=
  skip_after.symm

theorem offset_after : (after cs).offset = (String.ofList cs).utf8ByteSize := by
  induction cs using List.reverseRecOn with
  | nil => rfl
  | append_singleton cs c ih =>
    have hnext : ((after cs).next c).offset = (after cs).offset + c.utf8Size := by
      rw [next]
      split <;> rfl
    rw [after_concat, hnext, ih, String.ofList_append, String.utf8ByteSize_append, String.ofList_cons,
      String.ofList_nil, String.append_empty, String.utf8ByteSize_singleton]

theorem line_after : (after cs).line = 1 + cs.count '\n' := by
  induction cs using List.reverseRecOn with
  | nil => rfl
  | append_singleton cs c ih =>
    rw [after_concat, next, count_append, count_singleton]
    by_cases hc : c = '\n'
    · simp [hc, ih, Nat.add_assoc]
    · simp [hc, ih]

theorem column_after : (after cs).column = 1 + (cs.rtakeWhile (· ≠ '\n')).length := by
  induction cs using List.reverseRecOn with
  | nil => rfl
  | append_singleton cs c ih =>
    rw [after_concat, next, rtakeWhile_concat]
    by_cases hc : c = '\n'
    · simp [hc]
    · simp [hc, ih, Nat.add_assoc]

theorem offset_after_append :
    (after (cs ++ ds)).offset = (after cs).offset + (after ds).offset := by
  rw [offset_after, offset_after, offset_after, String.ofList_append, String.utf8ByteSize_append]

theorem offset_after_le_append : (after cs).offset ≤ (after (cs ++ ds)).offset := by
  rw [offset_after_append]
  exact Nat.le_add_right _ _

theorem offset_after_lt_append_cons : (after cs).offset < (after (cs ++ c :: ds)).offset := by
  have hpos := c.utf8Size_pos
  have hcons : (after (c :: ds)).offset = c.utf8Size + (String.ofList ds).utf8ByteSize := by
    rw [offset_after, String.ofList_cons, String.utf8ByteSize_append, String.utf8ByteSize_singleton]
  rw [offset_after_append, hcons]
  omega

end Place

/-- Whether a token is written as its name in messages says. -/
def TokenKind.isVerbatim : TokenKind → Bool
  | keyword _ | symbol _ | ident _ => true
  | _ => false

/-- What the characters of a token have to be. -/
structure TokenKind.Reads (kind : TokenKind) (lexeme : List Char) : Prop where
  ne_eof : kind ≠ .eof
  ne_nil : lexeme ≠ []
  text : kind.isVerbatim → kind.text = String.ofList lexeme

/-- A way to cut the characters after `past` into tokens. -/
inductive Cut : (past cs : List Char) → List Token → Prop
  | eof {past gap : List Char} (hgap : ∀ c ∈ gap, isBlank c) :
    Cut past gap [⟨.eof, (Place.after (past ++ gap)).spanTo (.after (past ++ gap))⟩]
  | token {past gap lexeme rest : List Char} {kind : TokenKind} {tokens : List Token}
    (hgap : ∀ c ∈ gap, isBlank c) (hread : kind.Reads lexeme)
    (hrest : Cut (past ++ gap ++ lexeme) rest tokens) :
    Cut past (gap ++ lexeme ++ rest)
      (⟨kind, (Place.after (past ++ gap)).spanTo (.after (past ++ gap ++ lexeme))⟩ :: tokens)

theorem TokenKind.reads_cons {kind : TokenKind} {c : Char} {cs : List Char} (hne : kind ≠ .eof)
    (hverbatim : kind.isVerbatim = false) : kind.Reads (c :: cs) :=
  ⟨hne, cons_ne_nil c cs, fun h => by simp [hverbatim] at h⟩

theorem wordKind_reads (c : Char) (cs : List Char) : (wordKind (c :: cs)).Reads (c :: cs) := by
  rw [wordKind]
  split
  · next k hk =>
    refine ⟨TokenKind.noConfusion, cons_ne_nil _ _, fun _ => ?_⟩
    rw [Keyword.ofText?] at hk
    have htext := find?_some hk
    exact of_decide_eq_true htext
  · exact ⟨TokenKind.noConfusion, cons_ne_nil _ _, fun _ => rfl⟩

theorem numberKind_reads (c : Char) (cs : List Char) : (numberKind (c :: cs)).Reads (c :: cs) := by
  rw [numberKind]
  split <;> exact TokenKind.reads_cons TokenKind.noConfusion rfl

theorem readSymbol_spec (c : Char) (cs : List Char) :
    (readSymbol c cs).1.Reads (c :: cs.take (readSymbol c cs).2) := by
  unfold readSymbol
  split
  -- the last two rules report an error, which has no text of its own
  case h_15 | h_16 => exact TokenKind.reads_cons TokenKind.noConfusion rfl
  all_goals exact ⟨TokenKind.noConfusion, cons_ne_nil _ _, fun _ => rfl⟩

theorem readToken_spec (c : Char) (cs : List Char) :
    (readToken c cs).1.Reads (c :: cs.take (readToken c cs).2) := by
  have htake (p : Char → Bool) : cs.take (cs.takeWhile p).length = cs.takeWhile p :=
    (prefix_iff_eq_take.1 (List.takeWhile_prefix p)).symm
  rw [readToken]
  split
  · exact TokenKind.reads_cons TokenKind.noConfusion rfl
  split
  · dsimp only
    rw [htake]
    exact numberKind_reads c _
  split
  · dsimp only
    rw [htake]
    exact wordKind_reads c _
  · exact readSymbol_spec c cs

theorem cut_scanFrom (p : Place) (cs : List Char) :
    ∀ past, p = .after past → Cut past cs (scanFrom p cs) := by
  fun_induction scanFrom p cs with
  | case1 p cs q hrest =>
    intro past hp
    have hblank := dropWhile_eq_nil_iff.1 hrest
    have hgap : cs.takeWhile isBlank = cs := takeWhile_eq_self_iff.2 hblank
    have hq : q = .after (past ++ cs) := by rw [← Place.skip_after, ← hp, ← hgap]
    rw [hq]
    exact .eof hblank
  | case2 p cs q c rest hrest kind n hread r ih =>
    intro past hp
    have hq : q = .after (past ++ cs.takeWhile isBlank) := by rw [← Place.skip_after, ← hp]
    have hr : r = .after (past ++ cs.takeWhile isBlank ++ (c :: rest.take n)) := by
      rw [← Place.skip_after, ← hq]
    have hlexeme := readToken_spec c rest
    rw [hread] at hlexeme
    have hcut : Cut past (cs.takeWhile isBlank ++ (c :: rest.take n) ++ rest.drop n) _ :=
      .token (fun _ => mem_takeWhile_imp) hlexeme (ih _ hr)
    rwa [← hq, ← hr, append_assoc, cons_append, take_append_drop, ← hrest,
      takeWhile_append_dropWhile] at hcut

namespace Cut

variable {past cs : List Char} {tokens : List Token} {t : Token}

variable (h : Cut past cs tokens)
include h

theorem exists_lexeme (ht : t ∈ tokens) : ∃ before lexeme rest : List Char,
    past ++ cs = before ++ lexeme ++ rest ∧
      t.span = (Place.after before).spanTo (.after (before ++ lexeme)) ∧
      (t.kind = .eof ∨ t.kind.Reads lexeme) := by
  induction h with
  | @eof past gap hgap =>
    obtain rfl := mem_singleton.1 ht
    exact ⟨past ++ gap, [], [], by simp, by simp, .inl rfl⟩
  | @token past gap lexeme rest kind tokens hgap hread hrest ih =>
    rcases mem_cons.1 ht with rfl | ht
    · exact ⟨past ++ gap, lexeme, rest, by simp, rfl, .inr hread⟩
    · obtain ⟨before, lexeme', rest', heq, hspan⟩ := ih ht
      exact ⟨before, lexeme', rest', by simpa using heq, hspan⟩

theorem offset_le_start (ht : t ∈ tokens) : (Place.after past).offset ≤ t.span.start := by
  induction h with
  | @eof past gap hgap =>
    obtain rfl := mem_singleton.1 ht
    exact Place.offset_after_le_append
  | @token past gap lexeme rest kind tokens hgap hread hrest ih =>
    rcases mem_cons.1 ht with rfl | ht
    · exact Place.offset_after_le_append
    · refine Nat.le_trans ?_ (ih ht)
      rw [append_assoc]
      exact Place.offset_after_le_append

theorem pairwise : tokens.Pairwise fun t u => t.span.stop ≤ u.span.start := by
  induction h with
  | eof => exact pairwise_singleton _ _
  | token hgap hread hrest ih => exact .cons (fun u hu => hrest.offset_le_start hu) ih

/-- The last token is the only one for the end, and it has the place after all characters. -/
theorem exists_eof : ∃ inner,
    tokens = inner ++ [⟨.eof, (Place.after (past ++ cs)).spanTo (.after (past ++ cs))⟩] ∧
      ∀ t ∈ inner, t.kind ≠ .eof := by
  induction h with
  | eof hgap => exact ⟨[], rfl, forall_mem_nil _⟩
  | @token past gap lexeme rest kind tokens hgap hread hrest ih =>
    obtain ⟨inner, heq, hinner⟩ := ih
    refine ⟨_ :: inner, congrArg (List.cons _) ?_, forall_mem_cons.2 ⟨hread.ne_eof, hinner⟩⟩
    rw [heq]
    simp

theorem length_le : tokens.length ≤ cs.length + 1 := by
  induction h with
  | eof => simp
  | token hgap hread hrest ih =>
    have hpos := length_pos_iff.2 hread.ne_nil
    simp only [length_cons, length_append]
    omega

theorem isBlank_or_exists {before after : List Char} {c : Char} (hcs : cs = before ++ c :: after) :
    isBlank c ∨ ∃ t ∈ tokens,
      t.span.start ≤ (Place.after (past ++ before)).offset ∧
      (Place.after (past ++ before)).offset < t.span.stop := by
  induction h generalizing before with
  | eof hgap => exact .inl (hgap c (by simp [hcs]))
  | @token past gap lexeme rest kind tokens hgap hread hrest ih =>
    have hbefore : before <+: gap ++ lexeme ++ rest := ⟨c :: after, hcs.symm⟩
    have hthrough : before ++ [c] <+: gap ++ lexeme ++ rest := ⟨after, by simp [hcs]⟩
    -- The character is in the gap, in the lexeme, or behind both.
    rcases Nat.lt_or_ge before.length gap.length with hlt | hge
    · obtain ⟨gap', hgap'⟩ : before ++ [c] <+: gap := by
        refine prefix_of_prefix_length_le hthrough ⟨lexeme ++ rest, by simp⟩ ?_
        rw [length_append]
        exact hlt
      exact .inl (hgap c (by simp [← hgap']))
    · obtain ⟨part, rfl⟩ : gap <+: before :=
        prefix_of_prefix_length_le ⟨lexeme ++ rest, by simp⟩ hbefore hge
      rw [append_assoc, append_assoc, append_cancel_left_eq] at hcs
      rcases Nat.lt_or_ge part.length lexeme.length with hlt | hge
      · obtain ⟨lexeme', rfl⟩ : part ++ [c] <+: lexeme := by
          refine prefix_of_prefix_length_le ⟨after, ?_⟩ ⟨rest, rfl⟩ ?_
          · rw [hcs]
            simp
          · rw [length_append]
            exact hlt
        refine .inr ⟨_, mem_cons_self, ?_, ?_⟩
        · have hle : (Place.after (past ++ gap)).offset ≤ (Place.after (past ++ gap ++ part)).offset :=
            Place.offset_after_le_append
          rwa [append_assoc] at hle
        · have hlt : (Place.after (past ++ (gap ++ part))).offset <
              (Place.after (past ++ (gap ++ part) ++ c :: lexeme')).offset :=
            Place.offset_after_lt_append_cons
          simpa [Place.spanTo] using hlt
      · obtain ⟨part, rfl⟩ : lexeme <+: part := by
          refine prefix_of_prefix_length_le ⟨rest, rfl⟩ ⟨c :: after, hcs.symm⟩ hge
        rw [append_assoc, append_cancel_left_eq] at hcs
        obtain hblank | ⟨t, ht, hcovers⟩ := ih hcs
        · exact .inl hblank
        · refine .inr ⟨t, mem_cons_of_mem _ ht, ?_⟩
          simpa using hcovers

end Cut

/-- A token has the place of a part of a text: of the lexeme between what is before and after it. -/
structure Token.StandsFor (src : String) (t : Token) (before lexeme after : String) : Prop where
  text : src = before ++ lexeme ++ after
  start : t.span.start = before.utf8ByteSize
  stop : t.span.stop = before.utf8ByteSize + lexeme.utf8ByteSize
  line : t.span.line = 1 + before.toList.count '\n'
  column : t.span.column = 1 + (before.toList.rtakeWhile (· ≠ '\n')).length

/-- A text has fewer than `n` lines, and none of them has `n` characters. -/
structure HasFewer (n : Nat) (src : String) : Prop where
  lines : 1 + src.toList.count '\n' < n
  columns : ∀ run, run <:+: src.toList → '\n' ∉ run → run.length < n

theorem HasFewer.place_lt {src before after : String} (h : HasFewer (bound32 - 1) src)
    (hsrc : src = before ++ after) :
    (Place.after before.toList).line < bound32 ∧ (Place.after before.toList).column < bound32 := by
  have hprefix : before.toList <+: src.toList := ⟨after.toList, by rw [hsrc, String.toList_append]⟩
  have hcount := hprefix.sublist.count_le '\n'
  have hlines := h.lines
  have hcolumns := h.columns (before.toList.rtakeWhile (· ≠ '\n'))
    ((rtakeWhile_suffix _ _).isInfix.trans hprefix.isInfix) fun hmem => by
      simpa using mem_rtakeWhile_imp hmem
  rw [Place.line_after, Place.column_after]
  omega

theorem cut_scan (src : String) : Cut [] src.toList (scan src) :=
  cut_scanFrom {} src.toList [] rfl

theorem Cut.exists_standsFor {src : String} {tokens : List Token} {t : Token}
    (h : Cut [] src.toList tokens) (ht : t ∈ tokens) : ∃ before lexeme after,
      t.StandsFor src before lexeme after ∧ (t.kind = .eof ∨ t.kind.Reads lexeme.toList) := by
  obtain ⟨before, lexeme, rest, hsrc, hspan, hkind⟩ := h.exists_lexeme ht
  refine ⟨.ofList before, .ofList lexeme, .ofList rest, ⟨?_, ?_, ?_, ?_, ?_⟩, ?_⟩
  · rw [← String.ofList_append, ← String.ofList_append, ← hsrc, nil_append,
      String.ofList_toList]
  · rw [hspan]
    exact Place.offset_after
  · rw [hspan, ← String.utf8ByteSize_append, ← String.ofList_append]
    exact Place.offset_after
  · rw [hspan, String.toList_ofList]
    exact Place.line_after
  · rw [hspan, String.toList_ofList]
    exact Place.column_after
  · rwa [String.toList_ofList]

/-- Scanning cuts a text into tokens. Each token has the place of a part of the text, which begins and
ends between two characters: the bytes before its beginning and its end, the line and the column. The
parts are in order and do not overlap, and only white space is left out. They are not empty, apart from
the one for the end of the text, which comes last and only there. A reserved word, a sign or a name is
written as it is called in messages. Lines and columns can be counted in 32 bits if there are fewer than
`2 ^ 32 - 1` of them. -/
theorem scan_exact (src : String) :
    (∀ t ∈ scan src, ∃ before lexeme after, t.StandsFor src before lexeme after ∧
      (t.kind ≠ .eof → lexeme ≠ "") ∧ (t.kind.isVerbatim → lexeme = t.kind.text)) ∧
    (scan src).Pairwise (fun t u => t.span.stop ≤ u.span.start) ∧
    (∃ tokens last, scan src = tokens ++ [last] ∧ (∀ t ∈ tokens, t.kind ≠ .eof) ∧ last.kind = .eof ∧
      last.span.start = src.utf8ByteSize ∧ last.span.stop = src.utf8ByteSize) ∧
    (∀ before c after, src = before ++ String.singleton c ++ after →
      (∀ t ∈ scan src, ¬ (t.span.start ≤ before.utf8ByteSize ∧ before.utf8ByteSize < t.span.stop)) →
      isBlank c) ∧
    (scan src).length ≤ src.toList.length + 1 ∧
    (HasFewer (bound32 - 1) src → ∀ before after, src = before ++ after →
      (Place.after before.toList).line < bound32 ∧ (Place.after before.toList).column < bound32) := by
  have hcut := cut_scan src
  refine ⟨fun t ht => ?_, hcut.pairwise, ?_, fun before c after hsrc hnone => ?_, hcut.length_le,
    fun hfewer before after => hfewer.place_lt⟩
  · obtain ⟨before, lexeme, after, hstands, hkind⟩ := hcut.exists_standsFor ht
    refine ⟨before, lexeme, after, hstands, fun hne hempty => ?_, fun hverbatim => ?_⟩
    · refine (hkind.resolve_left hne).ne_nil ?_
      rw [hempty]
      rfl
    · rcases hkind with heof | hread
      · rw [heof] at hverbatim
        cases hverbatim
      · rw [hread.text hverbatim, String.ofList_toList]
  · obtain ⟨tokens, heq, htokens⟩ := hcut.exists_eof
    have hsize : (Place.after ([] ++ src.toList)).offset = src.utf8ByteSize := by
      rw [nil_append, Place.offset_after, String.ofList_toList]
    exact ⟨tokens, _, heq, htokens, rfl, hsize, hsize⟩
  · have hlist : src.toList = before.toList ++ c :: after.toList := by
      rw [hsrc, String.toList_append, String.toList_append, String.toList_singleton,
        append_assoc, singleton_append]
    refine (hcut.isBlank_or_exists hlist).resolve_right ?_
    rintro ⟨t, ht, hcovers⟩
    rw [nil_append, Place.offset_after, String.ofList_toList] at hcovers
    exact hnone t ht hcovers

/-- A reserved word, a sign of two characters and a name of two bytes, on two lines. -/
theorem scan_exact_two_lines : HasFewer (bound32 - 1) "if\n == é" ∧
    scan "if\n == é" = [⟨.keyword .if, ⟨0, 2, 1, 1⟩⟩, ⟨.symbol .equal, ⟨4, 6, 2, 2⟩⟩,
      ⟨.ident "é", ⟨7, 9, 2, 5⟩⟩, ⟨.eof, ⟨9, 9, 2, 6⟩⟩] ∧
    (∀ t ∈ scan "if\n == é", ∃ before lexeme after, t.StandsFor "if\n == é" before lexeme after ∧
      (t.kind ≠ .eof → lexeme ≠ "") ∧ (t.kind.isVerbatim → lexeme = t.kind.text)) ∧
    ∀ before after, "if\n == é" = before ++ after →
      (Place.after before.toList).line < bound32 ∧ (Place.after before.toList).column < bound32 := by
  have hfewer : HasFewer (bound32 - 1) "if\n == é" :=
    ⟨by decide, fun run hrun _ => hrun.length_le.trans_lt (by decide)⟩
  obtain ⟨hplaces, -, -, -, -, hcounts⟩ := scan_exact "if\n == é"
  exact ⟨hfewer, by decide +kernel, hplaces, hcounts hfewer⟩

end ShapeCheck.Source
