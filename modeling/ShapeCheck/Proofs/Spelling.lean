import ShapeCheck.Source.Scan

/-!
# How tokens are written

A reserved word, a sign, a name or a number is read back from its own text, provided that the next
character cannot belong to it. White space never can. So a text that writes some tokens one after the
other, with white space wherever two of them would run together, is scanned into just these tokens.

Conversely, every token that takes part in the grammar has such a text: a name of the scanner is a word
that is not reserved, and a number fits in 32 bits.
-/

namespace ShapeCheck.Source

open Text List

/-- The code points of white space. -/
def blankCodes : List Nat :=
  [9, 10, 11, 12, 13, 32, 133, 160, 5760, 8192, 8193, 8194, 8195, 8196, 8197, 8198, 8199, 8200, 8201,
    8202, 8232, 8233, 8239, 8287, 12288]

section Classes

variable {c : Char}

theorem mem_blankCodes (hc : isBlank c) : c.toNat ∈ blankCodes := by
  simp only [isBlank, blankBounds, inTable, Bool.and_eq_true, Bool.or_eq_true, decide_eq_true_eq,
    Bool.false_eq_true, or_false] at hc
  simp only [blankCodes, mem_cons, not_mem_nil, or_false]
  omega

theorem isWordPart_eq_false_of_isBlank (hc : isBlank c) : isWordPart c = false := by
  have hcodes : ∀ n ∈ blankCodes, inTable alphabeticBounds n = false ∧ inTable numericBounds n = false ∧
      n ≠ '_'.toNat := by decide +kernel
  obtain ⟨halpha, hnum, hne⟩ := hcodes _ (mem_blankCodes hc)
  have hunder : c ≠ '_' := fun h => hne (h ▸ rfl)
  simp [isWordPart, isAlphabetic, isNumeric, halpha, hnum, hunder]

theorem isWordPart_of_isWordStart (hc : isWordStart c) : isWordPart c := by
  simp only [isWordStart, isWordPart, Bool.or_eq_true] at hc ⊢
  exact hc.imp_left .inl

theorem isBlank_eq_false_of_isWordStart (hc : isWordStart c) : isBlank c = false := by
  rw [Bool.eq_false_iff]
  intro hblank
  have hpart := isWordPart_of_isWordStart hc
  rw [isWordPart_eq_false_of_isBlank hblank] at hpart
  cases hpart

theorem isBlank_isWordStart_of_isDigit (hc : c.isDigit) : isBlank c = false ∧ isWordStart c = false := by
  have hcodes : ∀ n ∈ List.range' 48 10, inTable blankBounds n = false ∧
      inTable alphabeticBounds n = false ∧ n ≠ '_'.toNat := by decide +kernel
  have hmem : c.toNat ∈ List.range' 48 10 := by
    rw [Char.isDigit, Bool.and_eq_true, decide_eq_true_eq, decide_eq_true_eq] at hc
    have hlow : 48 ≤ c.toNat := UInt32.le_iff_toNat_le.1 hc.1
    have hhigh : c.toNat ≤ 57 := UInt32.le_iff_toNat_le.1 hc.2
    rw [mem_range'_1]
    omega
  obtain ⟨hblank, halpha, hne⟩ := hcodes _ hmem
  have hunder : c ≠ '_' := fun h => hne (h ▸ rfl)
  exact ⟨hblank, by simp [isWordStart, isAlphabetic, halpha, hunder]⟩

end Classes

/-- Whether some characters are a word. -/
def isWord (cs : List Char) : Bool :=
  cs.head?.any isWordStart && cs.all isWordPart

/-- A name: a word that is not reserved. -/
def IsName (x : String) : Prop :=
  isWord x.toList ∧ Keyword.ofText? x = none

instance (x : String) : Decidable (IsName x) :=
  inferInstanceAs (Decidable (_ ∧ _))

namespace TokenKind

/-- Whether a token is a part of the grammar: neither a comment nor an error nor the end. -/
def isGrammatical : TokenKind → Bool
  | keyword _ | symbol _ | ident _ | integer _ => true
  | comment _ | bad _ | eof => false

/-- A token that is read back from its text. -/
def IsWritable : TokenKind → Prop
  | keyword _ | symbol _ => True
  | ident x => IsName x
  | integer n => n < bound32
  | comment _ | bad _ | eof => False

instance : DecidablePred IsWritable
  | keyword _ | symbol _ => .isTrue trivial
  | ident x => inferInstanceAs (Decidable (IsName x))
  | integer n => inferInstanceAs (Decidable (n < bound32))
  | comment _ | bad _ | eof => .isFalse id

/-- Whether a character cannot belong to the token before it. -/
def endsBefore : TokenKind → Char → Bool
  | keyword _, c | ident _, c => !isWordPart c
  | integer _, c => !c.isDigit
  | symbol .assign, c => c ≠ '='
  | _, _ => true

theorem endsBefore_of_isBlank (k : TokenKind) {c : Char} (hc : isBlank c) : k.endsBefore c := by
  have hword := isWordPart_eq_false_of_isBlank hc
  unfold endsBefore
  split
  · simp [hword]
  · simp [hword]
  · rw [Bool.not_eq_true', Bool.eq_false_iff]
    intro hdigit
    rw [(isBlank_isWordStart_of_isDigit hdigit).1] at hc
    cases hc
  · rw [decide_eq_true_eq]
    rintro rfl
    revert hc
    decide +kernel
  · rfl

end TokenKind

section Reading

variable {c : Char} {ds rest : List Char}

theorem takeWhile_append_of_head {p : Char → Bool} (hds : ∀ d ∈ ds, p d)
    (hrest : ∀ d ∈ rest.head?, p d = false) : (ds ++ rest).takeWhile p = ds := by
  rw [takeWhile_append_of_pos hds]
  cases rest with
  | nil => exact append_nil ds
  | cons d rest => simp [hrest d rfl]

theorem readToken_word (hword : isWord (c :: ds)) (hrest : ∀ d ∈ rest.head?, isWordPart d = false) :
    readToken c (ds ++ rest) = (wordKind (c :: ds), ds.length) := by
  simp only [isWord, head?_cons, Option.any_some, all_cons, Bool.and_eq_true,
    all_eq_true] at hword
  obtain ⟨hstart, -, hds⟩ := hword
  have hslash : c ≠ '/' := by
    rintro rfl
    revert hstart
    decide +kernel
  have hdigit : c.isDigit = false := by
    rw [Bool.eq_false_iff]
    intro hdigit
    rw [(isBlank_isWordStart_of_isDigit hdigit).2] at hstart
    cases hstart
  simp [readToken, hslash, hdigit, hstart, takeWhile_append_of_head hds hrest]

theorem readToken_number (hc : c.isDigit) (hds : ∀ d ∈ ds, d.isDigit)
    (hrest : ∀ d ∈ rest.head?, d.isDigit = false) :
    readToken c (ds ++ rest) = (numberKind (c :: ds), ds.length) := by
  have hslash : c ≠ '/' := by
    rintro rfl
    cases hc
  simp [readToken, hslash, hc, takeWhile_append_of_head hds hrest]

theorem readToken_symbol (s : Symbol) (hs : s.text.toList = c :: ds)
    (hrest : ∀ d ∈ rest.head?, (TokenKind.symbol s).endsBefore d) :
    readToken c (ds ++ rest) = (.symbol s, ds.length) := by
  have hc : c ≠ '/' ∧ c.isDigit = false ∧ isWordStart c = false := by
    have hall : s.text.toList.head?.all
        fun d => d ≠ '/' ∧ d.isDigit = false ∧ isWordStart d = false := by
      cases s <;> decide +kernel
    rw [hs] at hall
    exact of_decide_eq_true hall
  have hsymbol : readSymbol c (ds ++ rest) = (.symbol s, ds.length) := by
    cases s with
    | assign =>
      have hchars : ['='] = c :: ds := hs
      obtain ⟨rfl, rfl⟩ := List.cons.inj hchars
      cases rest with
      | nil => rfl
      | cons d rest =>
        have hd : d ≠ '=' := of_decide_eq_true (hrest d rfl)
        simp [readSymbol, hd]
    | _ =>
      obtain ⟨rfl, rfl⟩ := List.cons.inj hs
      rfl
  simp [readToken, hc.1, hc.2.1, hc.2.2, hsymbol]

theorem isWord_text (k : Keyword) : isWord k.text.toList ∧ Keyword.ofText? k.text = some k := by
  cases k <;> decide +kernel

theorem numberKind_toDigits {n : Nat} (hn : n < bound32) :
    numberKind (Nat.toDigits 10 n) = .integer n := by
  have hvalue : decimalValue (Nat.toDigits 10 n) = n :=
    Nat.ofDigitChars_toDigits (by decide) (by decide)
  rw [numberKind]
  simp only [hvalue]
  exact if_pos hn

theorem readToken_text {k : TokenKind} (hk : k.IsWritable) (htext : k.text.toList = c :: ds)
    (hrest : ∀ d ∈ rest.head?, k.endsBefore d) : readToken c (ds ++ rest) = (k, ds.length) := by
  have hwordEnd (hends : ∀ d, k.endsBefore d = !isWordPart d) :
      ∀ d ∈ rest.head?, isWordPart d = false := fun d hd => by simpa [hends] using hrest d hd
  cases k with
  | keyword w =>
    obtain ⟨hword, hkey⟩ := isWord_text w
    have hchars : w.text.toList = c :: ds := htext
    rw [readToken_word (hchars ▸ hword) (hwordEnd fun _ => rfl), wordKind, ← hchars]
    simp [hkey]
  | symbol s => exact readToken_symbol s htext hrest
  | ident x =>
    have hchars : x.toList = c :: ds := htext
    rw [readToken_word (hchars ▸ hk.1) (hwordEnd fun _ => rfl), wordKind, ← hchars]
    simp [hk.2]
  | integer n =>
    have hchars : Nat.toDigits 10 n = c :: ds := by
      rwa [TokenKind.text, Nat.repr_eq_ofList_toDigits, String.toList_ofList] at htext
    have hdigits : ∀ d ∈ c :: ds, d.isDigit := fun d hd =>
      Nat.isDigit_of_mem_toDigits (by decide) (by decide) (hchars ▸ hd)
    obtain ⟨hc, hds⟩ := forall_mem_cons.1 hdigits
    rw [readToken_number hc hds fun d hd => by simpa [TokenKind.endsBefore] using hrest d hd, ← hchars,
      numberKind_toDigits hk]
  | comment _ | bad _ | eof => exact hk.elim

theorem exists_text_eq {k : TokenKind} (hk : k.IsWritable) :
    ∃ c ds, k.text.toList = c :: ds ∧ isBlank c = false := by
  have hword {cs : List Char} (hcs : isWord cs) : ∃ c ds, cs = c :: ds ∧ isBlank c = false := by
    cases cs with
    | nil => cases hcs
    | cons c ds =>
      rw [isWord, Bool.and_eq_true] at hcs
      exact ⟨c, ds, rfl, isBlank_eq_false_of_isWordStart hcs.1⟩
  cases k with
  | keyword w => exact hword (isWord_text w).1
  | symbol s =>
    have hhead : ∃ c ∈ s.text.toList.head?, isBlank c = false := by
      cases s <;> exact ⟨_, rfl, by decide +kernel⟩
    obtain ⟨c, hc, hblank⟩ := hhead
    obtain ⟨ds, hds⟩ := head?_eq_some_iff.1 hc
    exact ⟨c, ds, hds, hblank⟩
  | ident x => exact hword hk.1
  | integer n =>
    obtain ⟨c, ds, hchars⟩ := exists_cons_of_ne_nil (Nat.toDigits_ne_nil (b := 10) (n := n))
    refine ⟨c, ds, ?_, (isBlank_isWordStart_of_isDigit ?_).1⟩
    · rw [TokenKind.text, Nat.repr_eq_ofList_toDigits, String.toList_ofList, hchars]
    · exact Nat.isDigit_of_mem_toDigits (by decide) (by decide) (hchars ▸ mem_cons_self)
  | comment _ | bad _ | eof => exact hk.elim

end Reading

/-- A text writes some tokens: they stand in it one after the other, with white space in front of any
of them and at the end. Where a token follows another without white space, its first character does not
belong to the other. -/
inductive Spells : List TokenKind → List Char → Prop
  | nil {gap : List Char} (hgap : ∀ c ∈ gap, isBlank c) : Spells [] gap
  | cons {gap rest : List Char} {k : TokenKind} {ks : List TokenKind} (hgap : ∀ c ∈ gap, isBlank c)
    (hk : k.IsWritable) (hend : ∀ c ∈ rest.head?, k.endsBefore c) (hrest : Spells ks rest) :
    Spells (k :: ks) (gap ++ k.text.toList ++ rest)

/-- A word in front of the characters ends there. -/
def EndsWord (cs : List Char) : Prop :=
  ∀ c ∈ cs.head?, isWordPart c = false

theorem endsWord_nil : EndsWord [] :=
  fun _ hc => by cases hc

theorem endsWord_blank {cs : List Char} : EndsWord (' ' :: cs) := by
  intro c hc
  obtain rfl := Option.some.inj hc
  exact isWordPart_eq_false_of_isBlank (by decide)

theorem endsWord_symbol (s : Symbol) {cs : List Char} : EndsWord (s.text.toList ++ cs) := by
  have hall : s.text.toList.head?.all (isWordPart · = false) := by cases s <;> decide +kernel
  obtain ⟨d, ds, hds, -⟩ := exists_text_eq (k := .symbol s) trivial
  intro c hc
  rw [show s.text.toList = d :: ds from hds] at hall hc
  obtain rfl := Option.some.inj hc
  exact of_decide_eq_true hall

namespace Spells

variable {ks : List TokenKind} {k : TokenKind} {cs rest : List Char}

theorem empty : Spells [] [] :=
  nil (forall_mem_nil _)

theorem token (hk : k.IsWritable) (hend : ∀ c ∈ rest.head?, k.endsBefore c) (hrest : Spells ks rest) :
    Spells (k :: ks) (k.text.toList ++ rest) := by
  have hspells := cons (forall_mem_nil _) hk hend hrest
  rwa [nil_append] at hspells

theorem blank (h : Spells ks cs) : Spells ks (' ' :: cs) := by
  have hblank : isBlank ' ' := by decide
  cases h with
  | nil hgap => exact nil (forall_mem_cons.2 ⟨hblank, hgap⟩)
  | cons hgap hk hend hrest => exact cons (forall_mem_cons.2 ⟨hblank, hgap⟩) hk hend hrest

theorem isWritable (h : Spells ks cs) : ∀ k ∈ ks, k.IsWritable := by
  induction h with
  | nil => exact forall_mem_nil _
  | cons _ hk _ _ ih => exact forall_mem_cons.2 ⟨hk, ih⟩

theorem keyword (w : Keyword) (hrest : Spells ks rest) (hend : EndsWord rest) :
    Spells (.keyword w :: ks) (w.text.toList ++ rest) :=
  token trivial (fun c hc => by simp [TokenKind.endsBefore, hend c hc]) hrest

theorem ident {x : String} (hx : IsName x) (hrest : Spells ks rest) (hend : EndsWord rest) :
    Spells (.ident x :: ks) (x.toList ++ rest) :=
  token (k := .ident x) hx (fun c hc => by simp [TokenKind.endsBefore, hend c hc]) hrest

theorem symbol {s : Symbol} (hs : s ≠ .assign) (hrest : Spells ks rest) :
    Spells (.symbol s :: ks) (s.text.toList ++ rest) := by
  refine token (k := .symbol s) trivial (fun c _ => ?_) hrest
  cases s with
  | assign => exact absurd rfl hs
  | _ => rfl

theorem assign (hrest : Spells ks rest) : Spells (.symbol .assign :: ks) ('=' :: ' ' :: rest) :=
  token (k := .symbol .assign) trivial (fun c hc => by
    obtain rfl := Option.some.inj hc
    rfl) hrest.blank

/-- A text is scanned into the tokens that it writes. -/
theorem map_kind_scanFrom (h : Spells ks cs) (p : Place) :
    (scanFrom p cs).map Token.kind = ks ++ [.eof] := by
  induction h generalizing p with
  | @nil gap hgap =>
    have hdrop : gap.dropWhile isBlank = [] := by
      rw [← append_nil gap, dropWhile_append_of_pos hgap, dropWhile_nil]
    rw [scanFrom]
    split
    · rfl
    · next hcons =>
      rw [hdrop] at hcons
      cases hcons
  | @cons gap rest k ks hgap hk hend hrest ih =>
    obtain ⟨c, ds, htext, hblank⟩ := exists_text_eq hk
    have hdrop : (gap ++ k.text.toList ++ rest).dropWhile isBlank = c :: (ds ++ rest) := by
      rw [append_assoc, dropWhile_append_of_pos hgap, htext, cons_append,
        dropWhile_cons_of_neg (by simp [hblank])]
    rw [scanFrom]
    split
    · next hnil =>
      rw [hdrop] at hnil
      cases hnil
    · next c' rest' hcons =>
      rw [hdrop] at hcons
      obtain ⟨rfl, rfl⟩ := List.cons.inj hcons
      rw [readToken_text hk htext hend]
      simp [ih]

end Spells

theorem isWritable_readToken (c : Char) (cs : List Char) :
    (readToken c cs).1.isGrammatical → (readToken c cs).1.IsWritable := by
  rw [readToken]
  split
  · intro hk
    cases hk
  split
  · dsimp only [numberKind]
    split
    · exact fun _ => by assumption
    · intro hk
      cases hk
  split
  · next hstart =>
    intro _
    dsimp only [wordKind]
    split
    · trivial
    · next hnone =>
      refine ⟨?_, hnone⟩
      rw [String.toList_ofList, isWord, Bool.and_eq_true, all_cons, Bool.and_eq_true]
      exact ⟨hstart, isWordPart_of_isWordStart hstart, all_takeWhile⟩
  · unfold readSymbol
    split
    case h_15 | h_16 =>
      intro hk
      cases hk
    all_goals exact fun _ => trivial

theorem isWritable_of_mem_scanFrom (p : Place) (cs : List Char) :
    ∀ t ∈ scanFrom p cs, t.kind.isGrammatical → t.kind.IsWritable := by
  fun_induction scanFrom p cs with
  | case1 p =>
    intro t ht hk
    obtain rfl := mem_singleton.1 ht
    cases hk
  | case2 p cs q c rest _ kind n hread r ih =>
    refine forall_mem_cons.2 ⟨fun hk => ?_, ih⟩
    have hwritable := isWritable_readToken c rest
    rw [hread] at hwritable
    exact hwritable hk

/-- The names are those that the scanner produces. -/
theorem isName_iff_exists_scan {x : String} : IsName x ↔ ∃ src, ∃ t ∈ scan src, t.kind = .ident x := by
  constructor
  · intro hx
    have hspells : Spells [.ident x] x.toList := by
      have hspells := Spells.token (k := .ident x) hx (fun _ hc => by cases hc) .empty
      rwa [append_nil] at hspells
    have hmem : .ident x ∈ (scan x).map Token.kind := by
      rw [scan, hspells.map_kind_scanFrom]
      exact mem_cons_self
    exact ⟨x, mem_map.1 hmem⟩
  · rintro ⟨src, t, ht, hkind⟩
    have hwritable := isWritable_of_mem_scanFrom {} src.toList t ht
    rw [hkind] at hwritable
    exact hwritable rfl

end ShapeCheck.Source
