import ShapeCheck.Command.Options
import ShapeCheck.Proofs.Names

/-!
# What the key of a cache tells apart

Contracts are kept under a key that is made of the program and of the settings that shape contracts. The
depth and the two switches can be read off the settings. The skipped methods are written as one text, in
order and with commas between them. From this text they can be read off as long as each of them is a
plain name: not empty and without a comma. All names of methods are plain. A name with a comma, which
no method has, is taken for several names.
-/

namespace ShapeCheck

open List

/-- A name that stays whole in a list written with commas. -/
def IsPlainName (name : String) : Prop :=
  name ≠ "" ∧ ',' ∉ name.toList

instance (name : String) : Decidable (IsPlainName name) :=
  inferInstanceAs (Decidable (_ ∧ _))

theorem Source.IsName.isPlainName {name : String} (h : IsName name) : IsPlainName name := by
  obtain ⟨hword, -⟩ := h
  rw [isWord, Bool.and_eq_true, all_eq_true] at hword
  refine ⟨?_, fun hcomma => ?_⟩
  · rintro rfl
    simp at hword
  · exact absurd (hword.2 ',' hcomma) (by decide +kernel)

theorem Code.isPlainName_of_compile {src : String} {P : Code.Program} {name : String}
    (hP : Code.compile src = .ok P) (hname : (P.method? name).isSome) : IsPlainName name := by
  obtain ⟨p, hparse, hresolve⟩ := exists_resolve_of_compile hP
  obtain ⟨m, hm⟩ := Option.isSome_iff_exists.1 hname
  obtain ⟨d, hd, rfl, -⟩ := translates_of_resolve hresolve hm
  have hwritable := (Source.kinds_of_parse hparse).1 _ (Source.mem_decls_of_mem_methods hd)
  have htoken : Source.TokenKind.IsWritable d.name.token :=
    hwritable _ (mem_cons_of_mem _ mem_cons_self)
  exact Source.IsName.isPlainName htoken

theorem repr_injective {m n : Nat} (h : m.repr = n.repr) : m = n := by
  rw [Nat.repr_eq_ofList_toDigits, Nat.repr_eq_ofList_toDigits, String.ofList_inj] at h
  rw [← Nat.ofDigitChars_toDigits (b := 10) (n := m) (by decide) (by decide), h,
    Nat.ofDigitChars_toDigits (by decide) (by decide)]

theorem eq_of_intercalate_eq {xs ys : List String} (hxs : ∀ x ∈ xs, IsPlainName x)
    (hys : ∀ y ∈ ys, IsPlainName y) (h : ",".intercalate xs = ",".intercalate ys) : xs = ys := by
  have hsplit {zs : List String} (hzs : ∀ z ∈ zs, IsPlainName z) (hne : zs ≠ []) :
      (",".intercalate zs).toList.splitOn ',' = zs.map String.toList := by
    rw [String.toList_intercalate]
    refine splitOn_intercalate ',' (forall_mem_map.2 fun z hz => (hzs z hz).2) ?_
    exact map_eq_nil_iff.not.2 hne
  -- A list that is written as nothing has no plain name.
  have hnil {zs : List String} (hzs : ∀ z ∈ zs, IsPlainName z) (heq : ",".intercalate zs = "") :
      zs = [] := by
    by_contra hne
    have hempty := hsplit hzs hne
    rw [heq] at hempty
    have hzero : [[]] = zs.map String.toList := hempty
    obtain ⟨z, hz, hz'⟩ := mem_map.1 (hzero ▸ mem_singleton_self [])
    exact (hzs z hz).1 (String.toList_eq_nil_iff.1 hz')
  by_cases hx : xs = []
  · subst hx
    exact (hnil hys h.symm).symm
  by_cases hy : ys = []
  · subst hy
    exact absurd (hnil hxs h) hx
  have hmap := hsplit hxs hx
  rw [h, hsplit hys hy] at hmap
  exact map_injective_iff.2 (fun _ _ => String.toList_inj.1) hmap.symm

namespace CheckOptions

variable {o o' : CheckOptions}

theorem cacheSettings_eq_iff : o.cacheSettings = o'.cacheSettings ↔
    o.minDepth = o'.minDepth ∧ o.generalize = o'.generalize ∧ o.keepGarbage = o'.keepGarbage ∧
      ",".intercalate (sortBy compare o.skipped) = ",".intercalate (sortBy compare o'.skipped) := by
  have htext (b c : Bool) : toString b = toString c ↔ b = c := by
    cases b <;> cases c <;> decide
  have hdepth : o.minDepth.repr = o'.minDepth.repr ↔ o.minDepth = o'.minDepth :=
    ⟨repr_injective, congrArg Nat.repr⟩
  simp [cacheSettings, htext, hdepth]

theorem intercalate_skipped_eq_iff (ho : ∀ m ∈ o.skipped, IsPlainName m)
    (ho' : ∀ m ∈ o'.skipped, IsPlainName m) :
    ",".intercalate (sortBy compare o.skipped) = ",".intercalate (sortBy compare o'.skipped) ↔
      o.skipped.Perm o'.skipped := by
  have hsorted (l : List String) := sortBy_perm compare l
  refine ⟨fun h => ?_, fun h => congrArg _ (sortBy_eq_of_perm compare h)⟩
  have heq := eq_of_intercalate_eq (fun m hm => ho m ((hsorted _).mem_iff.1 hm))
    (fun m hm => ho' m ((hsorted _).mem_iff.1 hm)) h
  exact (hsorted _).symm.trans (heq ▸ hsorted _)

/-- **What the key of a cache determines.** Analyses with the same key have the same depth of
abstraction, generalize alike and prune garbage alike. If all names that they skip are plain, the key is
the same exactly if they moreover skip the same methods, each of them named equally often. So it is if
all names that they skip are methods of the program. -/
theorem settings_of_cacheSettings (o o' : CheckOptions) :
    (o.cacheSettings = o'.cacheSettings →
      o.abstraction = o'.abstraction ∧ o.settings.generalize = o'.settings.generalize ∧
        o.settings.pruning = o'.settings.pruning) ∧
    ((∀ m ∈ o.settings.skipped ++ o'.settings.skipped, IsPlainName m) →
      (o.cacheSettings = o'.cacheSettings ↔
        o.abstraction = o'.abstraction ∧ o.settings.generalize = o'.settings.generalize ∧
          o.settings.pruning = o'.settings.pruning ∧
          o.settings.skipped.Perm o'.settings.skipped)) ∧
    ∀ src P, Code.compile src = .ok P →
      (∀ m ∈ o.settings.skipped ++ o'.settings.skipped, (P.method? m).isSome) →
      o.cacheSettings = o'.cacheSettings →
      ∀ m, m ∈ o.settings.skipped ↔ m ∈ o'.settings.skipped := by
  have hiff (hplain : ∀ m ∈ o.settings.skipped ++ o'.settings.skipped, IsPlainName m) :
      o.cacheSettings = o'.cacheSettings ↔
        o.abstraction = o'.abstraction ∧ o.settings.generalize = o'.settings.generalize ∧
          o.settings.pruning = o'.settings.pruning ∧
          o.settings.skipped.Perm o'.settings.skipped := by
    obtain ⟨ho, ho'⟩ := forall_mem_append.1 hplain
    rw [cacheSettings_eq_iff, intercalate_skipped_eq_iff ho ho']
    simp [abstraction, settings]
  refine ⟨fun hkey => ?_, hiff, fun src P hP hmethods hkey m => ?_⟩
  · obtain ⟨hdepth, hgeneralize, hgarbage, -⟩ := cacheSettings_eq_iff.1 hkey
    exact ⟨by rw [abstraction, abstraction, hdepth], hgeneralize, congrArg (!·) hgarbage⟩
  · have hplain m hm := Code.isPlainName_of_compile hP (hmethods m hm)
    exact ((hiff hplain).1 hkey).2.2.2.mem_iff

/-- Two methods of a program are skipped, named in either order. -/
theorem settings_of_cacheSettings_swapped :
    let o : CheckOptions := { minDepth := 1, skipped := ["walk", "build"] }
    let o' : CheckOptions := { minDepth := 1, offline := true, skipped := ["build", "walk"] }
    ∃ P, Code.compile "method walk() \x7b\x7d method build() \x7b\x7d" = .ok P ∧
      (∀ m ∈ o.settings.skipped ++ o'.settings.skipped, (P.method? m).isSome) ∧
      (∀ m ∈ o.settings.skipped ++ o'.settings.skipped, IsPlainName m) ∧
      o.cacheSettings = o'.cacheSettings ∧ o.abstraction = o'.abstraction ∧
      o.settings.skipped.Perm o'.settings.skipped ∧
      ∀ m, m ∈ o.settings.skipped ↔ m ∈ o'.settings.skipped := by
  intro o o'
  have hplain : ∀ m ∈ o.settings.skipped ++ o'.settings.skipped, IsPlainName m := by decide
  have hkey : o.cacheSettings = o'.cacheSettings := by decide +kernel
  have hmethods : (Code.compile "method walk() \x7b\x7d method build() \x7b\x7d").map
      (fun P => (o.settings.skipped ++ o'.settings.skipped).all fun m => (P.method? m).isSome) =
        .ok true := by
    decide +kernel
  cases hP : Code.compile "method walk() \x7b\x7d method build() \x7b\x7d" with
  | error e => rw [hP] at hmethods; cases hmethods
  | ok P =>
    rw [hP] at hmethods
    have hall := all_eq_true.1 (Except.ok.inj hmethods)
    obtain ⟨hsame, hiff, hset⟩ := settings_of_cacheSettings o o'
    exact ⟨P, rfl, hall, hplain, hkey, (hsame hkey).1, ((hiff hplain).1 hkey).2.2.2,
      hset _ P hP hall hkey⟩

/-- A name with a comma is taken for two: these command lines have the same key, and only the second one
skips a method `f`. -/
theorem cacheSettings_of_comma : ∃ o o',
    Command.ofArgs? ["check", "p.grasp", "--incremental", "--skip", "f,g"] =
      some (.check "p.grasp" o) ∧
    Command.ofArgs? ["check", "p.grasp", "--incremental", "--skip", "f", "--skip", "g"] =
      some (.check "p.grasp" o') ∧
    o.cacheSettings = o'.cacheSettings ∧ "f" ∉ o.settings.skipped ∧ "f" ∈ o'.settings.skipped :=
  ⟨{ incremental := true, skipped := ["f,g"] }, { incremental := true, skipped := ["f", "g"] },
    by decide +kernel, by decide +kernel, by decide +kernel, by decide, by decide⟩

end CheckOptions

end ShapeCheck
