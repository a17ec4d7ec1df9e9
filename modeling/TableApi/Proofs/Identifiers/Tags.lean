import Mathlib.Data.List.DropRight
import TableApi.Proofs.Parameters.Integers
import TableApi.Schema.IdGenerator

/-!
# What a type tag says

A type tag is free text, such as `tinyint(3) unsigned` or `VARCHAR ( 16 )`. A generator takes
three things from it: the word that it begins with, the length in its first parentheses, and
whether it is unsigned. Here each of them is said of the tag as it stands, without trimming it
or changing its letters (`IdGenerator.Names`, `Declares`, `isUnsigned`), and shown to be what
is read.
-/

namespace TableApi

/-! ## Small letters and blanks -/

namespace Text

/-- A letter from A to Z is made small, 32 places on; every other character stays. -/
theorem toLower_cases (c : Char) :
    c.toLower = c ∨ 65 ≤ c.toNat ∧ c.toNat ≤ 90 ∧ c.toLower.toNat = c.toNat + 32 := by
  unfold Char.toLower
  split
  · next h =>
    have hlow : 65 ≤ c.toNat := UInt32.le_iff_toNat_le.1 h.1
    have hhigh : c.toNat ≤ 90 := UInt32.le_iff_toNat_le.1 h.2
    refine .inr ⟨hlow, hhigh, ?_⟩
    show (c.val + 32).toNat = c.toNat + 32
    rw [UInt32.toNat_add]
    exact Nat.mod_eq_of_lt (by show c.toNat + 32 < 2 ^ 32; omega)
  · exact .inl rfl

theorem toLower_of_lt {c : Char} (h : c.toNat < 65) : c.toLower = c := by
  rcases toLower_cases c with hsame | ⟨hlow, -, -⟩
  · exact hsame
  · omega

/-- A mark that stands in front of the letters is the small form of no other character. -/
theorem toLower_eq_iff {c mark : Char} (h : mark.toNat < 65) : c.toLower = mark ↔ c = mark := by
  rcases toLower_cases c with hsame | ⟨hlow, -, hlower⟩
  · rw [hsame]
  · refine iff_of_false ?_ ?_
    · rintro rfl
      omega
    · rintro rfl
      omega

theorem isBlank_toLower (c : Char) : isBlank c.toLower = isBlank c := by
  rcases toLower_cases c with hsame | ⟨hlow, hhigh, hlower⟩
  · rw [hsame]
  · have hletter : isBlank c = false := isBlank_of_visible (by omega) (by omega)
    rw [hletter]
    exact isBlank_of_visible (by omega) (by omega)

theorem trimChars_map_toLower (chars : List Char) :
    trimChars (chars.map Char.toLower) = (trimChars chars).map Char.toLower := by
  have hblank : isBlank ∘ Char.toLower = isBlank := funext isBlank_toLower
  simp only [trimChars, List.dropWhile_map, hblank, ← List.map_reverse]

/-- Nothing is dropped from a character on that stays. -/
theorem dropWhile_append_cons {p : Char → Bool} {mark : Char} (h : p mark = false)
    (front back : List Char) :
    (front ++ mark :: back).dropWhile p = front.dropWhile p ++ mark :: back := by
  rw [List.dropWhile_append]
  split
  · next hnone =>
    rw [List.isEmpty_iff.1 hnone, List.nil_append, List.dropWhile_cons_of_neg (by simp [h])]
  · rfl

/-- Nothing is trimmed between two characters that are no blanks. -/
theorem trimChars_around {first last : Char} (hfirst : isBlank first = false)
    (hlast : isBlank last = false) (front inside back : List Char) :
    trimChars (front ++ first :: (inside ++ last :: back)) =
      front.dropWhile isBlank ++ first :: (inside ++ last :: back.rdropWhile isBlank) := by
  have hturn : (front.dropWhile isBlank ++ first :: (inside ++ last :: back)).reverse =
      back.reverse ++ last :: (front.dropWhile isBlank ++ first :: inside).reverse := by
    simp
  rw [trimChars, dropWhile_append_cons hfirst, hturn, dropWhile_append_cons hlast, List.rdropWhile]
  simp

/-- The first run of a trimmed text, if blanks end it, is that of the text behind its blanks. -/
theorem takeWhile_trimChars {p : Char → Bool} (hp : ∀ c, isBlank c = true → p c = false)
    (chars : List Char) :
    (trimChars chars).takeWhile p = (chars.dropWhile isBlank).takeWhile p := by
  have hcut : chars.dropWhile isBlank =
      trimChars chars ++ (chars.dropWhile isBlank).rtakeWhile isBlank :=
    List.rdropWhile_append_rtakeWhile.symm
  have hnone : ((chars.dropWhile isBlank).rtakeWhile isBlank).takeWhile p = [] := by
    cases htrail : (chars.dropWhile isBlank).rtakeWhile isBlank with
    | nil => rfl
    | cons c rest =>
      have hc : isBlank c = true := by
        refine List.mem_rtakeWhile_imp (l := chars.dropWhile isBlank) ?_
        rw [htrail]
        exact List.mem_cons_self
      rw [List.takeWhile_cons_of_neg (by simp [hp c hc])]
  rw [hcut, List.takeWhile_append, hnone, List.append_nil]
  split
  · next hall => exact (List.takeWhile_prefix p).eq_of_length hall
  · rfl

/-- A run without blanks does not begin among blanks. -/
theorem infix_of_blanks {part lead chars : List Char} (hne : part ≠ [])
    (hpart : ∀ c ∈ part, isBlank c = false) (hlead : ∀ c ∈ lead, isBlank c = true) :
    part <:+: lead ++ chars ↔ part <:+: chars := by
  induction lead with
  | nil => rfl
  | cons c lead ih =>
    rw [List.forall_mem_cons] at hlead
    rw [List.cons_append, List.infix_cons_iff, ih hlead.2, or_iff_right]
    intro hprefix
    cases part with
    | nil => exact hne rfl
    | cons first rest =>
      obtain rfl := (List.cons_prefix_cons.1 hprefix).1
      rw [hpart first List.mem_cons_self] at hlead
      exact Bool.false_ne_true hlead.1

/-- Trimming cuts no run without blanks. -/
theorem infix_trimChars_iff {part chars : List Char} (hne : part ≠ [])
    (hpart : ∀ c ∈ part, isBlank c = false) : part <:+: trimChars chars ↔ part <:+: chars := by
  obtain ⟨lead, trail, hblank, hchars⟩ := exists_blanks chars
  rw [List.forall_mem_append] at hblank
  have htrail : part <:+: trimChars chars ++ trail ↔ part <:+: trimChars chars := by
    rw [← List.reverse_infix, List.reverse_append, infix_of_blanks, List.reverse_infix]
    · exact fun h => hne (List.reverse_eq_nil_iff.1 h)
    · exact fun c hc => hpart c (List.mem_reverse.1 hc)
    · exact fun c hc => hblank.2 c (List.mem_reverse.1 hc)
  calc part <:+: trimChars chars
      ↔ part <:+: lead ++ (trimChars chars ++ trail) :=
        htrail.symm.trans (infix_of_blanks hne hpart hblank.1).symm
    _ ↔ part <:+: chars := by rw [← List.append_assoc, ← hchars]

end Text

/-! ## Numerals -/

namespace Number

/-- A numeral has no letters that could be made small. -/
theorem Numeral.map_toLower {chars : List Char} {n : Int} (h : Numeral chars n) :
    chars.map Char.toLower = chars := by
  have hdigits : ∀ {digits : List Char}, IsDigits digits → digits.map Char.toLower = digits := by
    intro digits h
    refine (List.map_congr_left fun c hc => Text.toLower_of_lt ?_).trans (List.map_id _)
    have hle : c.toNat ≤ '9'.toNat := (h.digit c hc).2
    exact Nat.lt_of_le_of_lt hle (by decide)
  cases h with
  | bare h => exact hdigits h
  | plus h => exact congrArg₂ List.cons rfl (hdigits h)
  | minus h => exact congrArg₂ List.cons rfl (hdigits h)

theorem Spells.lower {text : String} {n : Int} (h : Spells text n) : Spells (Text.lower text) n := by
  obtain ⟨lead, numeral, trail, hblank, hchars, hnumeral⟩ := h
  refine ⟨lead.map Char.toLower, numeral, trail.map Char.toLower, ?_, ?_, hnumeral⟩
  · rw [← List.map_append]
    intro c hc
    obtain ⟨letter, hletter, rfl⟩ := List.mem_map.1 hc
    rw [Text.isBlank_toLower, hblank letter hletter]
  · rw [Text.toList_lower, hchars, List.map_append, List.map_append, hnumeral.map_toLower]

/-- A numeral of a positive number is read as the number, if that is below the bound. -/
theorem naturalBelow?_of_numeral {bound n : Nat} {text : String}
    (h : Numeral text.toList (n : Int)) (hpositive : 1 ≤ n) :
    naturalBelow? bound text = (some n).filter fun n => decide (n < bound) := by
  unfold naturalBelow?
  generalize text.toList = chars at h
  generalize hvalue : (n : Int) = value at h
  cases h with
  | bare hdigits =>
    obtain rfl := Int.ofNat_inj.1 hvalue
    split
    · exact absurd rfl hdigits.ne_sign.2
    · rw [natural?_iff.2 ⟨hdigits, rfl⟩]
  | plus hdigits =>
    obtain rfl := Int.ofNat_inj.1 hvalue
    simp only [natural?_iff.2 ⟨hdigits, rfl⟩]
  | minus hdigits => omega

end Number

namespace IdGenerator

/-! ## The word of a tag -/

/-- Whether a character goes on with the word that a type tag begins with. -/
def inWord (c : Char) : Bool :=
  c ≠ '(' && !Text.isBlank c

/-- A type tag begins with a word, in letters of any size and perhaps behind blanks, and ends
there or goes on with a blank or a parenthesis. -/
def Names (typeTag word : String) : Prop :=
  ∃ lead spelled rest, typeTag.toList = lead ++ spelled ++ rest ∧
    (∀ c ∈ lead, Text.isBlank c = true) ∧ spelled.map Char.toLower = word.toList ∧
    ∀ c ∈ rest.head?, c = '(' ∨ Text.isBlank c = true

theorem inWord_eq_false_iff {c : Char} : inWord c = false ↔ c = '(' ∨ Text.isBlank c = true := by
  simp [inWord, or_iff_not_imp_left]

theorem inWord_toLower (c : Char) : inWord c.toLower = inWord c := by
  simp only [inWord, ne_eq, Text.toLower_eq_iff (show '('.toNat < 65 by decide),
    Text.isBlank_toLower]

/-- The word that is read is found in one walk over the tag. -/
theorem toList_baseType (typeTag : String) :
    (baseType (Text.lower (Text.trim typeTag))).toList =
      ((typeTag.toList.dropWhile Text.isBlank).takeWhile inWord).map Char.toLower := by
  have hword : inWord ∘ Char.toLower = inWord := funext inWord_toLower
  show (String.ofList ((Text.lower (Text.trim typeTag)).toList.takeWhile inWord)).toList = _
  rw [String.toList_ofList, Text.toList_lower, Text.toList_trim, List.takeWhile_map, hword,
    Text.takeWhile_trimChars fun c hc => inWord_eq_false_iff.2 (.inr hc)]

/-- The word that is read is the one that the tag begins with. -/
theorem baseType_eq_iff {typeTag word : String} (hne : word.toList ≠ [])
    (hword : ∀ c ∈ word.toList, inWord c = true) :
    baseType (Text.lower (Text.trim typeTag)) = word ↔ Names typeTag word := by
  rw [← String.toList_inj, toList_baseType]
  constructor
  · intro h
    refine ⟨typeTag.toList.takeWhile Text.isBlank,
      (typeTag.toList.dropWhile Text.isBlank).takeWhile inWord,
      (typeTag.toList.dropWhile Text.isBlank).dropWhile inWord, ?_, ?_, h, ?_⟩
    · rw [List.append_assoc, List.takeWhile_append_dropWhile, List.takeWhile_append_dropWhile]
    · exact Text.isBlank_of_mem_takeWhile
    · intro c hc
      have hstop := List.head?_dropWhile_not inWord (typeTag.toList.dropWhile Text.isBlank)
      rw [hc] at hstop
      exact inWord_eq_false_iff.1 hstop
  · rintro ⟨lead, spelled, rest, hchars, hlead, hspelled, hrest⟩
    have hin : ∀ c ∈ spelled, inWord c = true := by
      intro c hc
      rw [← inWord_toLower]
      exact hword _ (hspelled ▸ List.mem_map_of_mem hc)
    have hstop : rest.takeWhile inWord = [] := by
      cases rest with
      | nil => rfl
      | cons c rest =>
        rw [List.takeWhile_cons_of_neg (by simp [inWord_eq_false_iff.2 (hrest c rfl)])]
    -- The word is not empty, so the blanks in front of it are all that is trimmed there.
    have hstart : (spelled ++ rest).dropWhile Text.isBlank = spelled ++ rest := by
      cases spelled with
      | nil => exact absurd hspelled.symm hne
      | cons first others =>
        have hfirst := hin first List.mem_cons_self
        rw [inWord, Bool.and_eq_true, Bool.not_eq_true'] at hfirst
        rw [List.cons_append, List.dropWhile_cons_of_neg (by simp [hfirst.2])]
    rw [hchars, List.append_assoc, List.dropWhile_append_of_pos hlead, hstart,
      List.takeWhile_append_of_pos hin, hstop, List.append_nil, hspelled]

/-! ## The sign and the length of a tag -/

/-- Whether a type tag says, in letters of any size, that the type is unsigned. -/
def isUnsigned (typeTag : String) : Bool :=
  Text.holds "unsigned" (Text.lower typeTag)

/-- A type tag declares a length: behind its first opening parenthesis, and in front of the next
closing one, it spells a number. -/
def Declares (typeTag : String) (length : Nat) : Prop :=
  ∃ front inside back, typeTag.toList = front ++ '(' :: (inside ++ ')' :: back) ∧
    '(' ∉ front ∧ ')' ∉ inside ∧ Number.Spells (String.ofList inside) length

theorem holds_unsigned (typeTag : String) :
    Text.holds "unsigned" (Text.lower (Text.trim typeTag)) = isUnsigned typeTag := by
  have hblank : ∀ c ∈ "unsigned".toList, Text.isBlank c = false :=
    fun c hc => Bool.eq_false_iff.2 (List.any_eq_false.1 (by decide +kernel) c hc)
  rw [Bool.eq_iff_iff, isUnsigned, Text.holds_iff, Text.holds_iff, Text.toList_lower,
    Text.toList_trim, ← Text.trimChars_map_toLower, Text.toList_lower,
    Text.infix_trimChars_iff (by decide) hblank]

/-- A positive length that a tag declares is read, unless it does not fit 64 bits. -/
theorem declaredLength?_of_declares {typeTag : String} {length : Nat}
    (h : Declares typeTag length) (hpositive : 1 ≤ length) :
    declaredLength? (Text.lower (Text.trim typeTag)) =
      (some length).filter fun n => decide (n < UInt64.size) := by
  obtain ⟨front, inside, back, hchars, hfront, hinside, hspells⟩ := h
  have hlower : ∀ {mark : Char} {chars : List Char}, mark.toNat < 65 → mark ∉ chars →
      mark ∉ chars.map Char.toLower := by
    intro mark chars hmark hnot hmem
    obtain ⟨c, hc, heq⟩ := List.mem_map.1 hmem
    exact hnot ((Text.toLower_eq_iff hmark).1 heq ▸ hc)
  let before := String.ofList ((front.dropWhile Text.isBlank).map Char.toLower)
  let number := Text.lower (String.ofList inside)
  let after := String.ofList ((back.rdropWhile Text.isBlank).map Char.toLower)
  have htag : Text.lower (Text.trim typeTag) =
      before ++ String.singleton '(' ++ (number ++ String.singleton ')' ++ after) := by
    rw [← String.toList_inj]
    simp [before, number, after, hchars,
      Text.trimChars_around (show Text.isBlank '(' = false by decide)
        (show Text.isBlank ')' = false by decide)]
  have hopen : Text.cutFirst '(' (Text.lower (Text.trim typeTag)) =
      some (before, number ++ String.singleton ')' ++ after) := by
    rw [htag]
    refine Text.cutFirst_append ?_
    rw [String.toList_ofList]
    exact hlower (by decide) fun hmem => hfront ((List.dropWhile_sublist _).mem hmem)
  have hclose : Text.cutFirst ')' (number ++ String.singleton ')' ++ after) =
      some (number, after) := by
    refine Text.cutFirst_append ?_
    rw [Text.toList_lower, String.toList_ofList]
    exact hlower (by decide) hinside
  have hread : Number.Numeral (Text.trim number).toList length :=
    Number.integer?_iff.1 (Number.integer?_trim_iff.2 hspells.lower)
  simp only [declaredLength?, hopen, hclose, Option.bind_eq_bind, Option.bind_some]
  exact Number.naturalBelow?_of_numeral hread hpositive

end IdGenerator

end TableApi
