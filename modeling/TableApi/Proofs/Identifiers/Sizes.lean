import TableApi.Proofs.Identifiers.Ranges
import TableApi.Proofs.Identifiers.Tags

/-!
# Identifiers and the sizes of their types

An identifier that is made for a type tag has room in a column of that type: an integer is at
least 1 and at most the largest of its type, and a text is no longer than the tag declares
(`IdGenerator.made_within_type`). This holds of every tag, however it is spelled, and of every
UUID, a random one or not.

The generator of integers up to a bound is defined on integers of any size. It is shown to make
the same of 64-bit integers, whose sum may overflow but does not, up to the largest of them
(`exists_wordUpTo`).
-/

namespace TableApi

namespace IdGenerator

/-! ## Types and their sizes -/

/-- The integer types of less than 32 bits, with their bits. -/
def smallTypes : List (String × Nat) :=
  [("tinyint", 8), ("smallint", 16), ("mediumint", 24)]

def wideTypes : List String :=
  ["int", "integer", "bigint"]

def textTypes : List String :=
  ["char", "varchar"]

/-- The largest integer of so many bits, one of them the sign unless there is none. -/
def largest (bits : Nat) (unsigned : Bool) : Int :=
  2 ^ (if unsigned then bits else bits - 1) - 1

theorem one_le_largest {type : String × Nat} (h : type ∈ smallTypes) (unsigned : Bool) :
    1 ≤ largest type.2 unsigned := by
  have hall : ∀ type ∈ smallTypes, ∀ unsigned, 1 ≤ largest type.2 unsigned := by decide
  exact hall type h unsigned

/-- The words of these types are read where they are named. -/
theorem baseType_iff_names {typeTag word : String}
    (hword : word ∈ smallTypes.map Prod.fst ++ wideTypes ++ textTypes) :
    baseType (Text.lower (Text.trim typeTag)) = word ↔ Names typeTag word := by
  have hplain : ∀ word ∈ smallTypes.map Prod.fst ++ wideTypes ++ textTypes,
      word.toList ≠ [] ∧ word.toList.all inWord = true := by decide +kernel
  exact baseType_eq_iff (hplain word hword).1 (List.all_eq_true.1 (hplain word hword).2)

/-- A small integer type is numbered up to its largest value. -/
theorem forType_small {typeTag : String} {type : String × Nat} (htype : type ∈ smallTypes)
    (h : Names typeTag type.1) :
    forType typeTag = upTo (largest type.2 (isUnsigned typeTag)) := by
  have hbase := (baseType_iff_names (by simp [List.mem_map_of_mem htype])).2 h
  unfold forType
  simp only [hbase, holds_unsigned]
  simp only [smallTypes, List.mem_cons, List.not_mem_nil, or_false] at htype
  rcases htype with rfl | rfl | rfl <;> cases isUnsigned typeTag <;> rfl

/-- All wide integer types are numbered alike. -/
theorem forType_wide {typeTag word : String} (hword : word ∈ wideTypes) (h : Names typeTag word) :
    forType typeTag = upTo wideMax := by
  have hbase := (baseType_iff_names (by simp [hword])).2 h
  unfold forType
  simp only [hbase]
  simp only [wideTypes, List.mem_cons, List.not_mem_nil, or_false] at hword
  rcases hword with rfl | rfl | rfl <;> rfl

/-- A text type takes the first digits of a UUID if its length is read and too short for all. -/
theorem forType_text {typeTag word : String} (hword : word ∈ textTypes) (h : Names typeTag word) :
    (∃ length, declaredLength? (Text.lower (Text.trim typeTag)) = some length ∧
      length < uuidLength ∧ forType typeTag = shortUuid length) ∨
    (∀ length, declaredLength? (Text.lower (Text.trim typeTag)) = some length →
      uuidLength ≤ length) ∧ forType typeTag = uuid := by
  have hbase := (baseType_iff_names (by simp [hword])).2 h
  simp only [textTypes, List.mem_cons, List.not_mem_nil, or_false] at hword
  unfold forType
  simp only [hbase]
  generalize declaredLength? (Text.lower (Text.trim typeTag)) = declared
  cases declared with
  | none =>
    refine .inr ⟨fun _ h => (nomatch h), ?_⟩
    rcases hword with rfl | rfl <;> rfl
  | some length =>
    by_cases hshort : length < uuidLength
    · refine .inl ⟨length, rfl, hshort, ?_⟩
      rcases hword with rfl | rfl <;> exact if_pos hshort
    · refine .inr ⟨fun _ h => Option.some.inj h ▸ Nat.le_of_not_lt hshort, ?_⟩
      rcases hword with rfl | rfl <;> exact if_neg hshort

/-- The texts made for a text type are as long as it declares, up to the length of a UUID. A
length that is too large to be read is larger than that. -/
theorem textLength?_forType {typeTag word : String} (hword : word ∈ textTypes)
    (h : Names typeTag word) {length : Nat} (hpositive : 1 ≤ length)
    (hlength : Declares typeTag length) :
    (forType typeTag).textLength? = some (min length uuidLength) := by
  have hread := declaredLength?_of_declares hlength hpositive
  rcases forType_text hword h with ⟨found, hfound, hshort, hforType⟩ | ⟨hlong, hforType⟩
  · obtain ⟨hsame, -⟩ := Option.filter_eq_some_iff.1 (hread.symm.trans hfound)
    obtain rfl := Option.some.inj hsame
    rw [hforType, textLength?, Nat.max_eq_left hpositive]
  · have hle : uuidLength ≤ length := by
      by_contra hshort
      have hfits : length < UInt64.size :=
        Nat.lt_trans (Nat.lt_of_not_le hshort) (by decide : uuidLength < UInt64.size)
      rw [Option.filter_some, if_pos (decide_eq_true hfits)] at hread
      exact hshort (hlong length hread)
    rw [hforType, textLength?, Nat.min_eq_right hle]

/-! ## Digits -/

/-- The digits of hexadecimal numbers, with small letters. -/
def hexAlphabet : List Char :=
  "0123456789abcdef".toList

theorem mem_hexAlphabet {n count : Nat} : ∀ c ∈ Uuid.hexDigits n count, c ∈ hexAlphabet := by
  have hdigit : ∀ digit < 16, Nat.digitChar digit ∈ hexAlphabet := by decide
  induction count generalizing n with
  | zero => exact fun _ hc => absurd hc List.not_mem_nil
  | succ count ih =>
    rw [Uuid.hexDigits, List.forall_mem_append, List.forall_mem_singleton]
    exact ⟨ih, hdigit _ (Nat.mod_lt _ (by decide))⟩

/-! ## Machine integers -/

/-- What the division of a UUID by `max top 1` leaves: computed in 128 bits without a sign, and
kept in 64 bits with one. -/
def wordRemainder (top : Int64) (id : Uuid) : Int64 :=
  Int64.ofBitVec ((id % (max top 1).toBitVec.signExtend 128).setWidth 64)

/-- The identifier up to `top` in 64-bit integers, if the sum does not overflow. -/
def wordUpTo? (top : Int64) (id : Uuid) : Option Int64 :=
  let remainder := wordRemainder top id
  if remainder.toBitVec.saddOverflow 1 then none else some (remainder + 1)

theorem toInt_max_one (top : Int64) : (max top 1).toInt = max top.toInt 1 := by
  show (if top ≤ 1 then 1 else top).toInt = max top.toInt 1
  split
  · next h => exact (Int.max_eq_right (Int64.le_iff_toInt_le.1 h)).symm
  · next h =>
    rw [Int64.le_iff_toInt_le] at h
    exact (Int.max_eq_left (Int.le_of_lt (Int.not_le.1 h))).symm

/-- The bound that is divided by is positive, and fits 64 bits with a sign. -/
theorem bounds_max_one (top : Int64) : 1 ≤ max top.toInt 1 ∧ max top.toInt 1 < 2 ^ 63 :=
  ⟨Int.le_max_right _ _, Int.max_lt.2 ⟨top.toInt_lt, by decide⟩⟩

/-- Neither the bound nor the remainder is changed by the change of width. -/
theorem toInt_wordRemainder (top : Int64) (id : Uuid) :
    (wordRemainder top id).toInt = (id.toNat : Int) % max top.toInt 1 := by
  let bound := (max top 1).toBitVec.signExtend 128
  obtain ⟨hlow, hhigh⟩ := bounds_max_one top
  have hsigned : bound.toInt = max top.toInt 1 := by
    rw [BitVec.toInt_signExtend_of_le (by decide), Int64.toInt_toBitVec, toInt_max_one]
  have hbound : (bound.toNat : Int) = max top.toInt 1 := by
    rw [← hsigned, BitVec.toInt_eq_toNat_of_msb]
    rw [BitVec.msb_eq_toInt, hsigned]
    exact decide_eq_false (by omega)
  have hlt : id.toNat % bound.toNat < bound.toNat := Nat.mod_lt _ (by omega)
  have hcut : ((id % bound).setWidth 64).toNat = id.toNat % bound.toNat := by
    rw [BitVec.toNat_setWidth, BitVec.toNat_umod]
    exact Nat.mod_eq_of_lt (by omega)
  show (Int64.ofBitVec ((id % bound).setWidth 64)).toInt = _
  rw [Int64.toInt_ofBitVec, BitVec.toInt_eq_toNat_of_lt (by omega), hcut, Int.natCast_emod, hbound]

/-- The sum does not overflow, and is what is made on integers of any size. -/
theorem exists_wordUpTo (top : Int64) (id : Uuid) :
    ∃ n, wordUpTo? top id = some n ∧ (upTo top.toInt).make? id = some (.int n.toInt) := by
  have hremainder := toInt_wordRemainder top id
  obtain ⟨hlow, hhigh⟩ := bounds_max_one top
  have hlt := Int.emod_lt_of_pos (id.toNat : Int) (by omega : 0 < max top.toInt 1)
  have hnonneg := Int.emod_nonneg (id.toNat : Int) (by omega : max top.toInt 1 ≠ 0)
  have hone : (1 : BitVec 64).toInt = 1 := by decide
  have hfits : (wordRemainder top id).toBitVec.saddOverflow 1 = false := by
    rw [BitVec.saddOverflow, Int64.toInt_toBitVec, hremainder, hone]
    simp only [Bool.or_eq_false_iff, decide_eq_false_iff_not]
    omega
  refine ⟨wordRemainder top id + 1, ?_, ?_⟩
  · rw [wordUpTo?, hfits, if_neg Bool.false_ne_true]
  · rw [make?, ← hremainder, ← Int64.toInt_toBitVec (wordRemainder top id + 1), Int64.toBitVec_add,
      BitVec.toInt_add_of_not_saddOverflow]
    · rfl
    · exact Bool.eq_false_iff.1 hfits

/-! ## Room in the column -/

/-- **Identifiers are within their types.** Of any UUID, a type tag that begins with the word of
a small integer type gives an integer from 1 to the largest of this type, with a sign or without
one as the tag says; with that of a wide type, one that 31 bits hold; and with that of a text
type, of a declared length, the first digits of the UUID, as many as declared if there are so
many. Up to any 64-bit bound an integer is made in 64 bits without an overflow, and is the one
between 1 and the bound that is made on integers of any size. -/
theorem made_within_type (typeTag : String) (id : Uuid) :
    (∀ type ∈ smallTypes, Names typeTag type.1 →
      ∃ n, (forType typeTag).make? id = some (.int n) ∧
        1 ≤ n ∧ n ≤ largest type.2 (isUnsigned typeTag)) ∧
    (∀ word ∈ wideTypes, Names typeTag word →
      ∃ n, (forType typeTag).make? id = some (.int n) ∧ 1 ≤ n ∧ n ≤ 2 ^ 31 - 1) ∧
    (∀ word ∈ textTypes, Names typeTag word → ∀ length, 1 ≤ length → Declares typeTag length →
      ∃ text, (forType typeTag).make? id = some (.str text) ∧ text.toList <+: id.digits ∧
        text.length = min length 32 ∧ ∀ c ∈ text.toList, c ∈ hexAlphabet) ∧
    ∀ top : Int64, ∃ n : Int64, wordUpTo? top id = some n ∧
      (upTo top.toInt).make? id = some (.int n.toInt) ∧ 1 ≤ n ∧ n ≤ max top 1 := by
  refine ⟨?_, ?_, ?_, ?_⟩
  · intro type htype hnames
    obtain ⟨n, hmake, hlow, hhigh⟩ := exists_int_make? (largest type.2 (isUnsigned typeTag)) id
    rw [Int.max_eq_left (one_le_largest htype _)] at hhigh
    exact ⟨n, forType_small htype hnames ▸ hmake, hlow, hhigh⟩
  · intro word hword hnames
    obtain ⟨n, hmake, hlow, hhigh⟩ := exists_int_make? wideMax id
    exact ⟨n, forType_wide hword hnames ▸ hmake, hlow, hhigh⟩
  · intro word hword hnames length hpositive hlength
    have htext := textLength?_forType hword hnames hpositive hlength
    refine ⟨_, make?_of_textLength? htext id, ?_, ?_, ?_⟩
    · rw [String.toList_ofList]
      exact List.take_prefix _ _
    · rw [String.length_ofList, List.length_take, Uuid.length_digits]
      exact Nat.min_eq_left (Nat.min_le_right _ _)
    · rw [String.toList_ofList]
      exact fun c hc => mem_hexAlphabet c (List.mem_of_mem_take hc)
  · intro top
    obtain ⟨n, hword, hmake⟩ := exists_wordUpTo top id
    obtain ⟨m, hmake', hlow, hhigh⟩ := exists_int_make? top.toInt id
    obtain rfl : n.toInt = m := Json.int.inj (Option.some.inj (hmake.symm.trans hmake'))
    refine ⟨n, hword, hmake, Int64.le_iff_toInt_le.2 hlow, Int64.le_iff_toInt_le.2 ?_⟩
    rw [toInt_max_one]
    exact hhigh

/-- Oddly spelled tags are sized all the same, a length of more than 64 bits among them, and the
largest bound is kept. -/
theorem odd_tags_sized :
    (Names "\tTinyInt(3) UNSIGNED zerofill" "tinyint" ∧
      ∃ n, (forType "\tTinyInt(3) UNSIGNED zerofill").make? (BitVec.allOnes 128) =
        some (.int n) ∧ 1 ≤ n ∧ n ≤ 255) ∧
    (Names "BIGINT unsigned" "bigint" ∧
      ∃ n, (forType "BIGINT unsigned").make? (BitVec.allOnes 128) = some (.int n) ∧
        1 ≤ n ∧ n ≤ 2 ^ 31 - 1) ∧
    (Names "VarChar ( +08 ) binary(99)" "varchar" ∧ Declares "VarChar ( +08 ) binary(99)" 8 ∧
      ∃ text, (forType "VarChar ( +08 ) binary(99)").make? (BitVec.allOnes 128) =
        some (.str text) ∧ text.length = 8) ∧
    (Names "char(18446744073709551616)" "char" ∧
      Declares "char(18446744073709551616)" (2 ^ 64) ∧
      ∃ text, (forType "char(18446744073709551616)").make? (BitVec.allOnes 128) =
        some (.str text) ∧ text.length = 32) ∧
    ∃ n, wordUpTo? Int64.maxValue (BitVec.allOnes 128) = some n ∧ 1 ≤ n ∧
      n ≤ Int64.maxValue := by
  have htiny : Names "\tTinyInt(3) UNSIGNED zerofill" "tinyint" :=
    (baseType_iff_names (by decide)).1 (by decide +kernel)
  have hunsigned : isUnsigned "\tTinyInt(3) UNSIGNED zerofill" = true := by decide +kernel
  have hbig : Names "BIGINT unsigned" "bigint" :=
    (baseType_iff_names (by decide)).1 (by decide +kernel)
  have hvarchar : Names "VarChar ( +08 ) binary(99)" "varchar" :=
    (baseType_iff_names (by decide)).1 (by decide +kernel)
  have hchar : Names "char(18446744073709551616)" "char" :=
    (baseType_iff_names (by decide)).1 (by decide +kernel)
  have hshort : Declares "VarChar ( +08 ) binary(99)" 8 :=
    ⟨"VarChar ".toList, " +08 ".toList, " binary(99)".toList, by decide, by decide, by decide,
      Number.integer?_trim_iff.1 (by decide +kernel)⟩
  have hhuge : Declares "char(18446744073709551616)" (2 ^ 64) :=
    ⟨"char".toList, "18446744073709551616".toList, [], by decide, by decide, by decide,
      Number.integer?_trim_iff.1 (by decide +kernel)⟩
  refine ⟨⟨htiny, ?_⟩, ⟨hbig, ?_⟩, ⟨hvarchar, hshort, ?_⟩, ⟨hchar, hhuge, ?_⟩, ?_⟩
  · obtain ⟨n, hmake, hlow, hhigh⟩ := (made_within_type _ _).1 ("tinyint", 8) (by decide) htiny
    rw [hunsigned] at hhigh
    exact ⟨n, hmake, hlow, hhigh⟩
  · exact (made_within_type _ _).2.1 "bigint" (by decide) hbig
  · obtain ⟨text, hmake, -, hlength, -⟩ :=
      (made_within_type _ _).2.2.1 "varchar" (by decide) hvarchar 8 (by decide) hshort
    exact ⟨text, hmake, hlength⟩
  · obtain ⟨text, hmake, -, hlength, -⟩ :=
      (made_within_type _ _).2.2.1 "char" (by decide) hchar _ (by decide) hhuge
    exact ⟨text, hmake, hlength⟩
  · obtain ⟨n, hmake, -, hlow, hhigh⟩ :=
      (made_within_type "" (BitVec.allOnes 128)).2.2.2 Int64.maxValue
    exact ⟨n, hmake, hlow, hhigh⟩

end IdGenerator

end TableApi
