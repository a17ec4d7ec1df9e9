import TableApi.Proofs.Identifiers

/-!
# What generators can produce

A generator makes its values of random UUIDs, in which six bits are fixed. The low bits are
free, so that every number in the range of an integer type comes up
(`canMake_upTo_iff`); texts are told apart by their length.

`IdGenerator.fits` compares two generators by their ranges. For the generators of two
column types it says exactly whether whatever the one produces the other can produce too
(`forType_fits_iff`), which is when a value that was made for one column suits the other.
-/

namespace TableApi

/-- A generator can produce a value: it makes it of some random bits. -/
def IdGenerator.CanMake (ids : IdGenerator) (value : Json) : Prop :=
  ∃ bits, ids.make? (Uuid.ofRandom bits) = some value

/-- The length of the texts that a generator makes, if it makes texts. -/
def IdGenerator.textLength? : IdGenerator → Option Nat
  | uuid => some uuidLength
  | shortUuid length => some (min (max length 1) uuidLength)
  | upTo _ | supplied _ => none

/-- Whether the range of a generator is within that of another: for integers the largest is
compared, and texts are of one length. -/
def IdGenerator.fits : IdGenerator → IdGenerator → Bool
  | upTo top, upTo other => max top 1 ≤ max other 1
  | ids, other => ids.textLength?.isSome && ids.textLength? == other.textLength?

/-! ## Random UUIDs -/

namespace Uuid

/-- The low bits of a random UUID are the random bits. -/
theorem toNat_ofRandom {k : Nat} (h : k < 0x4000000000000000) :
    (ofRandom (BitVec.ofNat 128 k)).toNat = 0x00000000000040008000000000000000 + k := by
  have hmask : k &&& 0xFFFFFFFFFFFF0FFF3FFFFFFFFFFFFFFF = k := by
    refine Nat.eq_of_testBit_eq fun i => ?_
    rw [Nat.testBit_and]
    by_cases hi : i < 62
    · have hone : Nat.testBit 0xFFFFFFFFFFFF0FFF3FFFFFFFFFFFFFFF i = true := by
        decide +revert
      rw [hone, Bool.and_true]
    · have hpow : 2 ^ 62 ≤ 2 ^ i := Nat.pow_le_pow_right (by decide) (Nat.le_of_not_lt hi)
      have hlt : k < 2 ^ i := Nat.lt_of_lt_of_le h hpow
      rw [Nat.testBit_lt_two_pow hlt, Bool.false_and]
  have hsmall : k < 2 ^ 128 := Nat.lt_trans h (by decide)
  rw [ofRandom, BitVec.toNat_or, BitVec.toNat_and, BitVec.toNat_ofNat, Nat.mod_eq_of_lt hsmall]
  show (k &&& 0xFFFFFFFFFFFF0FFF3FFFFFFFFFFFFFFF) ||| 2 ^ 62 * 0x10002 = 2 ^ 62 * 0x10002 + k
  rw [hmask, Nat.or_comm, Nat.two_pow_add_eq_or_of_lt h]

@[simp] theorem length_hexDigits (n count : Nat) : (hexDigits n count).length = count := by
  induction count generalizing n with
  | zero => rfl
  | succ count ih => rw [hexDigits, List.length_append, ih, List.length_singleton]

@[simp] theorem length_digits (uuid : Uuid) : uuid.digits.length = IdGenerator.uuidLength :=
  length_hexDigits _ _

end Uuid

namespace IdGenerator

/-! ## Ranges -/

/-- Of every UUID an integer is made that lies between 1 and the bound. -/
theorem exists_int_make? (top : Int) (id : Uuid) :
    ∃ n, (upTo top).make? id = some (.int n) ∧ 1 ≤ n ∧ n ≤ max top 1 := by
  have hpositive : 0 < max top 1 := Int.lt_of_lt_of_le Int.zero_lt_one (Int.le_max_right _ _)
  have hlow := Int.emod_nonneg (id.toNat : Int) (Int.ne_of_gt hpositive)
  have hhigh := Int.emod_lt_of_pos (id.toNat : Int) hpositive
  exact ⟨_, rfl, by omega, by omega⟩

/-- Integers up to a number that fits a wide column are all integers from 1 to it. -/
theorem canMake_upTo_iff {top : Int} (hpositive : 1 ≤ top) (hwide : top ≤ wideMax) {value : Json} :
    (upTo top).CanMake value ↔ ∃ n, value = .int n ∧ 1 ≤ n ∧ n ≤ top := by
  have hmax : max top 1 = top := Int.max_eq_left hpositive
  have hbound : top < 2 ^ 62 := Int.lt_of_le_of_lt hwide (by decide)
  constructor
  · rintro ⟨bits, hmake⟩
    obtain ⟨n, hn, hlow, hhigh⟩ := exists_int_make? top (Uuid.ofRandom bits)
    rw [hmax] at hhigh
    exact ⟨n, Option.some.inj (hmake.symm.trans hn), hlow, hhigh⟩
  · rintro ⟨n, rfl, hlow, hhigh⟩
    -- The random bits make up for what the fixed bits leave over.
    let fixed : Int := 0x00000000000040008000000000000000
    let k := ((n - 1 - fixed) % top).toNat
    have hk : (k : Int) = (n - 1 - fixed) % top :=
      Int.toNat_of_nonneg (Int.emod_nonneg _ (by omega))
    have hsmall : (k : Int) < top := hk ▸ Int.emod_lt_of_pos _ (by omega)
    refine ⟨BitVec.ofNat 128 k, ?_⟩
    rw [make?, hmax, Uuid.toNat_ofRandom (by omega)]
    have hsum : ((0x00000000000040008000000000000000 + k : Nat) : Int) % top = n - 1 := by
      show (fixed + k) % top = n - 1
      rw [hk, Int.add_emod_emod, Int.add_comm, Int.sub_add_cancel]
      exact Int.emod_eq_of_lt (by omega) (by omega)
    rw [hsum, Int.sub_add_cancel]

/-- A generator that makes texts makes them of as many digits as they are long. -/
theorem make?_of_textLength? {ids : IdGenerator} {length : Nat}
    (h : ids.textLength? = some length) (id : Uuid) :
    ids.make? id = some (.str (String.ofList (id.digits.take length))) := by
  cases ids with
  | uuid =>
    cases h
    rw [make?, List.take_of_length_le (Nat.le_of_eq id.length_digits)]
  | shortUuid count =>
    cases h
    rw [make?, List.take_eq_take_min, Uuid.length_digits]
  | upTo | supplied => cases h

/-- So they can be told by the length. -/
theorem length_of_canMake {ids : IdGenerator} {length : Nat} (h : ids.textLength? = some length)
    {value : Json} (hvalue : ids.CanMake value) :
    ∃ text, value = .str text ∧ text.length = length := by
  obtain ⟨bits, hmake⟩ := hvalue
  rw [make?_of_textLength? h] at hmake
  refine ⟨_, (Option.some.inj hmake).symm, ?_⟩
  rw [String.length_ofList, List.length_take, Uuid.length_digits, Nat.min_eq_left]
  cases ids with
  | uuid =>
    cases h
    exact Nat.le_refl _
  | shortUuid count =>
    cases h
    exact Nat.min_le_right _ _
  | upTo | supplied => cases h

/-- A text suits only what takes texts of its length. -/
theorem fits_iff_of_textLength? {ids other : IdGenerator} {length : Nat}
    (h : ids.textLength? = some length) :
    ids.fits other = true ↔ other.textLength? = some length := by
  have hfits : ids.fits other = (ids.textLength?.isSome && ids.textLength? == other.textLength?) := by
    cases ids with
    | uuid | shortUuid => rfl
    | upTo | supplied => cases h
  rw [hfits, h, Option.isSome_some, Bool.true_and, beq_iff_eq, eq_comm]

/-- An integer does not suit what takes texts. -/
theorem not_fits_of_textLength? {other : IdGenerator} (top : Int) {length : Nat}
    (h : other.textLength? = some length) : ¬ (upTo top).fits other = true := by
  cases other with
  | uuid | shortUuid => exact Bool.false_ne_true
  | upTo | supplied => cases h

/-! ## Generators of column types -/

/-- The generator of a column type makes integers that every wide type holds, or texts. -/
theorem forType_cases (typeTag : String) :
    (∃ top, forType typeTag = .upTo top ∧ 1 ≤ top ∧ top ≤ wideMax) ∨
      ∃ length, (forType typeTag).textLength? = some length := by
  cases hinteger : isInteger typeTag with
  | true => exact .inl (forType_of_isInteger hinteger)
  | false =>
    rcases forType_of_not_isInteger hinteger with htype | ⟨length, htype⟩ <;>
      exact .inr ⟨_, by rw [htype]; rfl⟩

/-- The generator of a column type makes something of all random bits, and no object. -/
theorem exists_make?_forType (typeTag : String) (id : Uuid) :
    ∃ value, (forType typeTag).make? id = some value ∧ value.members? = none := by
  rcases forType_cases typeTag with ⟨top, htype, -⟩ | ⟨length, htext⟩
  · exact ⟨_, by rw [htype]; rfl, rfl⟩
  · exact ⟨_, make?_of_textLength? htext id, rfl⟩

/-- **When one generator suits two column types.** Whatever is made for a column type can be
made for another exactly when the range of the one generator is within that of the other. -/
theorem forType_fits_iff (typeTag other : String) :
    (forType typeTag).fits (forType other) = true ↔
      ∀ value, (forType typeTag).CanMake value → (forType other).CanMake value := by
  obtain ⟨made, hmade, -⟩ := exists_make?_forType typeTag (Uuid.ofRandom 0)
  have hmakes : (forType typeTag).CanMake made := ⟨0, hmade⟩
  rcases forType_cases typeTag with ⟨top, htype, hlow, hwide⟩ | ⟨length, htext⟩
  · rcases forType_cases other with ⟨wider, hother, hlow', hwide'⟩ | ⟨length', htext'⟩
    · rw [htype, hother, fits, decide_eq_true_eq, Int.max_eq_left hlow, Int.max_eq_left hlow']
      simp only [canMake_upTo_iff hlow hwide, canMake_upTo_iff hlow' hwide']
      constructor
      · rintro hle value ⟨n, rfl, hfrom, hto⟩
        exact ⟨n, rfl, hfrom, Int.le_trans hto hle⟩
      · intro hall
        obtain ⟨n, heq, -, hle⟩ := hall (.int top) ⟨top, rfl, hlow, Int.le_refl top⟩
        rw [Json.int.injEq] at heq
        exact heq ▸ hle
    · have hnot := not_fits_of_textLength? top htext'
      rw [← htype] at hnot
      refine iff_of_false hnot fun hall => ?_
      obtain ⟨text, rfl, -⟩ := length_of_canMake htext' (hall made hmakes)
      rw [htype, canMake_upTo_iff hlow hwide] at hmakes
      obtain ⟨n, heq, -⟩ := hmakes
      cases heq
  · rw [fits_iff_of_textLength? htext]
    constructor
    · rintro hsame value ⟨bits, hmake⟩
      exact ⟨bits, by rw [make?_of_textLength? hsame, ← make?_of_textLength? htext, hmake]⟩
    · intro hall
      obtain ⟨text, rfl, rfl⟩ := length_of_canMake htext hmakes
      rcases forType_cases other with ⟨wider, hother, hlow', hwide'⟩ | ⟨length', htext'⟩
      · have hint := hall _ hmakes
        rw [hother, canMake_upTo_iff hlow' hwide'] at hint
        obtain ⟨n, heq, -⟩ := hint
        cases heq
      · obtain ⟨same, heq, hlength⟩ := length_of_canMake htext' (hall _ hmakes)
        rw [Json.str.injEq] at heq
        rw [htext', ← hlength, heq]

end IdGenerator

end TableApi
