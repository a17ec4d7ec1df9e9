/-!
# Integers in decimal digits

An integer is written as an optional sign and at least one ASCII digit, and is
read only when it lies in the range its place asks for. Leading zeros, a plus
sign and a negative zero are all allowed.

Where the place is one of 64 bits, a text is read as a signed integer first and
then as one without a sign bit (`integer64?`). Together the two readings are one,
over the range that they span: `integer64?_eq`.
-/

namespace TableApi.Number

/-- A signed 64-bit integer is at least the negative of this number and below it. -/
def signedBound : Nat := 0x8000000000000000

/-- The value of a run of digits, most significant first. -/
def ofDigits (digits : List Char) : Nat :=
  digits.foldl (fun n c => 10 * n + (c.toNat - '0'.toNat)) 0

/-- The value of a nonempty run of ASCII digits. -/
def natural? (chars : List Char) : Option Nat :=
  if !chars.isEmpty && chars.all Char.isDigit then some (ofDigits chars) else none

/-- A number is read exactly from at least one character, all of them digits. -/
theorem natural?_eq_some_iff (chars : List Char) (n : Nat) :
    natural? chars = some n ↔
      chars ≠ [] ∧ (∀ c ∈ chars, c.isDigit = true) ∧ ofDigits chars = n := by
  unfold natural?
  cases chars with
  | nil => simp
  | cons c rest =>
    by_cases h : (c :: rest).all Char.isDigit = true
    · have hall := List.all_eq_true.1 h
      simp only [List.isEmpty_cons, Bool.not_false, Bool.true_and, h, if_true,
        Option.some.injEq, ne_eq, reduceCtorEq, not_false_eq_true, true_and]
      exact ⟨fun hn => ⟨hall, hn⟩, fun hn => hn.2⟩
    · simp only [List.isEmpty_cons, Bool.not_false, Bool.true_and, h, Bool.false_eq_true,
        if_false, reduceCtorEq, ne_eq, not_false_eq_true, true_and, false_iff, not_and]
      exact fun hall => absurd (List.all_eq_true.2 hall) h

/-- The digits of a number are read as the number. -/
theorem natural?_toDigits (n : Nat) : natural? (Nat.toDigits 10 n) = some n := by
  rw [natural?_eq_some_iff]
  refine ⟨Nat.toDigits_ne_nil, fun c hc => ?_, ?_⟩
  · exact Nat.isDigit_of_mem_toDigits (by decide) (by decide) hc
  · rw [ofDigits, ← Nat.ofDigitChars_eq_foldl, Nat.ofDigitChars_ten_toDigits]

/-- The value of digits behind an optional sign. -/
def integer? (text : String) : Option Int :=
  match text.toList with
  | '-' :: digits => (natural? digits).map fun n : Nat => -(n : Int)
  | '+' :: digits => (natural? digits).map Int.ofNat
  | digits => (natural? digits).map Int.ofNat

/-- An integer from `low` up to, and without, `bound`. -/
def integerIn? (low bound : Int) (text : String) : Option Int :=
  (integer? text).filter fun n => decide (low ≤ n ∧ n < bound)

theorem bounds_of_integerIn? {low bound : Int} {text : String} {n : Int}
    (h : integerIn? low bound text = some n) : low ≤ n ∧ n < bound := by
  simpa using (Option.filter_eq_some_iff.1 h).2

/-- The digits of an integer, behind a minus sign if it is negative, are read as the integer. -/
theorem integer?_repr (n : Int) : integer? n.repr = some n := by
  cases n with
  | ofNat n =>
    have hchars : (Int.ofNat n).repr.toList = Nat.toDigits 10 n := Nat.toList_repr
    have hread : ∀ c rest, Nat.toDigits 10 n = c :: rest → c ≠ '-' ∧ c ≠ '+' := by
      intro c rest heq
      have hdigit : c.isDigit = true :=
        Nat.isDigit_of_mem_toDigits (by decide) (by decide) (heq ▸ List.mem_cons_self)
      constructor
      · rintro rfl
        exact absurd hdigit (by decide)
      · rintro rfl
        exact absurd hdigit (by decide)
    unfold integer?
    rw [hchars]
    split
    · next heq => exact absurd rfl (hread _ _ heq).1
    · next heq => exact absurd rfl (hread _ _ heq).2
    · rw [natural?_toDigits]
      rfl
  | negSucc n =>
    have hchars : (Int.negSucc n).repr.toList = '-' :: Nat.toDigits 10 (n + 1) := by
      show ("-" ++ Nat.repr (n + 1)).toList = _
      rw [String.toList_append, Nat.toList_repr]
      rfl
    rw [integer?, hchars]
    simp only [natural?_toDigits]
    rfl

/-- The value, below `bound`, of digits behind an optional plus sign. -/
def naturalBelow? (bound : Nat) (text : String) : Option Nat :=
  let value := match text.toList with
    | '+' :: digits => natural? digits
    | digits => natural? digits
  value.filter fun n => decide (n < bound)

/-- The digits of a number below the bound are read as the number. -/
theorem naturalBelow?_repr {bound n : Nat} (h : n < bound) :
    naturalBelow? bound n.repr = some n := by
  have hread : (match n.repr.toList with
      | '+' :: digits => natural? digits
      | digits => natural? digits) = some n := by
    rw [Nat.toList_repr]
    split
    · next digits heq =>
      have hdigit : '+'.isDigit = true :=
        Nat.isDigit_of_mem_toDigits (by decide) (by decide) (heq ▸ List.mem_cons_self)
      exact absurd hdigit (by decide)
    · exact natural?_toDigits n
  rw [naturalBelow?, hread, Option.filter_some, if_pos (decide_eq_true h)]

/-! ## Integers of 64 bits -/

/-- The value of a 64-bit integer: a signed one or, where the text is none, one without a sign
bit, which takes no minus sign. -/
def integer64? (text : String) : Option Int :=
  (integerIn? (-(signedBound : Int)) signedBound text).or
    ((naturalBelow? UInt64.size text).map Int.ofNat)

/-- A number without a minus sign is read as a signed integer or, from the bound of these on, as
one without a sign bit. -/
theorem or_filter_natural {low : Int} (hlow : low ≤ 0) {bound size : Nat} (hle : bound ≤ size)
    (value : Option Nat) :
    ((value.map Int.ofNat).filter fun n => decide (low ≤ n ∧ n < bound)).or
        ((value.filter fun n => decide (n < size)).map Int.ofNat) =
      (value.map Int.ofNat).filter fun n => decide (low ≤ n ∧ n < size) := by
  cases value with
  | none => rfl
  | some n =>
    have hsigned : low ≤ (n : Int) := Int.le_trans hlow (Int.natCast_nonneg n)
    by_cases hbound : n < bound
    · have hsize : n < size := Nat.lt_of_lt_of_le hbound hle
      simp [Option.filter, hsigned, hbound, hsize]
    · by_cases hsize : n < size <;> simp [Option.filter, hsigned, hbound, hsize]

/-- Nothing negative is read without a sign bit, and every bound is above it. -/
theorem or_filter_negative (low : Int) {bound size : Nat} (hbound : 0 < bound)
    (hle : bound ≤ size) (value : Option Nat) :
    ((value.map fun n : Nat => -(n : Int)).filter fun n => decide (low ≤ n ∧ n < bound)).or none =
      (value.map fun n : Nat => -(n : Int)).filter fun n => decide (low ≤ n ∧ n < size) := by
  rw [Option.or_none]
  cases value with
  | none => rfl
  | some n =>
    have hrange : low ≤ -(n : Int) ∧ -(n : Int) < bound ↔ low ≤ -(n : Int) ∧ -(n : Int) < size := by
      omega
    rw [Option.map_some, Option.filter_some, Option.filter_some, decide_eq_decide.2 hrange]

/-- The two readings of a 64-bit integer accept the integers of one range, from the least signed
one to the largest without a sign bit, and read each as itself. -/
theorem integer64?_eq (text : String) :
    integer64? text = integerIn? (-(signedBound : Int)) UInt64.size text := by
  have hlow : -(signedBound : Int) ≤ 0 := by decide
  have hbound : 0 < signedBound := by decide
  have hle : signedBound ≤ UInt64.size := by decide
  unfold integer64? integerIn? naturalBelow? integer?
  cases text.toList with
  | nil => rfl
  | cons first digits =>
    by_cases hminus : first = '-'
    · subst hminus
      -- A minus sign is no digit, so that only a signed integer is read behind it.
      exact or_filter_negative _ hbound hle (natural? digits)
    · by_cases hplus : first = '+'
      · subst hplus
        exact or_filter_natural hlow hle (natural? digits)
      · split
        · next heq => exact absurd (List.cons.inj heq).1 hminus
        · next heq => exact absurd (List.cons.inj heq).1 hplus
        · split
          · next heq => exact absurd (List.cons.inj heq).1 hplus
          · exact or_filter_natural hlow hle _

end TableApi.Number
