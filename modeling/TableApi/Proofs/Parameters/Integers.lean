import Mathlib.Data.List.Induction
import Mathlib.Data.List.TakeWhile
import Mathlib.Data.Nat.Digits.Defs
import TableApi.Request.ParamKind
import TableApi.Sql.Bound

/-!
# Integer parameters

A parameter of the integer kind is a decimal numeral between blanks: perhaps a sign, then at
least one digit (`Number.Numeral`). The digits count by their places, however many there are
and whatever zeros lead, so the numeral has its value before any bound is looked at. The
parameter is accepted exactly when this value fits 64 bits, signed or unsigned, and what is
bound to the statement is the value itself, as a signed integer where it fits and as an
unsigned one elsewhere (`ParamKind.integers_bound_exactly`).
-/

namespace TableApi

/-! ## Blanks around a text -/

namespace Text

theorem isBlank_of_mem_takeWhile {chars : List Char} :
    ∀ c ∈ chars.takeWhile isBlank, isBlank c = true :=
  fun _ hc => List.all_eq_true.1 List.all_takeWhile _ hc

/-- What trimming leaves stood between blanks. -/
theorem exists_blanks (chars : List Char) : ∃ lead trail,
    (∀ c ∈ lead ++ trail, isBlank c = true) ∧ chars = lead ++ trimChars chars ++ trail := by
  refine ⟨chars.takeWhile isBlank,
    ((chars.dropWhile isBlank).reverse.takeWhile isBlank).reverse, ?_, ?_⟩
  · intro c hc
    rcases List.mem_append.1 hc with hc | hc
    · exact isBlank_of_mem_takeWhile c hc
    · exact isBlank_of_mem_takeWhile c (List.mem_reverse.1 hc)
  · rw [List.append_assoc, trimChars, ← List.reverse_append, List.takeWhile_append_dropWhile,
      List.reverse_reverse, List.takeWhile_append_dropWhile]

/-- Characters that are no blanks are what is left of them between blanks. -/
theorem trimChars_between {lead chars trail : List Char}
    (hblank : ∀ c ∈ lead ++ trail, isBlank c = true) (hchars : ∀ c ∈ chars, isBlank c = false) :
    trimChars (lead ++ chars ++ trail) = chars := by
  rw [List.forall_mem_append] at hblank
  obtain ⟨hlead, htrail⟩ := hblank
  have htrail' : ∀ c ∈ trail.reverse, isBlank c = true := fun c hc => htrail c (List.mem_reverse.1 hc)
  rw [trimChars, List.append_assoc, List.dropWhile_append_of_pos hlead]
  cases chars with
  | nil =>
    rw [List.nil_append, List.dropWhile_eq_nil_iff.2 htrail]
    rfl
  | cons first rest =>
    rw [List.cons_append, List.dropWhile_cons_of_neg (by simp [hchars first List.mem_cons_self]),
      ← List.cons_append, List.reverse_append, List.dropWhile_append_of_pos htrail']
    cases hlast : (first :: rest).reverse with
    | nil => simp at hlast
    | cons last before =>
      have hmem : last ∈ first :: rest := List.mem_reverse.1 (hlast ▸ List.mem_cons_self)
      rw [List.dropWhile_cons_of_neg (by simp [hchars last hmem]), ← hlast, List.reverse_reverse]

end Text

/-! ## Numerals -/

namespace Number

/-- The value of digits by their places, the last digit counting once. -/
def placeValue (digits : List Char) : Nat :=
  Nat.ofDigits 10 (digits.reverse.map fun c => c.toNat - '0'.toNat)

/-- At least one character, and all of them ASCII digits. -/
structure IsDigits (chars : List Char) : Prop where
  some : chars ≠ []
  digit : ∀ c ∈ chars, '0' ≤ c ∧ c ≤ '9'

/-- Characters are a decimal numeral of an integer: digits behind an optional sign. -/
inductive Numeral : List Char → Int → Prop
  | bare {digits} (h : IsDigits digits) : Numeral digits (placeValue digits)
  | plus {digits} (h : IsDigits digits) : Numeral ('+' :: digits) (placeValue digits)
  | minus {digits} (h : IsDigits digits) : Numeral ('-' :: digits) (-(placeValue digits : Int))

/-- A text is a numeral of an integer with blanks around it, or none. -/
def Spells (text : String) (n : Int) : Prop :=
  ∃ lead numeral trail, (∀ c ∈ lead ++ trail, Text.isBlank c = true) ∧
    text.toList = lead ++ numeral ++ trail ∧ Numeral numeral n

theorem isDigit_iff (c : Char) : c.isDigit = true ↔ '0' ≤ c ∧ c ≤ '9' := by
  simp [Char.isDigit, Char.le_def]

/-- Reading digits from the left gives the value that they have by their places. -/
theorem ofDigits_eq_placeValue (digits : List Char) : ofDigits digits = placeValue digits := by
  induction digits using List.reverseRecOn with
  | nil => rfl
  | append_singleton digits last ih =>
    unfold ofDigits at ih ⊢
    rw [List.foldl_append, ih]
    simp only [placeValue, List.foldl_cons, List.foldl_nil, List.reverse_append,
      List.reverse_singleton, List.singleton_append, List.map_cons, Nat.ofDigits_cons]
    omega

theorem natural?_iff {chars : List Char} {n : Nat} :
    natural? chars = some n ↔ IsDigits chars ∧ placeValue chars = n := by
  rw [natural?_eq_some_iff, ofDigits_eq_placeValue, ← and_assoc]
  simp only [isDigit_iff]
  exact and_congr_left' ⟨fun h => ⟨h.1, h.2⟩, fun h => ⟨h.some, h.digit⟩⟩

/-- No sign is a digit. -/
theorem IsDigits.ne_sign {sign : Char} {rest : List Char} (h : IsDigits (sign :: rest)) :
    sign ≠ '-' ∧ sign ≠ '+' := by
  have hdigit := h.digit sign List.mem_cons_self
  constructor
  · rintro rfl
    exact absurd hdigit (by decide)
  · rintro rfl
    exact absurd hdigit (by decide)

/-- An integer is read from exactly its numerals. -/
theorem integer?_iff {text : String} {n : Int} :
    integer? text = some n ↔ Numeral text.toList n := by
  unfold integer?
  constructor
  · intro h
    split at h
    · next digits hchars =>
      cases hsize : natural? digits with
      | none => simp [hsize] at h
      | some size =>
        obtain ⟨hdigits, rfl⟩ := natural?_iff.1 hsize
        obtain rfl : -(placeValue digits : Int) = n := by simpa [hsize] using h
        exact hchars ▸ .minus hdigits
    · next digits hchars =>
      obtain ⟨size, hsize, rfl⟩ := Option.map_eq_some_iff.1 h
      obtain ⟨hdigits, rfl⟩ := natural?_iff.1 hsize
      exact hchars ▸ .plus hdigits
    · obtain ⟨size, hsize, rfl⟩ := Option.map_eq_some_iff.1 h
      obtain ⟨hdigits, rfl⟩ := natural?_iff.1 hsize
      exact .bare hdigits
  · intro h
    generalize text.toList = chars at h
    cases h with
    | minus hdigits => simp [natural?_iff.2 ⟨hdigits, rfl⟩]
    | plus hdigits => simp [natural?_iff.2 ⟨hdigits, rfl⟩]
    | bare hdigits =>
      have hread := natural?_iff.2 ⟨hdigits, rfl⟩
      split
      · exact absurd rfl hdigits.ne_sign.1
      · exact absurd rfl hdigits.ne_sign.2
      · rw [hread]
        rfl

/-- Nothing in a numeral is a blank. -/
theorem Numeral.not_blank {chars : List Char} {n : Int} (h : Numeral chars n) :
    ∀ c ∈ chars, Text.isBlank c = false := by
  have hdigits : ∀ {digits : List Char}, IsDigits digits → ∀ c ∈ digits, Text.isBlank c = false :=
    fun h c hc => Text.isBlank_of_isDigit ((isDigit_iff c).2 (h.digit c hc))
  cases h with
  | bare h => exact hdigits h
  | plus h => exact List.forall_mem_cons.2 ⟨by decide, hdigits h⟩
  | minus h => exact List.forall_mem_cons.2 ⟨by decide, hdigits h⟩

/-- An integer is read from a trimmed text exactly when the text spells it. -/
theorem integer?_trim_iff {text : String} {n : Int} :
    integer? (Text.trim text) = some n ↔ Spells text n := by
  rw [integer?_iff, Text.trim, String.toList_ofList]
  constructor
  · intro h
    obtain ⟨lead, trail, hblank, hchars⟩ := Text.exists_blanks text.toList
    exact ⟨lead, _, trail, hblank, hchars, h⟩
  · rintro ⟨lead, numeral, trail, hblank, hchars, h⟩
    rw [hchars, Text.trimChars_between hblank h.not_blank]
    exact h

end Number

/-! ## What is bound -/

namespace ParamKind

theorem value?_integer_iff {raw : String} {value : Json} :
    integer.value? raw = some value ↔
      ∃ n, Number.Spells raw n ∧ -2 ^ 63 ≤ n ∧ n < 2 ^ 64 ∧ value = .int n := by
  rw [value?, Number.integer64?_eq]
  constructor
  · intro h
    obtain ⟨n, hn, rfl⟩ := Option.map_eq_some_iff.1 h
    obtain ⟨hread, hrange⟩ := Option.filter_eq_some_iff.1 hn
    have hbounds := of_decide_eq_true hrange
    exact ⟨n, Number.integer?_trim_iff.1 hread, hbounds.1, hbounds.2, rfl⟩
  · rintro ⟨n, hspells, hlow, hhigh, rfl⟩
    refine Option.map_eq_some_iff.2 ⟨n, Option.filter_eq_some_iff.2 ⟨?_, ?_⟩, rfl⟩
    · exact Number.integer?_trim_iff.2 hspells
    · exact decide_eq_true ⟨hlow, hhigh⟩

/-- **Integers are bound exactly.** A text is accepted as an integer parameter exactly when it
spells an integer that fits 64 bits, signed or unsigned; this very integer is then bound, as a
signed one where it fits. Every other text is refused. -/
theorem integers_bound_exactly (key raw : String) :
    (∀ value, integer.read key raw = .ok value ↔
      ∃ n, Number.Spells raw n ∧ -2 ^ 63 ≤ n ∧ n < 2 ^ 64 ∧ value = .int n ∧
        Sql.Bound.ofJson value = if n < 2 ^ 63 then .signed n else .unsigned n) ∧
    ∀ fault, integer.read key raw = .error fault ↔
      fault = .badRequest (.badValue key "an integer" raw) ∧
        ∀ n, Number.Spells raw n → ¬ (-2 ^ 63 ≤ n ∧ n < 2 ^ 64) := by
  have hbound : ∀ n : Int,
      Sql.Bound.ofJson (.int n) = if n < 2 ^ 63 then .signed n else .unsigned n := fun _ => rfl
  unfold read
  cases hvalue : integer.value? raw with
  | some found =>
    obtain ⟨n, hspells, hlow, hhigh, rfl⟩ := value?_integer_iff.1 hvalue
    constructor
    · intro value
      constructor
      · intro h
        cases h
        exact ⟨n, hspells, hlow, hhigh, rfl, hbound n⟩
      · rintro ⟨m, hspells', hlow', hhigh', rfl, -⟩
        have hsame := value?_integer_iff.2 ⟨m, hspells', hlow', hhigh', rfl⟩
        rw [← Option.some.inj (hvalue.symm.trans hsame)]
    · intro fault
      constructor
      · intro h
        cases h
      · rintro ⟨-, hnone⟩
        exact absurd ⟨hlow, hhigh⟩ (hnone n hspells)
  | none =>
    have hnone : ∀ n, Number.Spells raw n → ¬ (-2 ^ 63 ≤ n ∧ n < 2 ^ 64) := by
      rintro n hspells ⟨hlow, hhigh⟩
      rw [value?_integer_iff.2 ⟨n, hspells, hlow, hhigh, rfl⟩] at hvalue
      cases hvalue
    constructor
    · intro value
      constructor
      · intro h
        cases h
      · rintro ⟨n, hspells, hlow, hhigh, -⟩
        exact absurd ⟨hlow, hhigh⟩ (hnone n hspells)
    · intro fault
      constructor
      · intro h
        cases h
        exact ⟨rfl, hnone⟩
      · rintro ⟨rfl, -⟩
        rfl

/-- The least signed integer and the greatest unsigned one are bound, with a leading zero and a
plus sign and all; the next number is refused. -/
theorem widest_integers_bound :
    (integer.read "id" "\t-09223372036854775808" = .ok (.int (-2 ^ 63)) ∧
      Sql.Bound.ofJson (.int (-2 ^ 63)) = .signed (-2 ^ 63)) ∧
    (integer.read "id" "+18446744073709551615 " = .ok (.int (2 ^ 64 - 1)) ∧
      Sql.Bound.ofJson (.int (2 ^ 64 - 1)) = .unsigned (2 ^ 64 - 1)) ∧
    integer.read "id" "18446744073709551616" =
      .error (.badRequest (.badValue "id" "an integer" "18446744073709551616")) := by
  have hleast : Number.Spells "\t-09223372036854775808" (-2 ^ 63) :=
    Number.integer?_trim_iff.1 (by decide +kernel)
  have hgreatest : Number.Spells "+18446744073709551615 " (2 ^ 64 - 1) :=
    Number.integer?_trim_iff.1 (by decide +kernel)
  have hnext : Number.Spells "18446744073709551616" (2 ^ 64) :=
    Number.integer?_trim_iff.1 (by decide +kernel)
  refine ⟨⟨?_, by decide⟩, ⟨?_, by decide⟩, ?_⟩
  · exact ((integers_bound_exactly "id" _).1 _).2 ⟨_, hleast, by decide, by decide, rfl, by decide⟩
  · exact ((integers_bound_exactly "id" _).1 _).2
      ⟨_, hgreatest, by decide, by decide, rfl, by decide⟩
  · refine ((integers_bound_exactly "id" _).2 _).2 ⟨rfl, fun n hspells hrange => ?_⟩
    have hsame := (Number.integer?_trim_iff.2 hspells).symm.trans (Number.integer?_trim_iff.2 hnext)
    obtain rfl := Option.some.inj hsame
    exact absurd hrange.2 (by decide)

end ParamKind

end TableApi
