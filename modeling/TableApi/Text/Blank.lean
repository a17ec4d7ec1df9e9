/-!
# Blanks

Raw parameters, column types and environment values are read with the blanks
around them removed. A blank is a character of the Unicode property
White_Space, which is wider than the blanks of ASCII.
-/

namespace TableApi.Text

/-- The code points of the Unicode property White_Space. -/
def isBlank (c : Char) : Bool :=
  let n := c.toNat
  (9 ≤ n && n ≤ 13) || n == 0x20 || n == 0x85 || n == 0xA0 || n == 0x1680 ||
    (0x2000 ≤ n && n ≤ 0x200A) || n == 0x2028 || n == 0x2029 || n == 0x202F ||
    n == 0x205F || n == 0x3000

/-- The characters with the blanks at both ends removed. -/
def trimChars (chars : List Char) : List Char :=
  ((chars.dropWhile isBlank).reverse.dropWhile isBlank).reverse

/-- The text with the blanks at both ends removed. -/
def trim (text : String) : String :=
  String.ofList (trimChars text.toList)

@[simp] theorem toList_trim (text : String) : (trim text).toList = trimChars text.toList :=
  String.toList_ofList

/-- Trimming takes nothing away but at the ends. -/
theorem trimChars_infix (chars : List Char) : trimChars chars <:+: chars := by
  have hfront : chars.dropWhile isBlank <:+: chars := (List.dropWhile_suffix _).isInfix
  have hback : trimChars chars <:+: chars.dropWhile isBlank := by
    rw [← List.reverse_infix, trimChars, List.reverse_reverse]
    exact (List.dropWhile_suffix _).isInfix
  exact hback.trans hfront

/-- No visible character of ASCII is a blank. -/
theorem isBlank_of_visible {c : Char} (hlow : 33 ≤ c.toNat) (hhigh : c.toNat ≤ 126) :
    isBlank c = false := by
  unfold isBlank
  simp only [Bool.or_eq_false_iff, Bool.and_eq_false_iff, decide_eq_false_iff_not, beq_eq_false_iff_ne]
  omega

theorem isBlank_of_isDigit {c : Char} (h : c.isDigit = true) : isBlank c = false := by
  have hbounds : 48 ≤ c.toNat ∧ c.toNat ≤ 57 := by
    simpa [Char.isDigit, UInt32.le_iff_toNat_le] using h
  exact isBlank_of_visible (by omega) (by omega)

/-- A text without blanks is trimmed already. -/
theorem trim_eq_self {text : String} (h : ∀ c ∈ text.toList, isBlank c = false) :
    trim text = text := by
  have hkeep : ∀ chars : List Char, (∀ c ∈ chars, isBlank c = false) →
      chars.dropWhile isBlank = chars := by
    intro chars hchars
    cases chars with
    | nil => rfl
    | cons c rest => rw [List.dropWhile_cons_of_neg (by simp [hchars c List.mem_cons_self])]
  rw [trim, trimChars, hkeep _ h, hkeep, List.reverse_reverse, String.ofList_toList]
  exact fun c hc => h c (List.mem_reverse.1 hc)

end TableApi.Text
