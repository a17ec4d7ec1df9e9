/-!
# Cutting text

Qualified names are cut at dots, type tags at parentheses, parameter names at
their ending. Every cut works on the list of characters, so what the pieces are
can be read off the library's lemmas on lists.
-/

namespace TableApi.Text

/-- What stands before and after the first `mark`. -/
def cutFirst (mark : Char) (text : String) : Option (String × String) :=
  match text.toList.dropWhile (· ≠ mark) with
  | [] => none
  | _ :: after => some (String.ofList (text.toList.takeWhile (· ≠ mark)), String.ofList after)

/-- What stands before and after the last `mark`. -/
def cutLast (mark : Char) (text : String) : Option (String × String) :=
  match text.toList.reverse.dropWhile (· ≠ mark) with
  | [] => none
  | _ :: before =>
    some (String.ofList before.reverse,
      String.ofList (text.toList.reverse.takeWhile (· ≠ mark)).reverse)

/-- The pieces of a text between the marks, empty ones included. -/
def split (mark : Char) (text : String) : List String :=
  (text.toList.splitOn mark).map String.ofList

/-- What stands before `ending`, when the text ends so. -/
def dropEnding? (ending text : String) : Option String :=
  if ending.toList.isSuffixOf text.toList then
    some (String.ofList (text.toList.take (text.toList.length - ending.toList.length)))
  else none

/-- Whether `part` occurs in the characters as one run. -/
def occursIn (part : List Char) : List Char → Bool
  | [] => part.isEmpty
  | c :: rest => part.isPrefixOf (c :: rest) || occursIn part rest

/-- Whether the text contains `part`. -/
def holds (part text : String) : Bool :=
  occursIn part.toList text.toList

/-- The text with every `mark` replaced. -/
def replaceChar (mark : Char) (replacement : String) (text : String) : String :=
  String.ofList (text.toList.flatMap fun c => if c = mark then replacement.toList else [c])

/-- The text with the letters A to Z made small; other letters stay. -/
def lower (text : String) : String :=
  String.ofList (text.toList.map Char.toLower)

@[simp] theorem toList_lower (text : String) : (lower text).toList = text.toList.map Char.toLower :=
  String.toList_ofList

/-- The text with the letters a to z made large; other letters stay. -/
def upper (text : String) : String :=
  String.ofList (text.toList.map Char.toUpper)

/-! ## What the pieces are -/

/-- Behind the characters that are no mark stands a mark. -/
theorem dropWhile_ne_mark {mark c : Char} {chars rest : List Char}
    (h : chars.dropWhile (· ≠ mark) = c :: rest) : c = mark := by
  have hstop := List.head?_dropWhile_not (· ≠ mark) chars
  rw [h] at hstop
  simpa using hstop

/-- A cut at the first mark loses only that mark, and none stands before it. -/
theorem eq_of_cutFirst {mark : Char} {text before after : String}
    (h : cutFirst mark text = some (before, after)) :
    text.toList = before.toList ++ mark :: after.toList ∧ mark ∉ before.toList := by
  unfold cutFirst at h
  split at h
  · simp at h
  · next c rest hdrop =>
    simp only [Option.some.injEq, Prod.mk.injEq] at h
    obtain ⟨rfl, rfl⟩ := h
    obtain rfl := dropWhile_ne_mark hdrop
    rw [String.toList_ofList, String.toList_ofList, ← hdrop]
    refine ⟨List.takeWhile_append_dropWhile.symm, fun hmem => ?_⟩
    simpa using List.all_eq_true.1 List.all_takeWhile _ hmem

/-- A text without a mark is all that stands before the first one. -/
theorem cutFirst_append {mark : Char} {before after : String} (h : mark ∉ before.toList) :
    cutFirst mark (before ++ String.singleton mark ++ after) = some (before, after) := by
  have hchars : (before ++ String.singleton mark ++ after).toList =
      before.toList ++ mark :: after.toList := by
    simp [String.toList_append]
  have hbefore : ∀ c ∈ before.toList, decide (c ≠ mark) = true := by
    intro c hc
    simp only [ne_eq, decide_eq_true_eq]
    rintro rfl
    exact h hc
  unfold cutFirst
  rw [hchars, List.dropWhile_append_of_pos hbefore, List.takeWhile_append_of_pos hbefore]
  simp

/-- A part occurs in a text exactly when the text has it as one run. -/
theorem occursIn_iff (part chars : List Char) : occursIn part chars = true ↔ part <:+: chars := by
  induction chars with
  | nil => rw [occursIn, List.isEmpty_iff, List.infix_nil]
  | cons c rest ih =>
    rw [occursIn, Bool.or_eq_true, List.isPrefixOf_iff_prefix, ih, List.infix_cons_iff]

theorem holds_iff (part text : String) : holds part text = true ↔ part.toList <:+: text.toList :=
  occursIn_iff _ _

/-- An ending is dropped from what it was written behind. -/
theorem dropEnding?_append (text ending : String) :
    dropEnding? ending (text ++ ending) = some text := by
  simp [dropEnding?]

/-- What an ending is dropped from is what is left, with the ending behind it. -/
theorem dropEnding?_eq_some_iff {ending text front : String} :
    dropEnding? ending text = some front ↔ text = front ++ ending := by
  constructor
  · intro h
    unfold dropEnding? at h
    split at h
    · next hends =>
      obtain ⟨before, hbefore⟩ := List.isSuffixOf_iff_suffix.1 hends
      rw [← hbefore] at h
      have hfront : String.ofList before = front := by simpa using h
      rw [← hfront, ← String.toList_inj, String.toList_append, String.toList_ofList, hbefore]
    · cases h
  · rintro rfl
    exact dropEnding?_append front ending

end TableApi.Text
