import TableApi.Fault

/-!
# Display names

A table or a column is known to clients by a primary name and any number of
aliases. A `Name` matches a text that is one of them; two names overlap when
some text matches both, so overlapping is mutual (`overlaps_iff`,
`overlaps_comm`). The aliases are a set, kept in ascending order.
-/

namespace TableApi

/-- A primary name and its aliases, in ascending order and each once. -/
structure Name where
  primary : String
  aliases : List String := []
  deriving Repr, DecidableEq, Inhabited

namespace Name

/-- Adds a text to texts in ascending order, unless it is there. -/
def insertText : List String → String → List String
  | [], text => [text]
  | first :: rest, text =>
    if text = first then first :: rest
    else if text < first then text :: first :: rest
    else first :: insertText rest text

def addAlias (name : Name) (alt : String) : Name :=
  { name with aliases := insertText name.aliases alt }

def addAliases (name : Name) (aliases : List String) : Name :=
  aliases.foldl addAlias name

def withAliases (primary : String) (aliases : List String) : Name :=
  (⟨primary, []⟩ : Name).addAliases aliases

/-- Whether a text is the primary name or an alias. -/
def matchesText (name : Name) (text : String) : Bool :=
  name.primary == text || name.aliases.contains text

/-- Whether the other name matches the primary name or an alias of this one. -/
def overlaps (name other : Name) : Bool :=
  other.matchesText name.primary || name.aliases.any other.matchesText

/-- The name with another primary name; the aliases stay. -/
def rename (name : Name) (primary : String) : Name :=
  { name with primary }

/-- Takes an alias away; one that is not there is a fault. -/
def removeAlias (name : Name) (alt : String) : Except SchemaFault Name :=
  if name.aliases.contains alt then
    .ok { name with aliases := name.aliases.filter (· ≠ alt) }
  else .error (.unknownAlias name.primary alt)

/-- The name with `lead` in front of the primary name and of every alias. -/
def behind (name : Name) (lead : String) : Name :=
  ⟨lead ++ name.primary, name.aliases.map (lead ++ ·)⟩

/-! ## What a name answers to -/

/-- A text is added to the texts and to nothing else. -/
theorem mem_insertText (texts : List String) (text other : String) :
    other ∈ insertText texts text ↔ other = text ∨ other ∈ texts := by
  induction texts with
  | nil => simp [insertText]
  | cons first rest ih =>
    by_cases heq : text = first
    · simp [insertText, heq]
    · by_cases hlt : text < first
      · simp [insertText, heq, hlt]
      · simp only [insertText, heq, hlt, if_false, List.mem_cons, ih]
        exact or_left_comm

/-- A name answers to its primary name and its aliases. -/
theorem matchesText_iff (name : Name) (text : String) :
    name.matchesText text = true ↔ text = name.primary ∨ text ∈ name.aliases := by
  rw [matchesText, Bool.or_eq_true, beq_iff_eq, List.contains_iff_mem, eq_comm]

/-- Two names overlap exactly when some text means both. -/
theorem overlaps_iff (name other : Name) :
    name.overlaps other = true ↔
      ∃ text, name.matchesText text = true ∧ other.matchesText text = true := by
  simp only [overlaps, Bool.or_eq_true, List.any_eq_true, matchesText_iff name]
  constructor
  · rintro (h | ⟨alt, hmem, h⟩)
    · exact ⟨name.primary, .inl rfl, h⟩
    · exact ⟨alt, .inr hmem, h⟩
  · rintro ⟨text, rfl | hmem, h⟩
    · exact .inl h
    · exact .inr ⟨text, hmem, h⟩

/-- Overlapping is mutual. -/
theorem overlaps_comm (name other : Name) : name.overlaps other = other.overlaps name := by
  rw [Bool.eq_iff_iff, overlaps_iff, overlaps_iff]
  exact exists_congr fun _ => and_comm

/-- The primary name stays when aliases are added. -/
@[simp] theorem primary_addAliases (name : Name) (aliases : List String) :
    (name.addAliases aliases).primary = name.primary := by
  unfold addAliases
  induction aliases generalizing name with
  | nil => rfl
  | cons alt rest ih => exact ih (name.addAlias alt)

/-- Aliases are added in whatever order they come, and no others. -/
theorem mem_aliases_addAliases (name : Name) (aliases : List String) (text : String) :
    text ∈ (name.addAliases aliases).aliases ↔ text ∈ aliases ∨ text ∈ name.aliases := by
  unfold addAliases
  induction aliases generalizing name with
  | nil => simp
  | cons alt rest ih =>
    rw [List.foldl_cons, ih, addAlias, mem_insertText, List.mem_cons]
    exact or_left_comm.trans or_assoc.symm

/-- Added aliases are answered to, and nothing else changes. -/
theorem matchesText_addAliases (name : Name) (aliases : List String) (text : String) :
    (name.addAliases aliases).matchesText text = true ↔
      text ∈ aliases ∨ name.matchesText text = true := by
  rw [matchesText_iff, matchesText_iff, primary_addAliases, mem_aliases_addAliases]
  exact or_left_comm

theorem matchesText_primary (name : Name) : name.matchesText name.primary = true :=
  (name.matchesText_iff _).2 (.inl rfl)

/-- A text that one of two names matches is not matched by the other, unless they
overlap. -/
theorem not_matchesText_of_apart {name other : Name} (h : name.overlaps other = false)
    {text : String} (htext : name.matchesText text = true) : other.matchesText text = false := by
  rw [Bool.eq_false_iff]
  intro hother
  rw [(name.overlaps_iff other).2 ⟨text, htext, hother⟩] at h
  cases h

/-- Of things whose names do not overlap, a text names at most one. -/
theorem eq_of_matches {α : Type} {nameOf : α → Name} {items : List α}
    (h : items.Pairwise fun item other => (nameOf item).overlaps (nameOf other) = false)
    {first second : α} (hfirst : first ∈ items) (hsecond : second ∈ items) {text : String}
    (htext : (nameOf first).matchesText text = true)
    (htext' : (nameOf second).matchesText text = true) : first = second := by
  have hconfused : ∀ {item other : α}, (nameOf item).overlaps (nameOf other) = false →
      (nameOf item).matchesText text = true → (nameOf other).matchesText text = true → False := by
    intro item other hapart hitem hother
    rw [not_matchesText_of_apart hapart hitem] at hother
    cases hother
  induction items with
  | nil => cases hfirst
  | cons item rest ih =>
    obtain ⟨hitem, hrest⟩ := List.pairwise_cons.1 h
    rcases List.mem_cons.1 hfirst with rfl | hlater
    · rcases List.mem_cons.1 hsecond with rfl | hlater
      · rfl
      · exact (hconfused (hitem second hlater) htext htext').elim
    · rcases List.mem_cons.1 hsecond with rfl | hlater'
      · exact (hconfused (hitem first hlater) htext' htext).elim
      · exact ih hrest hlater hlater'

/-- Of such things, the first that a text names is the one that it names. -/
theorem find?_eq_some_iff {α : Type} {nameOf : α → Name} {items : List α}
    (h : items.Pairwise fun item other => (nameOf item).overlaps (nameOf other) = false)
    {text : String} {item : α} :
    items.find? (fun other => (nameOf other).matchesText text) = some item ↔
      item ∈ items ∧ (nameOf item).matchesText text = true := by
  constructor
  · intro hfound
    have htext := List.find?_some hfound
    exact ⟨List.mem_of_find?_eq_some hfound, htext⟩
  · rintro ⟨hitem, htext⟩
    have hsome : (items.find? fun other => (nameOf other).matchesText text).isSome = true :=
      List.find?_isSome.2 ⟨item, hitem, htext⟩
    obtain ⟨found, hfound⟩ := Option.isSome_iff_exists.1 hsome
    have hnamed := List.find?_some hfound
    rw [hfound, eq_of_matches h (List.mem_of_find?_eq_some hfound) hitem hnamed htext]

/-- A name behind a lead answers to what it answered to, behind that lead. -/
theorem matchesText_behind (name : Name) (lead text : String) :
    (name.behind lead).matchesText text = true ↔
      ∃ own, name.matchesText own = true ∧ text = lead ++ own := by
  simp only [matchesText_iff, behind, List.mem_map]
  constructor
  · rintro (rfl | ⟨own, hmem, rfl⟩)
    · exact ⟨_, .inl rfl, rfl⟩
    · exact ⟨own, .inr hmem, rfl⟩
  · rintro ⟨own, rfl | hmem, rfl⟩
    · exact .inl rfl
    · exact .inr ⟨own, hmem, rfl⟩

end Name

end TableApi
