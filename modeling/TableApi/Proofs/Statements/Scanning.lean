import TableApi.Resource.Mount
import Mathlib.Data.Nat.Digits.Defs

/-!
# Scanning SQL text

SQL text is scanned character by character. An identifier runs from a quote mark to the
next one that does not stand twice; two in a row stand for one. Outside of identifiers,
letters, digits and underscores that stand together are a word, a space separates, and
every other character is a symbol.

Scanning two texts one after the other gives the tokens of both, unless a token runs over
the boundary. None does where one of the two shows a space or a symbol there
(`scan_append`). An identifier in quotes and an alias are one token each, whatever the
identifier holds (`scan_quoted`, `scan_tableAlias`).
-/

namespace TableApi.Sql

inductive Token where
  | identifier (name : String)
  | word (text : String)
  | symbol (c : Char)
  deriving Repr, DecidableEq

/-- Where in a text the scanner is, with what it has read of a token. -/
inductive Mode where
  | between
  | word (read : List Char)
  | quoted (read : List Char)
  /-- Behind a quote mark in an identifier, which ends it unless another one follows. -/
  | closing (read : List Char)

/-- Whether a character may stand in a word. -/
def isWordChar (c : Char) : Bool :=
  c.isAlphanum || c == '_' || c == '$'

/-- Whether no token runs over a character: it is neither part of a word nor a quote mark. -/
def separates (c : Char) : Bool :=
  !isWordChar c && c ≠ quoteMark

namespace Mode

/-- The tokens that the end of the text ends. There is no end inside of quotes. -/
def finish : Mode → Option (List Token)
  | between => some []
  | word read => some [.word (String.ofList read)]
  | quoted _ => none
  | closing read => some [.identifier (String.ofList read)]

/-- A character that no token before it takes. -/
def enter (c : Char) : List Token × Mode :=
  if c = quoteMark then ([], quoted [])
  else if isWordChar c then ([], word [c])
  else if c = ' ' then ([], between)
  else ([.symbol c], between)

/-- One character: the tokens that it ends, and where the scanner is behind it. -/
def step : Mode → Char → List Token × Mode
  | between, c => enter c
  | word read, c =>
    if isWordChar c then ([], word (read ++ [c]))
    else (.word (String.ofList read) :: (enter c).1, (enter c).2)
  | quoted read, c => if c = quoteMark then ([], closing read) else ([], quoted (read ++ [c]))
  | closing read, c =>
    if c = quoteMark then ([], quoted (read ++ [c]))
    else (.identifier (String.ofList read) :: (enter c).1, (enter c).2)

/-- The tokens that end in a text, and where the scanner is behind it. -/
def run : Mode → List Char → List Token × Mode
  | mode, [] => ([], mode)
  | mode, c :: rest =>
    let (ended, next) := mode.step c
    let (others, last) := next.run rest
    (ended ++ others, last)

end Mode

/-- The tokens of characters, if these do not end inside of quotes. -/
def scanChars (chars : List Char) : Option (List Token) :=
  let (tokens, last) := Mode.between.run chars
  last.finish.map (tokens ++ ·)

/-- The tokens of a text. -/
def scan (sql : String) : Option (List Token) :=
  scanChars sql.toList

theorem scanChars_eq_some {chars : List Char} {tokens : List Token} :
    scanChars chars = some tokens ↔ ∃ pending, (Mode.between.run chars).2.finish = some pending ∧
      (Mode.between.run chars).1 ++ pending = tokens :=
  Option.map_eq_some_iff

/-! ## One text behind the other -/

namespace Mode

variable {mode : Mode} {pending : List Token} {c : Char}

theorem run_cons (mode : Mode) (c : Char) (rest : List Char) :
    mode.run (c :: rest) =
      ((mode.step c).1 ++ ((mode.step c).2.run rest).1, ((mode.step c).2.run rest).2) := rfl

theorem run_append (mode : Mode) (chars more : List Char) :
    mode.run (chars ++ more) =
      ((mode.run chars).1 ++ ((mode.run chars).2.run more).1, ((mode.run chars).2.run more).2) := by
  induction chars generalizing mode with
  | nil => rfl
  | cons c rest ih => simp only [List.cons_append, run_cons, ih, List.append_assoc]

/-- A character that separates ends what was read before. -/
theorem step_of_separates (hmode : mode.finish = some pending) (hc : separates c = true) :
    mode.step c = (pending ++ (enter c).1, between) := by
  simp only [separates, Bool.and_eq_true, Bool.not_eq_true', decide_eq_true_eq] at hc
  have henter : (enter c).2 = between := by
    unfold enter
    rw [if_neg hc.2, if_neg (by simp [hc.1])]
    split <;> rfl
  cases mode with
  | quoted read => cases hmode
  | between =>
    cases hmode
    rw [step, ← henter]
    rfl
  | word read =>
    cases hmode
    rw [step, if_neg (by simp [hc.1]), henter]
    rfl
  | closing read =>
    cases hmode
    rw [step, if_neg hc.2, henter]
    rfl

/-- Behind a character that separates, nothing is left of what was before it. -/
theorem run_of_separates (hmode : mode.finish = some pending) (hc : separates c = true)
    (rest : List Char) : mode.run (c :: rest) =
      (pending ++ (between.run (c :: rest)).1, (between.run (c :: rest)).2) := by
  have hfirst : between.step c = ([] ++ (enter c).1, between) := step_of_separates rfl hc
  rw [run_cons, run_cons, step_of_separates hmode hc, hfirst]
  simp only [List.nil_append, List.append_assoc]

end Mode

/-- A separating character at the end of a text leaves no token open. -/
theorem run_concat_of_separates {chars : List Char} {c : Char} {tokens : List Token}
    (h : scanChars (chars ++ [c]) = some tokens) (hc : separates c = true) :
    Mode.between.run (chars ++ [c]) = (tokens, .between) := by
  have hrun := Mode.run_append .between chars [c]
  obtain ⟨rest, hrest, rfl⟩ := scanChars_eq_some.1 h
  rw [hrun] at hrest ⊢
  generalize (Mode.between.run chars).2 = mode at hrest ⊢
  have hopen : ∃ pending, mode.finish = some pending := by
    cases mode with
    | quoted read =>
      simp only [separates, Bool.and_eq_true, decide_eq_true_eq] at hc
      simp [Mode.run, Mode.step, hc.2, Mode.finish] at hrest
    | _ => exact ⟨_, rfl⟩
  obtain ⟨pending, hpending⟩ := hopen
  have hlast : (mode.run [c]).2 = .between := by
    rw [Mode.run_cons, Mode.step_of_separates hpending hc]
    rfl
  rw [hlast] at hrest ⊢
  obtain rfl := Option.some.inj hrest
  rw [List.append_nil]

/-- Two texts have the tokens of the one and of the other, if the first ends or the
second begins with a character that separates, or there is none. -/
theorem scan_append {chars more : List Char} {tokens others : List Token}
    (h : scanChars chars = some tokens) (hmore : scanChars more = some others)
    (hapart : chars.getLast?.all separates = true ∨ more.head?.all separates = true) :
    scanChars (chars ++ more) = some (tokens ++ others) := by
  rcases hapart with hlast | hfirst
  · rcases List.eq_nil_or_concat chars with rfl | ⟨init, c, rfl⟩
    · obtain rfl : [] = tokens := Option.some.inj h
      exact hmore
    · rw [List.concat_eq_append] at h hlast ⊢
      rw [List.getLast?_concat, Option.all_some] at hlast
      obtain ⟨final, hfinal, rfl⟩ := scanChars_eq_some.1 hmore
      rw [scanChars_eq_some, Mode.run_append, run_concat_of_separates h hlast]
      exact ⟨final, hfinal, List.append_assoc _ _ _⟩
  · cases more with
    | nil =>
      obtain rfl : [] = others := Option.some.inj hmore
      rwa [List.append_nil, List.append_nil]
    | cons c rest =>
      rw [List.head?_cons, Option.all_some] at hfirst
      obtain ⟨pending, hpending, rfl⟩ := scanChars_eq_some.1 h
      obtain ⟨final, hfinal, rfl⟩ := scanChars_eq_some.1 hmore
      rw [scanChars_eq_some, Mode.run_append, Mode.run_of_separates hpending hfirst]
      exact ⟨final, hfinal, by simp only [List.append_assoc]⟩

/-! ## Identifiers and aliases -/

theorem run_quoted (read name : List Char) :
    (Mode.quoted read).run ((name.flatMap fun c => if c = quoteMark then [c, c] else [c]) ++
      [quoteMark]) = ([], .closing (read ++ name)) := by
  induction name generalizing read with
  | nil => simp [Mode.run, Mode.step]
  | cons c rest ih =>
    have hone := ih (read ++ [c])
    rw [List.append_assoc, List.singleton_append] at hone
    by_cases hc : c = quoteMark
    · have hfirst : (Mode.quoted read).step c = ([], .closing read) := if_pos hc
      have hsecond : (Mode.closing read).step c = ([], .quoted (read ++ [c])) := if_pos hc
      rw [List.flatMap_cons, if_pos hc, List.append_assoc, List.cons_append, List.cons_append,
        List.nil_append, Mode.run_cons, hfirst, Mode.run_cons, hsecond, hone]
      rfl
    · have hstep : (Mode.quoted read).step c = ([], .quoted (read ++ [c])) := if_neg hc
      rw [List.flatMap_cons, if_neg hc, List.append_assoc, List.cons_append, List.nil_append,
        Mode.run_cons, hstep, hone]
      rfl

/-- An identifier in quotes is read as it is, whatever it holds. -/
theorem scan_quoted (name : String) : scan (quoted name) = some [.identifier name] := by
  have hfirst : Mode.between.step quoteMark = ([], .quoted []) := rfl
  rw [scan, scanChars_eq_some, toList_quoted, List.cons_append, Mode.run_cons, hfirst, run_quoted]
  exact ⟨_, rfl, by simp⟩

theorem run_word {read chars : List Char} (h : ∀ c ∈ chars, isWordChar c = true) :
    (Mode.word read).run chars = ([], .word (read ++ chars)) := by
  induction chars generalizing read with
  | nil => simp [Mode.run]
  | cons c rest ih =>
    rw [List.forall_mem_cons] at h
    have hstep : (Mode.word read).step c = ([], .word (read ++ [c])) := if_pos h.1
    rw [Mode.run_cons, hstep, ih h.2, List.append_assoc]
    rfl

/-- The digits of a number stand in one word. -/
theorem isWordChar_of_mem_repr {n : Nat} {c : Char} (h : c ∈ n.repr.toList) :
    isWordChar c = true := by
  rw [Nat.toList_repr] at h
  have hdigit := Nat.isDigit_of_mem_toDigits (by decide) (by decide) h
  simp [isWordChar, Char.isAlphanum, hdigit]

theorem toList_tableAlias (i : Nat) : (tableAlias i).toList = 't' :: (i + 1).repr.toList := by
  rw [tableAlias, String.toList_append]
  rfl

/-- An alias is one word. -/
theorem scan_tableAlias (i : Nat) : scan (tableAlias i) = some [.word (tableAlias i)] := by
  have hfirst : Mode.between.step 't' = ([], .word ['t']) := rfl
  rw [scan, scanChars_eq_some, toList_tableAlias, Mode.run_cons, hfirst,
    run_word fun c hc => isWordChar_of_mem_repr hc]
  refine ⟨_, rfl, ?_⟩
  rw [List.singleton_append, ← toList_tableAlias, String.ofList_toList]
  rfl

end TableApi.Sql
