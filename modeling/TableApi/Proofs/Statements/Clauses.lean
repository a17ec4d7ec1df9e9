import TableApi.Proofs.Statements.Spelling
import Mathlib.Data.List.Forall2

/-!
# Clauses of a SELECT

The items of a statement are its tokens, with the values at their placeholders. They fall into
what stands in front of the word WHERE, the condition behind it, and what begins with ORDER or
LIMIT (`Clauses`).

A condition is read item by item (`Progress.step`). AND joins more closely than OR, parentheses
open and close a condition of their own, and whatever stands between these is a test. What is not
put together so has no value. Nothing is known of a test: its items are given to a function that
says whether it holds.

Tests and groups with AND between them hold when all of them do, and a group of tests with OR
between them holds when any of them does (`holds?_restriction`, `Factor.group`).
-/

namespace TableApi

namespace Sql

/-- A token of a statement that is no placeholder, or the value at one. -/
inductive Item where
  | token (token : Token)
  | value (v : Json)
  deriving Repr, DecidableEq

/-- The tokens with the values at their placeholders. There must be as many of the one as of
the other. -/
def Item.ofTokens? : List Token → List Json → Option (List Item)
  | [], values => if values.isEmpty then some [] else none
  | first :: rest, values =>
    if first = .symbol '?' then
      values.head?.bind fun v => (ofTokens? rest values.tail).map (.value v :: ·)
    else (ofTokens? rest values).map (.token first :: ·)

end Sql

/-- The items of a statement, if it can be scanned and binds a value to each placeholder. -/
def Statement.items? (statement : Statement) : Option (List Sql.Item) :=
  (Sql.scan statement.sql).bind fun tokens => Sql.Item.ofTokens? tokens statement.params

namespace Sql

/-! ## The items of a phrase -/

namespace Item

theorem ofTokens?_of_not_mem {tokens : List Token} (h : Token.symbol '?' ∉ tokens) :
    ofTokens? tokens [] = some (tokens.map .token) := by
  induction tokens with
  | nil => rfl
  | cons first rest ih =>
    rw [List.mem_cons, not_or] at h
    rw [ofTokens?, if_neg (Ne.symm h.1), ih h.2]
    rfl

theorem ofTokens?_append {tokens more : List Token} {values others : List Json}
    {items rest : List Item} (h : ofTokens? tokens values = some items)
    (hmore : ofTokens? more others = some rest) :
    ofTokens? (tokens ++ more) (values ++ others) = some (items ++ rest) := by
  induction tokens generalizing values items with
  | nil =>
    cases values with
    | nil =>
      cases h
      exact hmore
    | cons v values => cases h
  | cons first tokens ih =>
    rw [ofTokens?] at h
    rw [List.cons_append, ofTokens?]
    split at h
    · next hplaceholder =>
      rw [if_pos hplaceholder]
      cases values with
      | nil => cases h
      | cons v values =>
        obtain ⟨read, hread, rfl⟩ := Option.map_eq_some_iff.1 h
        have hrest : ofTokens? (tokens ++ more) (values ++ others) = some (read ++ rest) := ih hread
        show (ofTokens? (tokens ++ more) (values ++ others)).map _ = _
        rw [hrest]
        rfl
    · next hplain =>
      rw [if_neg hplain]
      obtain ⟨read, hread, rfl⟩ := Option.map_eq_some_iff.1 h
      rw [ih hread]
      rfl

end Item

/-- A text is scanned as tokens, with no placeholder among them. -/
structure Plain (words : String) (tokens : List Token) : Prop where
  scanned : scan words = some tokens
  unbound : tokens.contains (.symbol '?') = false

namespace Phrase

/-- The items of the statement that a phrase spells. -/
def Reads (phrase : Phrase) (items : List Item) : Prop :=
  (statement phrase).items? = some items

namespace Reads

variable {phrase other : Phrase} {items rest : List Item}

theorem nil : Reads [] [] := rfl

/-- Phrases are read one after the other where no token runs over the boundary. -/
theorem append (h : Reads phrase items) (hother : Reads other rest)
    (hapart : closes phrase = true ∨ opens other = true) :
    Reads (phrase ++ other) (items ++ rest) := by
  obtain ⟨tokens, hscan, hitems⟩ := Option.bind_eq_some_iff.1 h
  obtain ⟨more, hscanOther, hrest⟩ := Option.bind_eq_some_iff.1 hother
  refine Option.bind_eq_some_iff.2 ⟨tokens ++ more, ?_, ?_⟩
  · rw [sql_statement_append, scan, String.toList_append]
    exact scan_append hscan hscanOther (hapart.imp separates_of_closes separates_of_opens)
  · rw [params_statement_append]
    exact Item.ofTokens?_append hitems hrest

theorem name (identifier : String) :
    Reads [.name identifier] [.token (.identifier identifier)] := by
  refine Option.bind_eq_some_iff.2 ⟨[.identifier identifier], ?_, rfl⟩
  simpa [Piece.sql] using scan_quoted identifier

theorem value (v : Json) : Reads [.value v] [.value v] := by
  have hscan : scan "?" = some [.symbol '?'] := rfl
  exact Option.bind_eq_some_iff.2 ⟨_, hscan, rfl⟩

/-- A text in which no value is bound. -/
theorem text (words : String) (tokens : List Token) (h : Plain words tokens) :
    Reads [.text words] (tokens.map .token) := by
  refine Option.bind_eq_some_iff.2 ⟨tokens, ?_, Item.ofTokens?_of_not_mem ?_⟩
  · simpa [Piece.sql] using h.scanned
  · simpa using h.unbound

/-- A text in front of a phrase. -/
theorem lead (words : String) (tokens : List Token) (h : Reads phrase items)
    (hplain : Plain words tokens) (hcloses : (Piece.text words).closes = true) :
    Reads (.text words :: phrase) (tokens.map .token ++ items) :=
  (text words tokens hplain).append h (.inl hcloses)

/-- A text between two phrases. -/
theorem glue (words : String) (tokens : List Token) (h : Reads phrase items)
    (hother : Reads other rest) (hplain : Plain words tokens)
    (hopens : (Piece.text words).opens = true) (hcloses : (Piece.text words).closes = true) :
    Reads (phrase ++ .text words :: other) (items ++ (tokens.map .token ++ rest)) :=
  h.append (hother.lead words tokens hplain hcloses) (.inr hopens)

/-- Phrases of members, each with its items. -/
theorem map {α : Type} {spelled : α → Phrase} {read : α → List Item} {members : List α}
    (h : ∀ member ∈ members, Reads (spelled member) (read member)) :
    List.Forall₂ Reads (members.map spelled) (members.map read) := by
  rw [List.forall₂_map_left_iff, List.forall₂_map_right_iff, List.forall₂_same]
  exact h

/-- Phrases with a text between each two of them. -/
theorem joined {phrases : List Phrase} {read : List (List Item)} (words : String)
    (tokens : List Token) (h : List.Forall₂ Reads phrases read) (hplain : Plain words tokens)
    (hopens : (Piece.text words).opens = true) (hcloses : (Piece.text words).closes = true) :
    Reads (Phrase.joined words phrases) ((tokens.map .token).intercalate read) := by
  induction h with
  | nil => exact nil
  | cons hfirst hothers ih =>
    cases hothers with
    | nil => simpa [Phrase.joined] using hfirst
    | cons hnext hrest =>
      have hall := hfirst.glue words tokens ih hplain hopens hcloses
      rw [← List.append_assoc] at hall
      rw [List.intercalate_cons_cons]
      exact hall

end Reads

end Phrase

/-! ## Clauses -/

/-- What an item is there for in a SELECT. -/
inductive Role where
  | conjunction
  | alternative
  | opening
  | closing
  /-- Begins the condition. -/
  | restricts
  /-- Ends the condition. -/
  | ends
  | part
  deriving DecidableEq

def Item.role : Item → Role
  | .token (.word text) =>
    if text = "AND" then .conjunction
    else if text = "OR" then .alternative
    else if text = "WHERE" then .restricts
    else if text = "ORDER" ∨ text = "LIMIT" then .ends
    else .part
  | .token (.symbol c) => if c = '(' then .opening else if c = ')' then .closing else .part
  | _ => .part

/-- The items of a SELECT in front of its condition, those of the condition, and those behind. -/
structure Clauses where
  front : List Item
  condition : Option (List Item)
  back : List Item

namespace Clauses

/-- The items in front of the first of a role, and those from it on. -/
def cut (role : Role) (items : List Item) : List Item × List Item :=
  (items.takeWhile fun item => item.role ≠ role, items.dropWhile fun item => item.role ≠ role)

/-- The clauses of items, cut at the first that ends a condition, and at the first in front
of it that begins one. -/
def ofItems (items : List Item) : Clauses :=
  let (main, back) := cut .ends items
  match cut .restricts main with
  | (front, []) => ⟨front, none, back⟩
  | (front, _ :: condition) => ⟨front, some condition, back⟩

/-- The items that clauses are made of. -/
def items (clauses : Clauses) : List Item :=
  clauses.front ++ clauses.condition.elim [] (.token (.word "WHERE") :: ·) ++ clauses.back

theorem cut_append {role : Role} {front back : List Item} (h : ∀ item ∈ front, item.role ≠ role)
    (hback : ∀ item ∈ back.head?, item.role = role) : cut role (front ++ back) = (front, back) := by
  have hkeep : ∀ item ∈ front, decide (item.role ≠ role) = true := by simpa using h
  rw [cut, List.takeWhile_append_of_pos hkeep, List.dropWhile_append_of_pos hkeep]
  cases back with
  | nil => simp
  | cons item rest =>
    have hrole : item.role = role := hback item rfl
    simp [hrole]

/-- Clauses are cut where they were put together. -/
theorem ofItems_items {clauses : Clauses} (hfront : ∀ item ∈ clauses.front, item.role = .part)
    (hcondition : ∀ items, clauses.condition = some items → ∀ item ∈ items, item.role ≠ .ends)
    (hback : ∀ item ∈ clauses.back.head?, item.role = .ends) : ofItems clauses.items = clauses := by
  obtain ⟨front, condition, back⟩ := clauses
  have hmain : ∀ item ∈ front ++ condition.elim [] (.token (.word "WHERE") :: ·),
      item.role ≠ .ends := by
    intro item hitem
    rcases List.mem_append.1 hitem with hitem | hitem
    · rw [hfront item hitem]
      decide
    · cases condition with
      | none => cases hitem
      | some items =>
        rcases List.mem_cons.1 hitem with rfl | hitem
        · decide
        · exact hcondition items rfl item hitem
  have hbefore : ∀ item ∈ front, item.role ≠ .restricts := by
    intro item hitem
    rw [hfront item hitem]
    decide
  rw [ofItems, items, cut_append hmain hback]
  cases condition with
  | none =>
    have hcut : cut .restricts (front ++ []) = (front, []) := cut_append hbefore nofun
    simp only [Option.elim_none, hcut]
  | some items =>
    have hwhere : ∀ item ∈ (Item.token (.word "WHERE") :: items).head?, item.role = .restricts := by
      rintro item ⟨⟩
      decide
    simp only [Option.elim_some, cut_append hbefore hwhere]

end Clauses

/-! ## Reading a condition -/

/-- The alternatives of a condition up to some item. -/
structure Level where
  /-- Whether one of those that are complete holds. -/
  earlier : Bool := false
  /-- Whether the last one holds so far. -/
  current : Bool := true

namespace Level

/-- Whether the condition holds when its last term does or does not. -/
def value (level : Level) (last : Bool) : Bool :=
  level.earlier || level.current && last

def conjoin (level : Level) (last : Bool) : Level :=
  { level with current := level.current && last }

def alternate (level : Level) (last : Bool) : Level :=
  ⟨level.value last, true⟩

end Level

/-- What is read of a term. -/
inductive Term where
  | missing
  | test (read : List Item)
  | group (holds : Bool)

/-- Where in a condition the reader is: in a term at some level, inside of others. -/
structure Progress where
  level : Level := {}
  term : Term := .missing
  outer : List Level := []

section Reading

variable (test : List Item → Bool)

def Term.holds? : Term → Option Bool
  | missing => none
  | .test read => some (test read)
  | group holds => some holds

namespace Progress

def step (progress : Progress) (item : Item) : Option Progress :=
  match item.role with
  | .conjunction => (progress.term.holds? test).map fun last =>
      { progress with level := progress.level.conjoin last, term := .missing }
  | .alternative => (progress.term.holds? test).map fun last =>
      { progress with level := progress.level.alternate last, term := .missing }
  | .opening => match progress.term with
    | .missing => some ⟨{}, .missing, progress.level :: progress.outer⟩
    | _ => none
  | .closing => match progress.outer with
    | level :: outer => (progress.term.holds? test).map fun last =>
        ⟨level, .group (progress.level.value last), outer⟩
    | [] => none
  | .part => match progress.term with
    | .missing => some { progress with term := .test [item] }
    | .test read => some { progress with term := .test (read ++ [item]) }
    | .group _ => none
  | .restricts | .ends => none

def run (progress : Progress) (items : List Item) : Option Progress :=
  items.foldlM (step test) progress

end Progress

/-- Whether a condition holds, if it is one. -/
def condition? (items : List Item) : Option Bool :=
  (Progress.run test {} items).bind fun last =>
    if last.outer.isEmpty then (last.term.holds? test).map last.level.value else none

/-- Whether the rows of a SELECT are those for which tests hold. -/
def Clauses.holds? (clauses : Clauses) : Option Bool :=
  clauses.condition.elim (some true) (condition? test)

/-! ## Tests, conjunctions and groups -/

variable {test : List Item → Bool}

namespace Progress

theorem run_cons (progress : Progress) (item : Item) (rest : List Item) :
    run test progress (item :: rest) =
      (step test progress item).bind fun next => run test next rest :=
  rfl

theorem run_append (progress : Progress) (items rest : List Item) :
    run test progress (items ++ rest) =
      (run test progress items).bind fun next => run test next rest :=
  List.foldlM_append

section Steps

variable {term : Term} {holds : Bool} (level : Level) (outer : List Level)

theorem step_and (h : term.holds? test = some holds) :
    step test ⟨level, term, outer⟩ (.token (.word "AND")) =
      some ⟨level.conjoin holds, .missing, outer⟩ := by
  show (term.holds? test).map _ = _
  rw [h]
  rfl

theorem step_or (h : term.holds? test = some holds) :
    step test ⟨level, term, outer⟩ (.token (.word "OR")) =
      some ⟨level.alternate holds, .missing, outer⟩ := by
  show (term.holds? test).map _ = _
  rw [h]
  rfl

theorem step_close (own : Level) (h : term.holds? test = some holds) :
    step test ⟨own, term, level :: outer⟩ (.token (.symbol ')')) =
      some ⟨level, .group (own.value holds), outer⟩ := by
  show (term.holds? test).map _ = _
  rw [h]
  rfl

end Steps

/-- Behind the first item of a test, the others are read along with it. -/
theorem run_test {items : List Item} (h : ∀ item ∈ items, item.role = .part) (level : Level)
    (read : List Item) (outer : List Level) :
    run test ⟨level, .test read, outer⟩ items = some ⟨level, .test (read ++ items), outer⟩ := by
  induction items generalizing read with
  | nil =>
    rw [List.append_nil]
    rfl
  | cons item rest ih =>
    rw [List.forall_mem_cons] at h
    have hstep : step test ⟨level, .test read, outer⟩ item =
        some ⟨level, .test (read ++ [item]), outer⟩ := by
      rw [step, h.1]
    rw [run_cons, hstep, Option.bind_some, ih h.2, List.append_assoc]
    rfl

/-- A condition is never read over an item that ends it. -/
theorem role_of_run {progress last : Progress} {items : List Item}
    (h : run test progress items = some last) : ∀ item ∈ items, item.role ≠ .ends := by
  induction items generalizing progress with
  | nil => nofun
  | cons item rest ih =>
    rw [run_cons] at h
    obtain ⟨next, hstep, hrest⟩ := Option.bind_eq_some_iff.1 h
    rw [List.forall_mem_cons]
    refine ⟨fun hends => ?_, ih hrest⟩
    rw [step, hends] at hstep
    cases hstep

end Progress

open Progress (run step)

/-- Items with a value, which are read wherever a term is missing and change nothing else. -/
def Factor (test : List Item → Bool) (items : List Item) (holds : Bool) : Prop :=
  ∀ level outer, ∃ term, run test ⟨level, .missing, outer⟩ items = some ⟨level, term, outer⟩ ∧
    term.holds? test = some holds

/-- Items that are nothing but parts of a test have the value of the test. -/
theorem Factor.of_parts {items : List Item} (hsome : items ≠ [])
    (h : ∀ item ∈ items, item.role = .part) : Factor test items (test items) := by
  intro level outer
  obtain ⟨item, rest, rfl⟩ := List.exists_cons_of_ne_nil hsome
  rw [List.forall_mem_cons] at h
  have hstep : step test ⟨level, .missing, outer⟩ item = some ⟨level, .test [item], outer⟩ := by
    rw [step, h.1]
  refine ⟨.test (item :: rest), ?_, rfl⟩
  rw [Progress.run_cons, hstep, Option.bind_some, Progress.run_test h.2]
  rfl

/-- Factors with an item between each two of them: it takes the value of the one before. -/
theorem run_intercalate {between : Item} {next : Level → Bool → Level}
    (hstep : ∀ {term holds} level outer, term.holds? test = some holds →
      step test ⟨level, term, outer⟩ between = some ⟨next level holds, .missing, outer⟩)
    {first : List (List Item × Bool)} {last : List Item × Bool}
    (h : ∀ factor ∈ first ++ [last], Factor test factor.1 factor.2) (level : Level)
    (outer : List Level) :
    ∃ term, run test ⟨level, .missing, outer⟩
        ([between].intercalate ((first ++ [last]).map Prod.fst)) =
        some ⟨(first.map Prod.snd).foldl next level, term, outer⟩ ∧
      term.holds? test = some last.2 := by
  induction first generalizing level with
  | nil =>
    rw [List.nil_append, List.map_singleton, List.intercalate_singleton]
    exact h last List.mem_cons_self level outer
  | cons factor rest ih =>
    rw [List.cons_append, List.forall_mem_cons] at h
    obtain ⟨term, hrun, hholds⟩ := h.1 level outer
    obtain ⟨final, hrest, hlast⟩ := ih h.2 (next level factor.2)
    refine ⟨final, ?_, hlast⟩
    -- There is always a factor behind this one, so the item in between is read.
    obtain ⟨second, others, hcons⟩ : ∃ second others, (rest ++ [last]).map Prod.fst =
        second :: others :=
      List.exists_cons_of_ne_nil (by simp)
    rw [hcons] at hrest
    rw [List.cons_append, List.map_cons, hcons, List.intercalate_cons_cons, List.append_assoc,
      Progress.run_append, hrun, Option.bind_some, List.singleton_append, Progress.run_cons,
      hstep level outer hholds, Option.bind_some, hrest]
    rfl

theorem foldl_conjoin (all : List Bool) (level : Level) :
    all.foldl Level.conjoin level = ⟨level.earlier, level.current && all.all id⟩ := by
  induction all generalizing level with
  | nil => simp
  | cons holds rest ih =>
    rw [List.foldl_cons, ih, Level.conjoin, Bool.and_assoc]
    rfl

theorem foldl_alternate (any : List Bool) (earlier : Bool) :
    any.foldl Level.alternate ⟨earlier, true⟩ = ⟨earlier || any.any id, true⟩ := by
  induction any generalizing earlier with
  | nil => simp
  | cons holds rest ih =>
    rw [List.foldl_cons, Level.alternate, Level.value, Bool.true_and, ih, Bool.or_assoc]
    rfl

/-- A group of factors with OR between them holds when any of them does. -/
theorem Factor.group {factors : List (List Item × Bool)} (hsome : factors ≠ [])
    (h : ∀ factor ∈ factors, Factor test factor.1 factor.2) :
    Factor test (.token (.symbol '(') ::
        ([.token (.word "OR")].intercalate (factors.map Prod.fst) ++ [.token (.symbol ')')]))
      (factors.any Prod.snd) := by
  intro level outer
  rcases List.eq_nil_or_concat factors with rfl | ⟨first, last, rfl⟩
  · exact absurd rfl hsome
  rw [List.concat_eq_append] at h ⊢
  obtain ⟨term, hrun, hholds⟩ := run_intercalate Progress.step_or h {} (level :: outer)
  rw [foldl_alternate] at hrun
  have hopen : step test ⟨level, .missing, outer⟩ (.token (.symbol '(')) =
      some ⟨{}, .missing, level :: outer⟩ := rfl
  have hclose := Progress.step_close level outer ⟨false || (first.map Prod.snd).any id, true⟩ hholds
  refine ⟨.group (Level.value ⟨false || (first.map Prod.snd).any id, true⟩ last.2), ?_, ?_⟩
  · rw [Progress.run_cons, hopen, Option.bind_some, Progress.run_append, hrun, Option.bind_some,
      Progress.run_cons, hclose]
    rfl
  · rw [Term.holds?, List.any_append, List.any_map]
    simp [Level.value]

/-- The condition that factors make with AND between them; there is none without factors. -/
def restriction : List (List Item) → Option (List Item)
  | [] => none
  | factors => some ([.token (.word "AND")].intercalate factors)

/-- A condition with a value holds no item that ends it. -/
theorem Clauses.role_of_holds? {clauses : Clauses} {holds : Bool}
    (h : clauses.holds? test = some holds) {items : List Item}
    (hcondition : clauses.condition = some items) : ∀ item ∈ items, item.role ≠ .ends := by
  rw [Clauses.holds?, hcondition, Option.elim_some] at h
  obtain ⟨last, hrun, -⟩ := Option.bind_eq_some_iff.1 h
  exact Progress.role_of_run hrun

/-- Factors with AND between them hold when all of them do. -/
theorem holds?_restriction {factors : List (List Item × Bool)}
    (h : ∀ factor ∈ factors, Factor test factor.1 factor.2) (front back : List Item) :
    Clauses.holds? test ⟨front, restriction (factors.map Prod.fst), back⟩ =
      some (factors.all Prod.snd) := by
  rcases List.eq_nil_or_concat factors with rfl | ⟨first, last, rfl⟩
  · rfl
  rw [List.concat_eq_append] at h ⊢
  obtain ⟨term, hrun, hholds⟩ := run_intercalate Progress.step_and h {} []
  rw [foldl_conjoin] at hrun
  have hcondition : restriction ((first ++ [last]).map Prod.fst) =
      some ([.token (.word "AND")].intercalate ((first ++ [last]).map Prod.fst)) := by
    unfold restriction
    split
    · next hnil => simp at hnil
    · rfl
  rw [Clauses.holds?, hcondition, Option.elim_some, condition?, hrun, Option.bind_some, hholds,
    List.all_append]
  simp [Level.value, List.all_map]

end Reading

end Sql

/-- The clauses of a statement. -/
def Statement.clauses? (statement : Statement) : Option Sql.Clauses :=
  statement.items?.map Sql.Clauses.ofItems

end TableApi
