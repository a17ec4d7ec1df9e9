import TableApi.Json
import TableApi.Text.Cut

/-!
# Statements

A statement is SQL text with a question mark for each value, and the values in
order. Text is only ever written from three kinds of pieces: fixed words, quoted
identifiers and placeholders. A `Phrase` is a list of such pieces; its statement
is the text they spell and the values they carry. Since a value contributes a
question mark whatever it is, no value can reach the text.
-/

namespace TableApi

/-- SQL text with placeholders, and the values bound to them in order. -/
structure Statement where
  sql : String := ""
  params : List Json := []
  deriving Repr, DecidableEq, Inhabited

namespace Statement

def write (s : Statement) (text : String) : Statement :=
  { s with sql := s.sql ++ text }

/-- Writes a placeholder and binds a value to it. -/
def bind (s : Statement) (value : Json) : Statement :=
  ⟨s.sql ++ "?", s.params ++ [value]⟩

/-- Writes another statement behind this one. -/
def append (s other : Statement) : Statement :=
  ⟨s.sql ++ other.sql, s.params ++ other.params⟩

def isEmpty (s : Statement) : Bool :=
  s.sql.isEmpty

end Statement

namespace Sql

/-- The character that identifiers are quoted with. -/
def quoteMark : Char := '\x60'

/-- An identifier in quotes; a quote inside it is written twice. -/
def quoted (name : String) : String :=
  String.ofList (quoteMark ::
    (name.toList.flatMap fun c => if c = quoteMark then [c, c] else [c]) ++ [quoteMark])

/-- A quoted identifier stands between two quotes. -/
theorem toList_quoted (name : String) :
    (quoted name).toList = quoteMark ::
      (name.toList.flatMap fun c => if c = quoteMark then [c, c] else [c]) ++ [quoteMark] := by
  simp [quoted]

inductive Piece where
  /-- Fixed words and punctuation. -/
  | text (words : String)
  /-- An identifier, written in quotes. -/
  | name (identifier : String)
  /-- A value, written as a placeholder. -/
  | value (v : Json)
  deriving Repr, DecidableEq, Inhabited

def Piece.sql : Piece → String
  | text words => words
  | name identifier => quoted identifier
  | value _ => "?"

def Piece.params : Piece → List Json
  | value v => [v]
  | _ => []

abbrev Phrase : Type := List Piece

namespace Phrase

def statement (phrase : Phrase) : Statement :=
  ⟨String.join (phrase.map Piece.sql), phrase.flatMap Piece.params⟩

/-- Phrases with fixed words between them. -/
def joined (between : String) : List Phrase → Phrase
  | [] => []
  | [phrase] => phrase
  | phrase :: rest => phrase ++ .text between :: joined between rest

def tableName (database table : String) : Phrase :=
  [.name database, .text ".", .name table]

/-- A phrase in two parts spells one part and then the other. -/
theorem statement_append (phrase other : Phrase) :
    statement (phrase ++ other) = (statement phrase).append (statement other) := by
  simp [statement, Statement.append, String.join_append]

@[simp] theorem statement_nil : statement [] = {} := rfl

@[simp] theorem sql_statement_cons (piece : Piece) (rest : Phrase) :
    (statement (piece :: rest)).sql = piece.sql ++ (statement rest).sql := by
  simp [statement]

@[simp] theorem params_statement_cons (piece : Piece) (rest : Phrase) :
    (statement (piece :: rest)).params = piece.params ++ (statement rest).params :=
  List.flatMap_cons

@[simp] theorem sql_statement_append (phrase other : Phrase) :
    (statement (phrase ++ other)).sql = (statement phrase).sql ++ (statement other).sql :=
  congrArg Statement.sql (statement_append phrase other)

@[simp] theorem params_statement_append (phrase other : Phrase) :
    (statement (phrase ++ other)).params = (statement phrase).params ++ (statement other).params :=
  congrArg Statement.params (statement_append phrase other)

/-- What stands between phrases binds no value. -/
theorem params_statement_joined (between : String) (phrases : List Phrase) :
    (statement (joined between phrases)).params =
      phrases.flatMap fun phrase => (statement phrase).params := by
  induction phrases with
  | nil => rfl
  | cons phrase rest ih =>
    cases rest with
    | nil => simp [joined]
    | cons next others =>
      show (statement (phrase ++ .text between :: joined between (next :: others))).params = _
      rw [params_statement_append, List.flatMap_cons, ← ih]
      rfl

/-- A phrase binds as many values as it has pieces that are values. -/
theorem length_params_statement (phrase : Phrase) :
    (statement phrase).params.length = phrase.countP fun piece => !piece.params.isEmpty := by
  unfold statement
  induction phrase with
  | nil => rfl
  | cons piece rest ih =>
    rw [List.flatMap_cons, List.length_append, ih, List.countP_cons]
    cases piece <;> simp [Piece.params, Nat.add_comm]

end Phrase

end Sql

end TableApi
