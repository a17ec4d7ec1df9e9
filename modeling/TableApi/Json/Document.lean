import TableApi.Json.Number

/-!
# JSON texts

`Document.read` reads one JSON value from the front of a text and gives back the
rest. A document keeps what the grammar admits: a number beyond the range of
floats and a string with a lone surrogate are well formed but have no value, and
nesting has no limit. To ask a document for its value is a step of its own,
because a reader that skips a part of a document needs it to be well formed only.

Where a text breaks the grammar, reading stops: the document holds `broken` at
that place, behind all that was read before it, and there is no rest. So of the
faults of a text it can be told which one comes first.

Reading is by recursion on a budget of steps. Every step but the first of a list
takes a character, so twice the length of the text is enough.
-/

namespace TableApi.Json

/-- A JSON text's content, before it is asked for a value. -/
inductive Document where
  | null
  | bool (b : Bool)
  | number (value : Option Json)
  | text (value : Option String)
  | list (items : List Document)
  /-- The members in order; a key with a lone surrogate is no text. -/
  | object (members : List (Option String × Document))
  /-- The place where the text breaks the grammar. -/
  | broken
  deriving Inhabited

namespace Document

def isSpace (c : Char) : Bool :=
  c = ' ' || c = '\t' || c = '\n' || c = '\r'

def skipSpace (chars : List Char) : List Char :=
  chars.dropWhile isSpace

def hexDigit? (c : Char) : Option Nat :=
  if '0' ≤ c ∧ c ≤ '9' then some (c.toNat - '0'.toNat)
  else if 'a' ≤ c ∧ c ≤ 'f' then some (c.toNat - 'a'.toNat + 10)
  else if 'A' ≤ c ∧ c ≤ 'F' then some (c.toNat - 'A'.toNat + 10)
  else none

/-- The value of four hexadecimal digits. -/
def hexUnit? (a b c d : Char) : Option Nat := do
  let a ← hexDigit? a
  let b ← hexDigit? b
  let c ← hexDigit? c
  let d ← hexDigit? d
  some (((16 * a + b) * 16 + c) * 16 + d)

/-- A piece of a string: a character as it stands, or a 16-bit unit that an
escape names. -/
inductive Piece where
  | char (c : Char)
  | unit (n : Nat)

/-- The character that a one-letter escape stands for. -/
def escaped? : Char → Option Char
  | '"' => some '"'
  | '\\' => some '\\'
  | '/' => some '/'
  | 'b' => some '\x08'
  | 'f' => some '\x0c'
  | 'n' => some '\n'
  | 'r' => some '\r'
  | 't' => some '\t'
  | _ => none

/-- The pieces of a string up to its closing quote, and the text behind it. -/
def stringPieces? : List Char → Option (List Piece × List Char)
  | [] => none
  | '"' :: rest => some ([], rest)
  | '\\' :: 'u' :: a :: b :: c :: d :: rest => do
    let unit ← hexUnit? a b c d
    let (pieces, rest) ← stringPieces? rest
    some (.unit unit :: pieces, rest)
  | '\\' :: letter :: rest => do
    let c ← escaped? letter
    let (pieces, rest) ← stringPieces? rest
    some (.char c :: pieces, rest)
  | c :: rest =>
    if c.toNat < 0x20 then none
    else (stringPieces? rest).map fun (pieces, rest) => (.char c :: pieces, rest)

/-- The characters of a string's pieces. A high surrogate must be followed at
once by a low one, and no low one stands alone. -/
def pieceChars? : List Piece → Option (List Char)
  | [] => some []
  | .char c :: rest => (pieceChars? rest).map (c :: ·)
  | .unit high :: .unit low :: rest =>
    if 0xD800 ≤ high ∧ high < 0xDC00 then
      -- Two units of ten bits each name a character beyond the first 65536.
      if 0xDC00 ≤ low ∧ low < 0xE000 then
        (pieceChars? rest).map
          (Char.ofNat (0x10000 + (high - 0xD800) * 0x400 + (low - 0xDC00)) :: ·)
      else none
    else if 0xDC00 ≤ high ∧ high < 0xE000 then none
    else (pieceChars? (.unit low :: rest)).map (Char.ofNat high :: ·)
  | .unit n :: rest =>
    if 0xD800 ≤ n ∧ n < 0xE000 then none
    else (pieceChars? rest).map (Char.ofNat n :: ·)

/-- The string behind an opening quote, and the text behind its closing one. -/
def string? (chars : List Char) : Option (Option String × List Char) :=
  (stringPieces? chars).map fun (pieces, rest) =>
    ((pieceChars? pieces).map String.ofList, rest)

/-- The exponent at the front of a text, if one is begun there. -/
def exponent? : List Char → Option (Option (Bool × List Char) × List Char)
  | c :: rest =>
    if c = 'e' ∨ c = 'E' then
      let (negative, digits) := match rest with
        | '-' :: more => (true, more)
        | '+' :: more => (false, more)
        | more => (false, more)
      let run := digits.takeWhile Char.isDigit
      if run.isEmpty then none else some (some (negative, run), digits.dropWhile Char.isDigit)
    else some (none, c :: rest)
  | [] => some (none, [])

/-- The fraction at the front of a text, if one is begun there. -/
def fraction? : List Char → Option (List Char × List Char)
  | '.' :: rest =>
    let run := rest.takeWhile Char.isDigit
    if run.isEmpty then none else some (run, rest.dropWhile Char.isDigit)
  | rest => some ([], rest)

/-- The number at the front of a text: a whole part without needless zeros, then
perhaps a fraction and an exponent. -/
def number? (chars : List Char) : Option (NumberText × List Char) := do
  let (negative, unsigned) := match chars with
    | '-' :: rest => (true, rest)
    | rest => (false, rest)
  let whole := unsigned.takeWhile Char.isDigit
  match whole with
  | [] => none
  -- A zero in front is the whole part by itself.
  | '0' :: _ :: _ => none
  | _ =>
    let (fraction, rest) ← fraction? (unsigned.dropWhile Char.isDigit)
    let (exponent, rest) ← exponent? rest
    some (⟨negative, whole, fraction, exponent⟩, rest)

/-- The document that a part read from the front of a text makes; broken if there
is no such part. -/
def ofPart {α : Type} (make : α → Document) :
    Option (α × List Char) → Document × Option (List Char)
  | some (part, rest) => (make part, some rest)
  | none => (broken, none)

mutual

/-- The document at the front of a text, and the text behind it unless it is
broken. -/
def readValue : Nat → List Char → Document × Option (List Char)
  | 0, _ => (broken, none)
  | budget + 1, chars => match skipSpace chars with
    | 'n' :: 'u' :: 'l' :: 'l' :: rest => (null, some rest)
    | 't' :: 'r' :: 'u' :: 'e' :: rest => (bool true, some rest)
    | 'f' :: 'a' :: 'l' :: 's' :: 'e' :: rest => (bool false, some rest)
    | '"' :: rest => ofPart text (string? rest)
    | '[' :: rest => match skipSpace rest with
      | ']' :: rest => (list [], some rest)
      | rest =>
        let (items, rest) := readItems budget rest
        (list items, rest)
    | '\x7b' :: rest => match skipSpace rest with
      | '\x7d' :: rest => (object [], some rest)
      | rest =>
        let (members, rest) := readMembers budget rest
        (object members, rest)
    | rest => ofPart (fun n => number n.value?) (number? rest)

/-- One value or more, parted by commas, up to the closing bracket. -/
def readItems : Nat → List Char → List Document × Option (List Char)
  | 0, _ => ([broken], none)
  | budget + 1, chars => match readValue budget chars with
    | (item, none) => ([item], none)
    | (item, some rest) => match skipSpace rest with
      | ']' :: rest => ([item], some rest)
      | ',' :: rest =>
        let (items, rest) := readItems budget rest
        (item :: items, rest)
      | _ => ([item, broken], none)

/-- One member or more, parted by commas, up to the closing brace. -/
def readMembers : Nat → List Char → List (Option String × Document) × Option (List Char)
  | 0, _ => ([(none, broken)], none)
  | budget + 1, chars => match skipSpace chars with
    | '"' :: rest => match string? rest with
      | none => ([(none, broken)], none)
      | some (key, rest) => match skipSpace rest with
        | ':' :: rest => match readValue budget rest with
          | (item, none) => ([(key, item)], none)
          | (item, some rest) => match skipSpace rest with
            | '\x7d' :: rest => ([(key, item)], some rest)
            | ',' :: rest =>
              let (members, rest) := readMembers budget rest
              ((key, item) :: members, rest)
            | _ => ([(key, item), (none, broken)], none)
        | _ => ([(key, broken)], none)
    | _ => ([(none, broken)], none)

end

/-- The document at the front of a text, and the text behind it unless it is
broken. -/
def read (text : String) : Document × Option (List Char) :=
  readValue (2 * text.length + 2) text.toList

/-- The document that a whole text is, blanks around it apart. -/
def whole? (text : String) : Option Document :=
  match read text with
  | (document, some rest) => if (skipSpace rest).isEmpty then some document else none
  | (_, none) => none

end Document

end TableApi.Json
