import TableApi.Json.Document
import TableApi.Number.Shortest

/-!
# Writing JSON

`Json.print` writes a value without blanks. In a string only quotes, backslashes
and control characters are escaped, and `string?_quoted` says that every string
reads back. A float is written with the fewest digits that tell it from all
others, of two such texts the nearer, of two equally near the even one. It always
shows a point or an exponent, so it is never mistaken for an integer.
-/

namespace TableApi.Json

/-- A character of a string as it is written. -/
def escape (c : Char) : List Char :=
  if c = '"' ∨ c = '\\' then ['\\', c]
  else if c.toNat < 0x20 then
    ['\\', 'u', '0', '0', Nat.digitChar (c.toNat / 16), Nat.digitChar (c.toNat % 16)]
  else [c]

/-- The characters of a string between its quotes. -/
def escapeAll (chars : List Char) : List Char :=
  chars.flatMap escape

def quoted (s : String) : List Char :=
  '"' :: escapeAll s.toList ++ ['"']

/-- A decimal `digits · 10 ^ exponent`. The point stands among the digits, or with
zeros between, when the first digit is worth less than `10 ^ 16` and at least
`10 ^ -5`; else it stands behind the first digit, and an exponent follows. -/
def decimalChars (digits : Nat) (exponent : Int) : List Char :=
  let shown := Nat.toDigits 10 digits
  -- How many digits stand before the point.
  let point : Int := shown.length + exponent
  if 0 < point ∧ point ≤ 16 then
    let whole := shown.take point.toNat
    let fraction := shown.drop point.toNat
    whole ++ List.replicate (point.toNat - whole.length) '0' ++ '.' ::
      (if fraction.isEmpty then ['0'] else fraction)
  else if -5 < point ∧ point ≤ 0 then
    '0' :: '.' :: List.replicate (-point).toNat '0' ++ shown
  else
    let others := shown.drop 1
    shown.take 1 ++ (if others.isEmpty then [] else '.' :: others) ++ 'e' ::
      (toString (point - 1)).toList

/-- A float as it is written; one that is not finite has no number and is null. -/
def floatChars (bits : UInt64) : List Char :=
  if !Number.isFinite64 bits then "null".toList
  else
    let sign := if bits &&& Number.signBit64 = 0 then [] else ['-']
    let shortest := (Number.Binary.ofPattern? Number.binary64 bits.toNat).bind
      (Number.Binary.shortest? .even)
    sign ++ match shortest with
      | some (digits, exponent) => decimalChars digits exponent
      | none => "0.0".toList

mutual

def chars : Json → List Char
  | null => "null".toList
  | bool b => if b then "true".toList else "false".toList
  | int n => (toString n).toList
  | float bits => floatChars bits
  | str s => quoted s
  | arr items => '[' :: itemChars items ++ [']']
  | obj members => '\x7b' :: memberChars members ++ ['\x7d']

/-- The items of a list, with commas between them. -/
def itemChars : List Json → List Char
  | [] => []
  | [item] => chars item
  | item :: rest => chars item ++ ',' :: itemChars rest

/-- The members of an object, with commas between them. -/
def memberChars : List (String × Json) → List Char
  | [] => []
  | [(key, item)] => quoted key ++ ':' :: chars item
  | (key, item) :: rest => quoted key ++ ':' :: chars item ++ ',' :: memberChars rest

end

def print (value : Json) : String :=
  String.ofList (chars value)

/-! ## Strings read back -/

open Document

/-- The piece that reading makes of a written character. -/
def writtenPiece (c : Char) : Piece :=
  if c ≠ '"' ∧ c ≠ '\\' ∧ c.toNat < 0x20 then .unit c.toNat else .char c

/-- The four digits of an escape name the character. -/
theorem hexUnit?_control : ∀ n < 0x20,
    hexUnit? '0' '0' (Nat.digitChar (n / 16)) (Nat.digitChar (n % 16)) = some n := by
  decide

/-- A written character reads as one piece. -/
theorem stringPieces?_escape (c : Char) (rest : List Char) :
    stringPieces? (escape c ++ rest) =
      (stringPieces? rest).map fun (pieces, rest) => (writtenPiece c :: pieces, rest) := by
  by_cases hq : c = '"'
  · subst hq
    cases h : stringPieces? rest <;> simp [escape, stringPieces?, escaped?, writtenPiece, h]
  by_cases hb : c = '\\'
  · subst hb
    cases h : stringPieces? rest <;> simp [escape, stringPieces?, escaped?, writtenPiece, h]
  by_cases hc : c.toNat < 0x20
  · cases h : stringPieces? rest <;>
      simp [escape, stringPieces?, writtenPiece, hq, hb, hc, h, hexUnit?_control c.toNat hc]
  · have hplain : escape c = [c] := by simp [escape, hq, hb, hc]
    rw [hplain, List.singleton_append, stringPieces?]
    · simp [writtenPiece, hc]
    all_goals simp_all

/-- The characters of a string read as their pieces, up to the closing quote. -/
theorem stringPieces?_escapeAll (chars rest : List Char) :
    stringPieces? (escapeAll chars ++ '"' :: rest) = some (chars.map writtenPiece, rest) := by
  induction chars with
  | nil => simp [escapeAll, stringPieces?]
  | cons c others ih =>
    have hcons : escapeAll (c :: others) = escape c ++ escapeAll others := by simp [escapeAll]
    rw [hcons, List.append_assoc, stringPieces?_escape, ih]
    rfl

/-- The pieces stand for the characters: no escape names a surrogate. -/
theorem pieceChars?_written (chars : List Char) :
    pieceChars? (chars.map writtenPiece) = some chars := by
  induction chars with
  | nil => rfl
  | cons c others ih =>
    by_cases hc : c ≠ '"' ∧ c ≠ '\\' ∧ c.toNat < 0x20
    · have hp : writtenPiece c = .unit c.toNat := by simp [writtenPiece, hc]
      have hhigh : ¬ (0xD800 ≤ c.toNat) := by omega
      have hlow : ¬ (0xDC00 ≤ c.toNat) := by omega
      rw [List.map_cons, hp]
      cases others with
      | nil => simp [pieceChars?, hhigh]
      | cons d more =>
        rw [List.map_cons] at ih ⊢
        cases hd : writtenPiece d with
        | char e => rw [hd] at ih; simp [pieceChars?, hhigh] at ih ⊢; exact ih
        | unit n => rw [hd] at ih; simp [pieceChars?, hhigh, hlow, ih]
    · have hp : writtenPiece c = .char c := by simp only [writtenPiece, hc, if_false]
      simp [List.map_cons, hp, pieceChars?, ih]

/-- A written string reads back, whatever follows it. -/
theorem string?_quoted (s : String) (rest : List Char) :
    string? (escapeAll s.toList ++ '"' :: rest) = some (some s, rest) := by
  simp [string?, stringPieces?_escapeAll, pieceChars?_written]

end TableApi.Json
