/-!
# Reading UTF-8

Bytes from a request path, a query string or a database cell are read as UTF-8.
What is not well formed is cut into parts as the Unicode standard recommends: a
part is the longest run that could still have begun a character, or a single
byte. `scan` names the parts in order. The strict reading asks for characters
throughout and otherwise says where the first broken part is; the lenient one puts
U+FFFD for each broken part.
-/

namespace TableApi.Text.Utf8

/-- A character that has begun: how many bytes it has, how many more it needs, the
range of the next one, and the bits so far. -/
structure Owed where
  taken : Nat := 1
  more : Nat
  low : UInt8
  high : UInt8
  bits : Nat

/-- What a byte at the start of a character means. -/
inductive Lead where
  | char (c : Char)
  | owed (o : Owed)
  | bad

/-- What a byte at the start of a character means. The ranges of second bytes
leave out overlong forms, surrogates and what lies beyond U+10FFFF. -/
def lead (b : UInt8) : Lead :=
  let n := b.toNat
  if n < 0x80 then .char (Char.ofNat n)
  else if n < 0xC2 then .bad
  else if n < 0xE0 then .owed ⟨1, 1, 0x80, 0xBF, n - 0xC0⟩
  else if n = 0xE0 then .owed ⟨1, 2, 0xA0, 0xBF, 0⟩
  else if n = 0xED then .owed ⟨1, 2, 0x80, 0x9F, 0xD⟩
  else if n < 0xF0 then .owed ⟨1, 2, 0x80, 0xBF, n - 0xE0⟩
  else if n = 0xF0 then .owed ⟨1, 3, 0x90, 0xBF, 0⟩
  else if n < 0xF4 then .owed ⟨1, 3, 0x80, 0xBF, n - 0xF0⟩
  else if n = 0xF4 then .owed ⟨1, 3, 0x80, 0x8F, 4⟩
  else .bad

inductive Part where
  | char (c : Char)
  /-- Bytes that no character begins with, or that the next byte breaks off. -/
  | broken (size : Nat)
  /-- A character that the end of the bytes breaks off. -/
  | cut
  deriving Repr, DecidableEq

/-- The parts of some bytes. `owed` is the character that the bytes before have
begun. -/
def scan : Option Owed → List UInt8 → List Part
  | none, [] => []
  | some _, [] => [.cut]
  | none, b :: rest => match lead b with
    | .char c => .char c :: scan none rest
    | .owed o => scan (some o) rest
    | .bad => .broken 1 :: scan none rest
  | some o, b :: rest =>
    if o.low ≤ b ∧ b ≤ o.high then
      let bits := o.bits * 64 + (b.toNat - 0x80)
      if o.more ≤ 1 then .char (Char.ofNat bits) :: scan none rest
      else scan (some ⟨o.taken + 1, o.more - 1, 0x80, 0xBF, bits⟩) rest
    -- The broken part ends before this byte, which may begin a character itself.
    else .broken o.taken :: match lead b with
      | .char c => .char c :: scan none rest
      | .owed o => scan (some o) rest
      | .bad => .broken 1 :: scan none rest

/-- Why bytes are no text: where their first broken part begins, and its size
unless the bytes end in it. -/
structure Flaw where
  start : Nat
  size? : Option Nat
  deriving Repr, DecidableEq

def Flaw.message (flaw : Flaw) : String :=
  match flaw.size? with
  | some size =>
    "invalid utf-8 sequence of " ++ toString size ++ " bytes from index " ++ toString flaw.start
  | none => "incomplete utf-8 byte sequence from index " ++ toString flaw.start

/-- The characters of parts that begin at a place, if all of them are whole. -/
def wholeFrom (start : Nat) : List Part → Except Flaw (List Char)
  | [] => .ok []
  | .char c :: rest => (wholeFrom (start + c.utf8Size) rest).map (c :: ·)
  | .broken size :: _ => .error ⟨start, some size⟩
  | .cut :: _ => .error ⟨start, none⟩

/-- The text of bytes that are well formed throughout, or else their first flaw. -/
def decode (bytes : List UInt8) : Except Flaw String :=
  (wholeFrom 0 (scan none bytes)).map String.ofList

/-- The text of bytes that are well formed throughout. -/
def decode? (bytes : List UInt8) : Option String :=
  (decode bytes).toOption

/-- What a part shows as where every byte must show. -/
def Part.shown : Part → Char
  | char c => c
  | broken _ | cut => '\uFFFD'

/-- The text of bytes, with U+FFFD for each broken part. -/
def decodeLenient (bytes : List UInt8) : String :=
  String.ofList ((scan none bytes).map Part.shown)

theorem map_shown_of_wholeFrom {start : Nat} {parts : List Part} {text : List Char}
    (h : wholeFrom start parts = .ok text) : parts.map Part.shown = text := by
  fun_induction wholeFrom start parts generalizing text with
  | case1 => cases h; rfl
  | case2 start c rest ih =>
    cases hr : wholeFrom (start + c.utf8Size) rest with
    | error flaw => rw [hr] at h; cases h
    | ok whole => rw [hr] at h; cases h; simp [Part.shown, ih hr]
  | case3 => cases h
  | case4 => cases h

/-- The two readings agree on what is well formed. -/
theorem decodeLenient_of_decode {bytes : List UInt8} {text : String}
    (h : decode bytes = .ok text) : decodeLenient bytes = text := by
  unfold decode at h
  cases hw : wholeFrom 0 (scan none bytes) with
  | error flaw => rw [hw] at h; cases h
  | ok whole => rw [hw] at h; cases h; rw [decodeLenient, map_shown_of_wholeFrom hw]

def encode (text : String) : List UInt8 :=
  text.toUTF8.data.toList

end TableApi.Text.Utf8
