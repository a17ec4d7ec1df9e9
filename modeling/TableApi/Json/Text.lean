import TableApi.Json.Document

/-!
# The values of JSON texts

A text stands for a value when it is well formed, each of its numbers and strings
has a value, and its containers are nested at most 127 deep. A text may also hold
a second text in place of a value: an object that begins with a certain key, the
mark, has no other member, and under the mark a string with a whole JSON text. It
stands for the value of that text.

`ofText?` asks for the value of a whole text and `ofFront` for the value at the
front of one. The second tells two faults apart, and of two faults the one that
comes first in the text counts.
-/

namespace TableApi.Json

inductive TextFault where
  /-- The text breaks the grammar, or a part of it is beyond what a value can be. -/
  | malformed
  /-- What an object holds under the mark is not a text that has a value. -/
  | unfit
  deriving Repr, DecidableEq

namespace Document

def embeddedMark : String := "$serde_json::private::RawValue"

/-- What an object that begins with the mark holds there. -/
def embedded? : List (Option String × Document) → Option Document
  | (some key, item) :: _ => if key = embeddedMark then some item else none
  | _ => none

/-- The value of an embedded text, where `ofInner?` gives the value of a text.
Anything but a string is unfit, whether or not a list or an object is well formed
inside. -/
def embeddedValue (ofInner? : String → Option Json) : Document → Except TextFault Json
  | .text (some inner) => match ofInner? inner with
    | some value => .ok value
    | none => .error .unfit
  | .null | .bool _ | .number (some _) | .list _ | .object _ => .error .unfit
  | .text none | .number none | .broken => .error .malformed

/-- How many containers deep a value may be. -/
def maxNesting : Nat := 127

mutual

/-- The value of a document whose containers are at most `depth` deep. -/
def valueWithin (ofInner? : String → Option Json) (depth : Nat) :
    Document → Except TextFault Json
  | .null => .ok .null
  | .bool b => .ok (.bool b)
  | .number (some value) => .ok value
  | .text (some s) => .ok (.str s)
  | .list items => match depth with
    | 0 => .error .malformed
    | depth + 1 => (itemsWithin ofInner? depth items).map .arr
  | .object members => match depth with
    | 0 => .error .malformed
    | depth + 1 => match embedded? members with
      | some item => do
        let value ← embeddedValue ofInner? item
        -- A second member is a fault only behind those of the text.
        if members.length = 1 then .ok value else .error .malformed
      | none =>
        (membersWithin ofInner? depth members).map fun pairs => .obj (Entries.ofList pairs)
  | .number none | .text none | .broken => .error .malformed

def itemsWithin (ofInner? : String → Option Json) (depth : Nat) :
    List Document → Except TextFault (List Json)
  | [] => .ok []
  | item :: rest => do
    let value ← valueWithin ofInner? depth item
    let values ← itemsWithin ofInner? depth rest
    .ok (value :: values)

/-- The keys and values of an object's members. -/
def membersWithin (ofInner? : String → Option Json) (depth : Nat) :
    List (Option String × Document) → Except TextFault (List (String × Json))
  | [] => .ok []
  | (none, _) :: _ => .error .malformed
  | (some key, item) :: rest => do
    let value ← valueWithin ofInner? depth item
    let values ← membersWithin ofInner? depth rest
    .ok ((key, value) :: values)

end

/-- The value of a document, where `ofInner?` gives the value of an embedded text. -/
def value (ofInner? : String → Option Json) (document : Document) : Except TextFault Json :=
  document.valueWithin ofInner? maxNesting

end Document

/-- The value of a whole text, with fewer than `levels` texts one inside another. -/
def ofTextWithin? : Nat → String → Option Json
  | 0, _ => none
  | levels + 1, text => (Document.whole? text).bind fun document =>
    (document.value fun inner => ofTextWithin? levels inner).toOption

/-- The value that a whole text stands for. A text inside another is shorter, so
the length of the text bounds how many there are. -/
def ofText? (text : String) : Option Json :=
  ofTextWithin? (text.length + 1) text

/-- The value at the front of a text, whatever follows it. -/
def ofFront (text : String) : Except TextFault Json :=
  (Document.read text).1.value (ofTextWithin? text.length)

/-- A whole text has the same value as what stands at its front. -/
theorem ofFront_eq_ok {text : String} {value : Json} (h : ofText? text = some value) :
    ofFront text = .ok value := by
  obtain ⟨document, hwhole, hvalue⟩ := Option.bind_eq_some_iff.1 h
  unfold Document.whole? at hwhole
  split at hwhole
  · next _ _ hread =>
    split at hwhole
    · cases hwhole
      rw [ofFront, hread]
      cases hv : document.value (ofTextWithin? text.length) with
      | error fault => simp [hv, Except.toOption] at hvalue
      | ok found => simpa [hv, Except.toOption] using hvalue
    · simp at hwhole
  · simp at hwhole

end TableApi.Json
