import TableApi.Entries

/-!
# JSON values

Request bodies, table cells, bound parameters and answers are all JSON values.
An integer is kept apart from a floating-point number, because the two bind to a
statement differently; a float is its IEEE-754 bit pattern, so that equality of
values is equality of patterns. An object keeps the order of its keys.
-/

namespace TableApi

inductive Json where
  | null
  | bool (b : Bool)
  | int (n : Int)
  | float (bits : UInt64)
  | str (s : String)
  | arr (items : List Json)
  | obj (members : List (String × Json))
  deriving Repr, Inhabited

namespace Json

/-- The members of an object, and nothing for any other value. -/
def members? : Json → Option (Entries Json)
  | obj members => some members
  | _ => none

/-- The text of a string, and nothing for any other value. -/
def text? : Json → Option String
  | str s => some s
  | _ => none

mutual

/-- Whether two values are equal: floats by their patterns, objects with the
order of their keys. -/
def same : Json → Json → Bool
  | null, null => true
  | bool a, bool b => a == b
  | int a, int b => a == b
  | float a, float b => a == b
  | str a, str b => a == b
  | arr a, arr b => sameItems a b
  | obj a, obj b => sameMembers a b
  | _, _ => false

def sameItems : List Json → List Json → Bool
  | [], [] => true
  | a :: as, b :: bs => same a b && sameItems as bs
  | _, _ => false

/-- Whether two lists hold equal keys and values. -/
def sameMembers : List (String × Json) → List (String × Json) → Bool
  | [], [] => true
  | (j, a) :: as, (k, b) :: bs => j == k && same a b && sameMembers as bs
  | _, _ => false

end

mutual

/-- The comparison finds equal values equal, and no others. -/
theorem same_iff (a b : Json) : same a b = true ↔ a = b := by
  cases a <;> cases b <;> simp [same]
  case arr.arr as bs => exact sameItems_iff as bs
  case obj.obj as bs => exact sameMembers_iff as bs

theorem sameItems_iff (as bs : List Json) : sameItems as bs = true ↔ as = bs := by
  cases as with
  | nil => cases bs <;> simp [sameItems]
  | cons a as =>
    cases bs with
    | nil => simp [sameItems]
    | cons b bs => simp [sameItems, same_iff a b, sameItems_iff as bs]

theorem sameMembers_iff (as bs : List (String × Json)) :
    sameMembers as bs = true ↔ as = bs := by
  cases as with
  | nil => cases bs <;> simp [sameMembers]
  | cons a as =>
    cases bs with
    | nil => obtain ⟨j, a⟩ := a; simp [sameMembers]
    | cons b bs =>
      obtain ⟨j, a⟩ := a
      obtain ⟨k, b⟩ := b
      simp [sameMembers, same_iff a b, sameMembers_iff as bs]

end

instance : DecidableEq Json := fun a b => decidable_of_iff _ (same_iff a b)

end Json

end TableApi
