import TableApi.Request.ParamKind
import TableApi.Request.Selection

/-!
# Request parameters

The parameters of a list request are filters, an order, a page and a search. A
filter is a display name with a value; the same name with `_comp` behind it picks
the comparator. `q` searches all columns at once and stands instead of filters.
Everything that is not understood is refused: first what concerns the filter,
then the page, then the order, and at last a page that is too far.

The parameters are entries in ascending order of keys, and the conditions come in
that order. A request for a single row is a filter by the primary key.
-/

namespace TableApi

/-- Request parameters, in ascending order of keys. -/
abbrev Params : Type := Entries String

namespace Params

/-- Names the column that rows are ordered by. -/
def orderBy : String := "order_by"

/-- Says whether the order rises or falls. -/
def orderDir : String := "order_dir"

/-- Asks for a page, counted from 1. -/
def page : String := "page"

/-- Searches all columns. -/
def search : String := "q"

/-- What a display name ends in to pick the comparator of its filter. -/
def comparatorEnding : String := "_comp"

/-- Whether a parameter has a meaning of its own and is never a filter. -/
def isReserved (key : String) : Bool :=
  key == orderBy || key == orderDir || key == page || key == search

/-- The pattern that a text must be like to hold a term. -/
def pattern (term : String) : String :=
  "%" ++ term ++ "%"

end Params

/-- The direction that a word in either case names. -/
def Direction.ofWord? (word : String) : Option Direction :=
  if Text.upper word = "ASC" then some ascending
  else if Text.upper word = "DESC" then some descending
  else none

namespace Resource

/-! ## Filters -/

/-- The search for a term. No filter may stand beside it. -/
def searchFilter (params : Params) (term : String) : Except Fault Filter :=
  match params.keys.find? fun key => !Params.isReserved key with
  | some key => .error (.badRequest (.besideSearch key))
  | none => .ok (.search (Params.pattern term))

/-- What a parameter that is not reserved is there for. -/
inductive Part where
  /-- Filters by a column. -/
  | filter (key raw : String) (column : Column)
  /-- Picks the comparator for the filter `target`. -/
  | comparator (target key token : String)

/-- The part of a parameter. A name that is a column's is a filter, even if it
ends as a comparator's does. -/
def part? (resource : Resource) (key raw : String) : Option Part :=
  match resource.column? key with
  | some column => some (.filter key raw column)
  | none => match Text.dropEnding? Params.comparatorEnding key with
    | some target =>
      if (resource.column? target).isSome then some (.comparator target key raw) else none
    | none => none

/-- The parts of the parameters that are not reserved. -/
def parts (resource : Resource) : Params → Except Fault (List Part)
  | [] => .ok []
  | (key, raw) :: rest =>
    if Params.isReserved key then resource.parts rest
    else match resource.part? key raw with
      | none => .error (.badRequest (.unknownParameter key))
      | some part => do
        let others ← resource.parts rest
        .ok (part :: others)

/-- The filters among parts: key, raw value and column. -/
def filters : List Part → List (String × String × Column)
  | [] => []
  | .filter key raw column :: rest => (key, raw, column) :: filters rest
  | .comparator .. :: rest => filters rest

/-- The comparators among parts, by the filter they are for, in ascending order:
the parameter they come from and the token. -/
def comparators (parts : List Part) : Entries (String × String) :=
  Entries.sorted (parts.filterMap fun
    | .comparator target key token => some (target, key, token)
    | .filter .. => none)

def condition (comparators : Entries (String × String))
    (filter : String × String × Column) : Except Fault Condition := do
  let (key, raw, column) := filter
  let comparator ← match comparators.get? key with
    | some (_, token) => Comparator.read token
    | none => .ok .eq
  let value ←
    if comparator = .like then .ok (Json.str (Params.pattern raw))
    else (ParamKind.ofColumn column).read key raw
  .ok ⟨column, comparator, value⟩

/-- The conditions of all filters. A comparator needs the filter it is for. -/
def conditionFilter (resource : Resource) (params : Params) : Except Fault Filter := do
  let parts ← resource.parts params
  -- Unknown parameters are reported before comparators that stand alone.
  let comparators := comparators parts
  match comparators.find? fun entry => !params.has entry.1 with
  | some (target, key, _) => .error (.badRequest (.comparatorAlone key target))
  | none =>
    let conditions ← (filters parts).mapM (condition comparators)
    .ok (.every conditions)

def readFilter (resource : Resource) (params : Params) : Except Fault Filter :=
  match params.get? Params.search with
  | some term => searchFilter params term
  | none => resource.conditionFilter params

/-! ## Pages and order -/

/-- The page that is asked for. With pages it must be given, without it must
not. -/
def readPage (params : Params) (pageLimit : Nat) : Except Fault (Option Page) :=
  match params.get? Params.page with
  | none => if pageLimit = 0 then .ok none else .error (.badRequest .pageMissing)
  | some raw =>
    if pageLimit = 0 then .error (.badRequest .pagingOff)
    else match Number.naturalBelow? UInt64.size (Text.trim raw) with
      | some number =>
        if 0 < number then .ok (some ⟨number, pageLimit⟩)
        else .error (.badRequest (.badPage raw))
      | none => .error (.badRequest (.badPage raw))

/-- Refuses a page that so many rows come before that 64 bits cannot count them. -/
def checkPage : Option Page → Except Fault Unit
  | none => .ok ()
  | some page =>
    if page.offset < UInt64.size then .ok ()
    else .error (.badRequest (.pageTooLarge page.number))

/-- The order that is asked for, if any is. -/
def readOrder (resource : Resource) (params : Params) : Except Fault (Option Order) :=
  match params.get? Params.orderBy, params.get? Params.orderDir with
  | none, none => .ok none
  | some name, some word => match resource.column? name with
    | none => .error (.badRequest (.unknownOrder name))
    | some column => match Direction.ofWord? word with
      | some direction => .ok (some ⟨column, direction⟩)
      | none => .error (.badRequest (.badDirection word))
  | _, _ => .error (.badRequest .halfOrder)

/-- The order of pages that ask for none: by the primary key, if it is a single
column. Rows that are not on pages need no order. -/
def defaultOrder (resource : Resource) (page : Option Page) : Option Order :=
  match page, resource.keyColumns with
  | some _, [key] => some ⟨key, .ascending⟩
  | _, _ => none

/-! ## Selections -/

/-- The rows that the parameters of a list request ask for. -/
def readList (resource : Resource) (params : Params) (pageLimit : Nat) :
    Except Fault Selection := do
  let filter ← resource.readFilter params
  let page ← readPage params pageLimit
  let order ← resource.readOrder params
  checkPage page
  .ok { filter, page, order := order.orElse fun _ => resource.defaultOrder page }

/-- The row of an identifier. It needs a single primary-key column. -/
def readSingle (resource : Resource) (id : String) : Except Fault Selection :=
  match resource.keyColumns with
  | [] => .error (.integrity (.noPrimaryKey resource.name))
  | [key] => do
    let value ← (ParamKind.ofColumn key).read key.displayName.primary id
    .ok { filter := .every [⟨key, .eq, value⟩] }
  | _ => .error (.integrity (.compositeKey resource.name))

end Resource

end TableApi
