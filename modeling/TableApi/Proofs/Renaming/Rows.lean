import TableApi.Proofs.JoinTree
import TableApi.Proofs.Renaming
import TableApi.Resource.Row

/-!
# Rows there and back

A row is unpacked by position: each column takes the next cell, along a depth-first walk.
So do the type view, the two ways of making a pack of the unpacked payload, and the way
of laying a pack out as a row. `row_round_trip` says that all five walks agree: the
payload of a row is the type view with its leaves replaced by the cells, both ways make
the same pack of it without an identifier being drawn, and the pack lays out as the row.

Cells are arbitrary. One that is an object does not turn into a branch, since only
columns with a branch look inside of what they are given.
-/

namespace TableApi

/-! ## Filling a document with cells -/

namespace Json

mutual

/-- The document with its leaves replaced by cells, one after another, and the cells left
over. Whatever is no object is a leaf. -/
def refill : Json → List Json → Json × List Json
  | obj members, cells =>
    let (members, left) := refillMembers members cells
    (obj members, left)
  | _, cells => (cells.headD null, cells.tail)

def refillMembers : List (String × Json) → List Json → List (String × Json) × List Json
  | [], cells => ([], cells)
  | (key, value) :: rest, cells =>
    let (value, cells) := refill value cells
    let (others, left) := refillMembers rest cells
    ((key, value) :: others, left)

end

mutual

/-- What is no object in a document, in order. -/
def leaves : Json → List Json
  | obj members => leavesOfMembers members
  | value => [value]

def leavesOfMembers : List (String × Json) → List Json
  | [] => []
  | (_, value) :: rest => leaves value ++ leavesOfMembers rest

end

end Json

namespace Shape

variable {shape : Shape}

theorem keys_typePairs (shape : Shape) : Entries.keys shape.typePairs = shape.names := by
  induction shape with
  | nil => rfl
  | leaf column rest ih => simp [typePairs, names, columns, ih]
  | branch column placed inner rest _ ih => simp [typePairs, names, columns, ih]

/-- Where names are apart, no type is written over another. -/
theorem ofList_typePairs (hnames : shape.names.Nodup) :
    Entries.ofList shape.typePairs = shape.typePairs := by
  apply Entries.ofList_eq_self
  rwa [keys_typePairs]

/-- The type view has one leaf for each column of a row, in order. -/
theorem leaves_typePairs (hbelow : ∀ place ∈ shape.places, place.2.names.Nodup) :
    Json.leavesOfMembers shape.typePairs = shape.leaves.map fun column => .str column.typeTag := by
  induction shape with
  | nil => rfl
  | leaf column rest ih =>
    simp [typePairs, leaves, Json.leavesOfMembers, Json.leaves, ih hbelow]
  | branch column placed inner rest ihInner ihRest =>
    simp only [places, List.cons_append, List.forall_mem_cons, List.forall_mem_append] at hbelow
    obtain ⟨hnames, hbelowInner, hbelowRest⟩ := hbelow
    simp [typePairs, leaves, Json.leavesOfMembers, Json.leaves, ofList_typePairs hnames,
      ihInner hbelowInner, ihRest hbelowRest]

/-- Where names are apart, no cell is written over another. -/
theorem ofList_unpack (hnames : shape.names.Nodup) (cells : Row) :
    Entries.ofList (shape.unpack cells).1 = (shape.unpack cells).1 := by
  apply Entries.ofList_eq_self
  have hkeys : Entries.keys (shape.unpack cells).1 = shape.names := shape.unpack_names cells
  rwa [hkeys]

/-- Unpacking fills the type view. -/
theorem refill_typePairs (hbelow : ∀ place ∈ shape.places, place.2.names.Nodup) (cells : Row) :
    Json.refillMembers shape.typePairs cells = shape.unpack cells := by
  induction shape generalizing cells with
  | nil => rfl
  | leaf column rest ih =>
    simp [typePairs, unpack, Json.refillMembers, Json.refill, ih hbelow]
  | branch column placed inner rest ihInner ihRest =>
    simp only [places, List.cons_append, List.forall_mem_cons, List.forall_mem_append] at hbelow
    obtain ⟨hnames, hbelowInner, hbelowRest⟩ := hbelow
    simp [typePairs, unpack, Json.refillMembers, Json.refill, ofList_typePairs hnames,
      ofList_unpack hnames, ihInner hbelowInner, ihRest hbelowRest]

/-! ## The pack of a row -/

/-- The pack that holds the cells of a row, and the cells left over. -/
def rowPack : Shape → Row → Entries Json × Row
  | nil, cells => ([], cells)
  | leaf column rest, cells =>
    let (pack, left) := rest.rowPack cells.tail
    ((column.qualifiedName, cells.headD .null) :: pack, left)
  | branch column _ inner rest, cells =>
    let (below, cells) := inner.rowPack cells
    let (pack, left) := rest.rowPack cells
    ((column.branchKey, .obj below) :: pack, left)

theorem rowPack_left (shape : Shape) (cells : Row) :
    (shape.rowPack cells).2 = cells.drop shape.leaves.length := by
  induction shape generalizing cells with
  | nil => rfl
  | leaf column rest ih => simp [rowPack, leaves, ih]
  | branch column placed inner rest ihInner ihRest =>
    simp [rowPack, leaves, ihInner, ihRest, List.drop_drop]

/-- Unpacking a row gives the payload of its pack. -/
theorem renames_rowPack (hbelow : ∀ place ∈ shape.places, place.2.names.Nodup) (cells : Row) :
    shape.Renames (shape.unpack cells).1 (shape.rowPack cells).1 := by
  induction shape generalizing cells with
  | nil => exact .nil
  | leaf column rest ih => exact .leaf _ (ih hbelow cells.tail)
  | branch column placed inner rest ihInner ihRest =>
    simp only [places, List.cons_append, List.forall_mem_cons, List.forall_mem_append] at hbelow
    obtain ⟨hnames, hbelowInner, hbelowRest⟩ := hbelow
    have hsame : (inner.unpack cells).2 = (inner.rowPack cells).2 := by
      rw [unpack_left, rowPack_left]
    simp only [unpack, rowPack, ofList_unpack hnames, hsame]
    exact .row (ihInner hbelowInner cells) (ihRest hbelowRest _)

/-- The pack of a row lays out as the cells that it was made of. -/
theorem rowOf_rowPack (hkeyed : shape.Keyed)
    (hbelow : ∀ place ∈ shape.places, place.2.names.Nodup) {cells : Row}
    (hwide : shape.leaves.length ≤ cells.length) {whole : Entries Json}
    (hwhole : ∀ key ∈ shape.keys, whole.get? key = (shape.rowPack cells).1.get? key) :
    shape.rowOf whole = .ok (cells.take shape.leaves.length) := by
  induction shape generalizing cells whole with
  | nil => simp [rowOf, leaves]
  | leaf column rest ih =>
    cases cells with
    | nil => simp [leaves] at hwide
    | cons cell cells =>
      simp only [leaves, List.length_cons, Nat.add_le_add_iff_right] at hwide
      obtain ⟨hvalue, htail⟩ := Relabels.find_leaf hkeyed hwhole
      have hothers := ih hkeyed.2 hbelow hwide htail
      simp only [rowOf, hvalue, hothers, leaves, List.length_cons, List.take_succ_cons]
      rfl
  | branch column placed inner rest ihInner ihRest =>
    simp only [places, List.cons_append, List.forall_mem_cons, List.forall_mem_append] at hbelow
    obtain ⟨-, hbelowInner, hbelowRest⟩ := hbelow
    simp only [leaves, List.length_append] at hwide
    obtain ⟨-, hobject, htail⟩ := Relabels.find_row hkeyed
      (renames_rowPack hbelowRest (inner.rowPack cells).2).relabels hwhole
    have hnested : inner.rowOf (inner.rowPack cells).1 = .ok (cells.take inner.leaves.length) :=
      ihInner hkeyed.2.2.1 hbelowInner (by omega) fun _ _ => rfl
    have hothers : rest.rowOf whole =
        .ok ((cells.drop inner.leaves.length).take rest.leaves.length) := by
      rw [rowPack_left] at htail
      exact ihRest hkeyed.2.2.2 hbelowRest (by rw [List.length_drop]; omega) htail
    simp only [rowOf, hobject, hothers]
    show (inner.rowOf (inner.rowPack cells).1 >>= fun below => _) = _
    rw [hnested, leaves, List.length_append, List.take_add]
    rfl

end Shape

namespace Resource

variable {schema : Schema} {root : Table} {resource : Resource}

/-- **A row survives the round trip.** Over tables whose columns show under their own,
distinct names, a row of the right width unpacks to the type view with its leaves, one for
each column, replaced by the cells. Of that payload both ways make the same pack, the one
for new rows without drawing an identifier, and the pack lays out as the row. A row of
another width breaks the contract. -/
theorem row_round_trip (hcompile : compile schema root = .ok resource)
    (hshows : ∀ table ∈ root :: schema.tables, table.ShowsNames) (row : Row) :
    (Json.obj resource.types).leaves =
        (resource.columns.map fun column => Json.str column.typeTag) ∧
      (row.length = resource.columns.length → ∃ payload pack,
        resource.unpack row = .ok payload ∧
        Json.obj payload = ((Json.obj resource.types).refill row).1 ∧
        (∀ {σ : Type} (draw : IdGenerator → StateM σ Json),
          resource.newPack draw payload = pure pack) ∧
        resource.packOf payload = .ok pack ∧
        resource.rowOf pack = .ok row) ∧
      (row.length ≠ resource.columns.length →
        resource.unpack row =
          .error (.contract (.rowWidth resource.name resource.columns.length row.length))) := by
  have hkeyed := keyed hcompile
  have hapart := namesApart hcompile hshows
  have htypes : resource.types = resource.shape.typePairs := Shape.ofList_typePairs hapart.own
  refine ⟨?_, ?_, ?_⟩
  · rw [htypes, Json.leaves]
    exact Shape.leaves_typePairs hapart.below
  · intro hwidth
    have hrenames := Shape.renames_rowPack hapart.below row
    refine ⟨_, _, ?_, ?_, fun draw => newPack_of_renames draw hapart hrenames,
      packOf_of_renames hapart hrenames, ?_⟩
    · rw [unpack, if_pos hwidth, Shape.ofList_unpack hapart.own]
    · rw [htypes, Json.refill, Shape.refill_typePairs hapart.below]
    · have hlaid := Shape.rowOf_rowPack hkeyed hapart.below (Nat.le_of_eq hwidth.symm)
        fun _ _ => rfl
      have hall : row.take resource.shape.leaves.length = row :=
        List.take_of_length_le (Nat.le_of_eq hwidth)
      rw [rowOf, hlaid, hall]
  · intro hwidth
    rw [unpack, if_neg hwidth]

end Resource

/-! ## An order with odd cells -/

/-- An order in which one column holds an object, one a list, and two hold null. -/
def oddRow : Row :=
  [.int 1, .null, .obj [("address_id", .int 5)], .str "Oslo", .arr [.bool true], .null]

def oddPayload : Entries Json :=
  [("id", .int 1),
    ("customer_id", .obj [("customer_id_id", .null),
      ("customer_id_address_id", .obj [
        ("customer_id_address_id_id", .obj [("address_id", .int 5)]),
        ("customer_id_address_id_city", .str "Oslo")])]),
    ("shipping_id", .obj [("shipping_id_id", .arr [.bool true]), ("shipping_id_city", .null)])]

/-- The order is unpacked along its relations, and no cell is taken for a branch. -/
theorem odd_order_kept :
    Resource.compile (addressedShop.toSchema [] []) addressedTable = .ok addressedOrder ∧
      (∀ table ∈ addressedTable :: (addressedShop.toSchema [] []).tables, table.ShowsNames) ∧
      addressedOrder.unpack oddRow = .ok oddPayload ∧
      ∃ pack, addressedOrder.packOf oddPayload = .ok pack ∧
        addressedOrder.rowOf pack = .ok oddRow := by
  have hcompile : Resource.compile (addressedShop.toSchema [] []) addressedTable =
      .ok addressedOrder := eq_ok_get _
  have hshows : ∀ table ∈ addressedTable :: (addressedShop.toSchema [] []).tables,
      table.ShowsNames := by
    decide +kernel
  have hunpack : addressedOrder.unpack oddRow = .ok oddPayload := by decide +kernel
  obtain ⟨payload, pack, hpayload, -, -, hpack, hrow⟩ :=
    (Resource.row_round_trip hcompile hshows oddRow).2.1 (by decide +kernel)
  obtain rfl : payload = oddPayload := Except.ok.inj (hpayload.symm.trans hunpack)
  exact ⟨hcompile, hshows, hunpack, pack, hpack, hrow⟩

end TableApi
