import TableApi.Proofs.Renaming.Rows
import TableApi.Proofs.Statements.Writes

/-!
# Bodies and rows that differ in values

Two bodies for a new row agree when they have the same keys at every level and give
objects for the same columns with a branch. Packing them draws identifiers in the same
places, and as long as these are no objects, the packs have rows below the same columns
(`Shape.Packed.holdsAlike`). The packs of two rows always do, since a row has a cell for
every column of every table (`Shape.holdsAlike_rowPack`).
-/

namespace TableApi

/-! ## Payloads that agree -/

/-- Two payloads have the same keys, in whatever order. -/
def SameKeys (payload other : Entries Json) : Prop :=
  (∀ key ∈ payload.keys, key ∈ other.keys) ∧ ∀ key ∈ other.keys, key ∈ payload.keys

instance (payload other : Entries Json) : Decidable (SameKeys payload other) :=
  inferInstanceAs (Decidable (_ ∧ _))

/-- Two payloads give new rows for the same columns of a table with a branch, and so do
those of the rows, which have the same keys. -/
def Shape.Agree : Shape → Entries Json → Entries Json → Prop
  | nil, _, _ => True
  | leaf _ rest, payload, other => rest.Agree payload other
  | branch column _ inner rest, payload, other =>
    (match column.givenIn payload, column.givenIn other with
      | .link _, .link _ => True
      | .row nested, .row nested' => SameKeys nested nested' ∧ inner.Agree nested nested'
      | _, _ => False) ∧
    rest.Agree payload other

instance Shape.decidableAgree :
    (shape : Shape) → (payload other : Entries Json) → Decidable (shape.Agree payload other)
  | nil, _, _ => .isTrue trivial
  | leaf _ rest, payload, other => rest.decidableAgree payload other
  | branch column _ inner rest, payload, other =>
    @instDecidableAnd _ _
      (match column.givenIn payload, column.givenIn other with
        | .link _, .link _ => .isTrue trivial
        | .row nested, .row nested' =>
          @instDecidableAnd _ _ inferInstance (inner.decidableAgree nested nested')
        | .link _, .row _ => .isFalse id
        | .row _, .link _ => .isFalse id)
      (rest.decidableAgree payload other)

/-- Two bodies for a new row have the same keys at every level and give new rows for the
same columns. -/
structure Resource.Agree (resource : Resource) (body other : Entries Json) : Prop where
  keys : SameKeys body other
  rows : resource.shape.Agree body other

instance (resource : Resource) (body other : Entries Json) :
    Decidable (resource.Agree body other) :=
  decidable_of_iff (SameKeys body other ∧ resource.shape.Agree body other)
    ⟨fun h => ⟨h.1, h.2⟩, fun h => ⟨h.keys, h.rows⟩⟩

namespace SameKeys

variable {payload other : Entries Json}

theorem has_eq (h : SameKeys payload other) (key : String) : payload.has key = other.has key := by
  rw [Bool.eq_iff_iff, Entries.has_iff, Entries.has_iff]
  exact ⟨h.1 key, h.2 key⟩

theorem of_has_eq (h : ∀ key, payload.has key = other.has key) : SameKeys payload other := by
  constructor
  · intro key hkey
    rwa [← Entries.has_iff, ← h, Entries.has_iff]
  · intro key hkey
    rwa [← Entries.has_iff, h, Entries.has_iff]

/-- Writing under one key keeps the keys the same. -/
theorem put (h : SameKeys payload other) (key : String) (value value' : Json) :
    SameKeys (payload.put key value) (other.put key value') := by
  refine of_has_eq fun own => ?_
  simp only [Entries.has, Entries.get?_put]
  split
  · rfl
  · exact h.has_eq own

/-- A name finds a value in both payloads or in neither. -/
theorem isSome_valueIn? (h : SameKeys payload other) (name : Name) :
    (name.valueIn? payload).isSome = (name.valueIn? other).isSome := by
  rw [Name.valueIn?_eq, Name.valueIn?_eq]
  induction name.primary :: name.aliases with
  | nil => rfl
  | cons own rest ih =>
    have hown : (payload.get? own).isSome = (other.get? own).isSome := h.has_eq own
    rw [List.findSome?_cons, List.findSome?_cons]
    cases hpayload : payload.get? own <;> cases hother : other.get? own <;>
      simp_all only [Option.isSome, Bool.false_eq_true, Bool.true_eq_false]

theorem takes_eq (h : SameKeys payload other) (name : Name) (drawn : String) :
    name.takes payload drawn = name.takes other drawn := by
  unfold Name.takes
  simp only [h.has_eq]

/-- Where one payload lacks the identifier of a new row so does the other. -/
theorem drawnUnder?_eq (h : SameKeys payload other) (column : Column) (inner : Shape) :
    column.drawnUnder? inner payload = column.drawnUnder? inner other := by
  unfold Column.drawnUnder?
  split
  · rfl
  · rw [h.isSome_valueIn?]

end SameKeys

/-- Two payloads still agree after plain values are written into both: a column finds them
in both or in neither. -/
theorem Shape.Agree.put {shape : Shape} {payload other : Entries Json}
    (h : shape.Agree payload other) (hkeys : SameKeys payload other) (key : String)
    {id id' : Json} (hplain : id.members? = none) (hplain' : id'.members? = none) :
    shape.Agree (payload.put key id) (other.put key id') := by
  induction shape with
  | nil => trivial
  | leaf column rest ih => exact ih h
  | branch column placed inner rest _ ih =>
    refine ⟨?_, ih h.2⟩
    have hvalue := column.displayName.valueIn?_put payload key id
    have hvalue' := column.displayName.valueIn?_put other key id'
    rw [← hkeys.takes_eq] at hvalue'
    by_cases htakes : column.displayName.takes payload key = true
    · rw [if_pos htakes] at hvalue hvalue'
      rw [Column.givenIn_of_plain hvalue hplain, Column.givenIn_of_plain hvalue' hplain']
      trivial
    · rw [if_neg htakes] at hvalue hvalue'
      rw [Column.givenIn_congr hvalue, Column.givenIn_congr hvalue']
      exact h.1

/-! ## Packs of payloads that agree -/

/-- Draws yield no objects. -/
def DrawsPlain {σ : Type} (draw : IdGenerator → StateM σ Json) : Prop :=
  ∀ ids state, ((draw ids).run state).1.members? = none

section Packs

variable {σ τ : Type} {draw : IdGenerator → StateM σ Json} {draw' : IdGenerator → StateM τ Json}

/-- Payloads that agree are completed to payloads that agree. -/
theorem Column.Completes.agree (hplain : DrawsPlain draw) (hplain' : DrawsPlain draw')
    {column : Column} {placed : Placed} {inner : Shape}
    {payload other completed completed' : Entries Json} {before after : σ} {before' after' : τ}
    (h : column.Completes draw placed inner payload completed before after)
    (h' : column.Completes draw' placed inner other completed' before' after')
    (hkeys : SameKeys payload other) (hagree : inner.Agree payload other) :
    SameKeys completed completed' ∧ inner.Agree completed completed' := by
  unfold Completes at h h'
  rw [← hkeys.drawnUnder?_eq] at h'
  cases hdrawn : column.drawnUnder? inner payload with
  | none =>
    rw [hdrawn] at h h'
    rw [h.1, h'.1]
    exact ⟨hkeys, hagree⟩
  | some name =>
    rw [hdrawn] at h h'
    obtain ⟨id, hid, rfl⟩ := h
    obtain ⟨id', hid', rfl⟩ := h'
    have hid : id.members? = none := by
      have := hplain placed.table.ids before
      rwa [hid] at this
    have hid' : id'.members? = none := by
      have := hplain' placed.table.ids before'
      rwa [hid'] at this
    exact ⟨hkeys.put name id id', hagree.put hkeys name hid hid'⟩

/-- The packs of payloads that agree have rows in the same places. -/
theorem Shape.Packed.holdsAlike (hplain : DrawsPlain draw) (hplain' : DrawsPlain draw')
    {shape : Shape} {ids ids' : IdGenerator} {payload other pack pack' : Entries Json}
    {before after : σ} {before' after' : τ}
    (h : shape.Packed draw ids payload pack before after)
    (h' : shape.Packed draw' ids' other pack' before' after')
    (hagree : shape.Agree payload other) : shape.HoldsAlike pack pack' := by
  induction h generalizing ids' other pack' before' after' with
  | nil => exact .nil
  | given _ _ _ ih | drawn _ _ _ _ ih =>
    cases h' with
    | given _ _ hrest' | drawn _ _ _ hrest' => exact .leaf (ih hrest' hagree)
  | link hgiven _ hbranch _ ih =>
    obtain ⟨hgivens, hagree⟩ := hagree
    rw [hgiven] at hgivens
    cases h' with
    | link hgiven' _ hbranch' hrest' => exact .link hbranch hbranch' (ih hrest' hagree)
    | row hgiven' _ _ _ _ _ _ =>
      rw [hgiven'] at hgivens
      exact hgivens.elim
  | row hgiven hcompletes _ hbranch _ _ _ ihInner ihRest =>
    obtain ⟨hgivens, hagree⟩ := hagree
    rw [hgiven] at hgivens
    cases h' with
    | link hgiven' _ _ _ =>
      rw [hgiven'] at hgivens
      exact hgivens.elim
    | row hgiven' hcompletes' _ hbranch' _ hbelow' hrest' =>
      rw [hgiven'] at hgivens
      obtain ⟨hkeys, hinner⟩ := hgivens
      have hcompleted := hcompletes.agree hplain hplain' hcompletes' hkeys hinner
      exact .row hbranch hbranch' (ihInner hbelow' hcompleted.2) (ihRest hrest' hagree)

end Packs

/-! ## Packs of rows -/

/-- The packs of two rows have rows in the same places, namely in all. -/
theorem Shape.holdsAlike_rowPack {shape : Shape} (hkeyed : shape.Keyed)
    (hbelow : ∀ place ∈ shape.places, place.2.names.Nodup) {cells cells' : Row}
    {whole whole' : Entries Json}
    (hwhole : ∀ key ∈ shape.keys, whole.get? key = (shape.rowPack cells).1.get? key)
    (hwhole' : ∀ key ∈ shape.keys, whole'.get? key = (shape.rowPack cells').1.get? key) :
    shape.HoldsAlike whole whole' := by
  induction shape generalizing cells cells' whole whole' with
  | nil => exact .nil
  | leaf column rest ih =>
    obtain ⟨-, htail⟩ := Relabels.find_leaf hkeyed hwhole
    obtain ⟨-, htail'⟩ := Relabels.find_leaf hkeyed hwhole'
    exact .leaf (ih hkeyed.2 hbelow htail htail')
  | branch column placed inner rest ihInner ihRest =>
    simp only [places, List.cons_append, List.forall_mem_cons, List.forall_mem_append] at hbelow
    obtain ⟨-, hbelowInner, hbelowRest⟩ := hbelow
    obtain ⟨-, hobject, htail⟩ := Relabels.find_row hkeyed
      (renames_rowPack hbelowRest (inner.rowPack cells).2).relabels hwhole
    obtain ⟨-, hobject', htail'⟩ := Relabels.find_row hkeyed
      (renames_rowPack hbelowRest (inner.rowPack cells').2).relabels hwhole'
    have hinner : inner.HoldsAlike (inner.rowPack cells).1 (inner.rowPack cells').1 :=
      ihInner hkeyed.2.2.1 hbelowInner (fun _ _ => rfl) fun _ _ => rfl
    exact .row hobject hobject' hinner (ihRest hkeyed.2.2.2 hbelowRest htail htail')

namespace Resource

variable {resource : Resource}

/-- The pack of a row that was read. -/
theorem packOf_unpack (hapart : resource.shape.NamesApart) {row : Row}
    {payload pack : Entries Json} (hunpack : resource.unpack row = .ok payload)
    (hpack : resource.packOf payload = .ok pack) : pack = (resource.shape.rowPack row).1 := by
  have hrenames := Shape.renames_rowPack hapart.below row
  unfold unpack at hunpack
  split at hunpack
  · cases hunpack
    rw [Shape.ofList_unpack hapart.own, packOf_of_renames hapart hrenames] at hpack
    exact (Except.ok.inj hpack).symm
  · cases hunpack

end Resource

end TableApi
