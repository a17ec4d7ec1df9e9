import TableApi.Proofs.Packing.Drawn
import TableApi.Proofs.Packing.Supplied
import TableApi.Proofs.Faithful

/-!
# The names that a new row needs

A resource lists for each of its tables the names that a body must carry. Where no two
entries of a table meet under one key, these are the columns of the table without a branch
that belong to no primary key (`Resource.required_eq`).

A body lacks such a name when neither the primary name nor an alias is a key of the object
at the table's place (`Resource.Unsupplied`); `Shape.unsupplied` lists these names
(`Resource.unsupplied_iff`). `Shape.missing` lists the names that packing misses, in which an
identifier is written into the payload of a row below for the column that is referenced.
-/

namespace TableApi

/-! ## Required names -/

/-- The columns without a branch that belong to no primary key. -/
def Shape.demanded (shape : Shape) : List Column :=
  (shape.nodes.filter fun node => node.2.isNone && !node.1.isPrimary).map Prod.fst

theorem Shape.mem_demanded {shape : Shape} {column : Column} :
    column ∈ shape.demanded ↔ (column, none) ∈ shape.nodes ∧ column.isPrimary = false := by
  simp [demanded, and_assoc]

namespace Expansion

theorem required_grown (expansion : Expansion) (owner next : Nat) (path : List Column) :
    (expansion.grown owner next path).required =
        (expansion.shape owner next path).demanded.map (fun column => column.displayName.primary) ∧
      (expansion.grown owner next path).requiredBelow =
        (expansion.shape owner next path).places.map fun part =>
          part.2.demanded.map fun column => column.displayName.primary := by
  induction expansion generalizing owner next path with
  | nil => exact ⟨rfl, rfl⟩
  | plain source rest ih =>
    obtain ⟨hown, hbelow⟩ := ih owner next path
    refine ⟨?_, hbelow⟩
    simp only [grown, hown]
    cases hprimary : (source.mounted (tableAlias owner) (leadOf path)).isPrimary <;>
      simp [shape, Shape.demanded, Shape.nodes, hprimary]
  | follow source table referenced inner rest ihInner ihRest =>
    obtain ⟨hinner, hinnerBelow⟩ := ihInner next (next + 1) (path ++ [source])
    obtain ⟨hown, hbelow⟩ := ihRest owner (next + 1 + inner.size) path
    constructor
    · simpa [grown, shape, Shape.demanded, Shape.nodes] using hown
    · simp [grown, shape, Shape.places, hinner, hinnerBelow, hbelow]

end Expansion

/-- **What is required.** Where keys are apart, the names that are listed for a table are those
of its columns without a branch that belong to no primary key. -/
theorem Resource.required_eq {schema : Schema} {root : Table} {resource : Resource}
    (hcompile : compile schema root = .ok resource)
    (hapart : ∀ table ∈ resource.tables, schema.KeysApart table) :
    resource.required = resource.submodels.map fun part =>
      part.2.demanded.map fun column => column.displayName.primary := by
  obtain ⟨expansion, hexpands, hmounted, -⟩ := mounted_of_compile hcompile
  have hshape := shape_eq hmounted hexpands hapart
  have hrequired : resource.required =
      (expansion.grown 0 1 []).required :: (expansion.grown 0 1 []).requiredBelow :=
    congrArg Mounted.required hmounted
  obtain ⟨hown, hbelow⟩ := expansion.required_grown 0 1 []
  rw [hrequired, hown, hbelow, submodels, hshape]
  rfl

/-! ## Bodies object by object -/

namespace Shape

/-- The tables below, each with the object that a payload gives at its place: an empty one
where nothing is said, or only a plain value. -/
def levels (payload : Entries Json) : Shape → List ((Placed × Shape) × Entries Json)
  | nil => []
  | leaf _ rest => rest.levels payload
  | branch column placed inner rest =>
    ((placed, inner), (column.givenIn payload).payload) ::
      inner.levels (column.givenIn payload).payload ++ rest.levels payload

/-- The levels are the places, in their order. -/
theorem map_levels (shape : Shape) (payload : Entries Json) :
    (shape.levels payload).map Prod.fst = shape.places := by
  induction shape generalizing payload with
  | nil => rfl
  | leaf _ _ ih => exact ih payload
  | branch column _ _ _ ihInner ihRest =>
    rw [levels, places, List.map_append, List.map_cons, ihInner, ihRest]

/-- All keys are known in the objects that a payload gives below. -/
def KnowsBelow (payload : Entries Json) : Shape → Prop
  | nil => True
  | leaf _ rest => rest.KnowsBelow payload
  | branch column _ inner rest =>
    (match column.givenIn payload with
      | .link _ => True
      | .row nested => inner.Knows nested ∧ inner.KnowsBelow nested) ∧
    rest.KnowsBelow payload

/-- A column with a branch is given an object or nothing, at every level. -/
def Unlinked (payload : Entries Json) : Shape → Prop
  | nil => True
  | leaf _ rest => rest.Unlinked payload
  | branch column _ inner rest =>
    (match column.givenIn payload with
      | .link _ => False
      | .row nested => inner.Unlinked nested) ∧
    rest.Unlinked payload

instance decidableKnowsBelow (payload : Entries Json) :
    (shape : Shape) → Decidable (shape.KnowsBelow payload)
  | nil => .isTrue trivial
  | leaf _ rest => rest.decidableKnowsBelow payload
  | branch column _ inner rest =>
    have : Decidable (rest.KnowsBelow payload) := rest.decidableKnowsBelow payload
    have : Decidable (match column.givenIn payload with
        | .link _ => True
        | .row nested => inner.Knows nested ∧ inner.KnowsBelow nested) :=
      match column.givenIn payload with
      | .link _ => .isTrue trivial
      | .row nested =>
        have : Decidable (inner.KnowsBelow nested) := inner.decidableKnowsBelow nested
        inferInstanceAs (Decidable (_ ∧ _))
    inferInstanceAs (Decidable (_ ∧ _))

instance decidableUnlinked (payload : Entries Json) :
    (shape : Shape) → Decidable (shape.Unlinked payload)
  | nil => .isTrue trivial
  | leaf _ rest => rest.decidableUnlinked payload
  | branch column _ inner rest =>
    have : Decidable (rest.Unlinked payload) := rest.decidableUnlinked payload
    have : Decidable (match column.givenIn payload with
        | .link _ => False
        | .row nested => inner.Unlinked nested) :=
      match column.givenIn payload with
      | .link _ => .isFalse id
      | .row nested => inner.decidableUnlinked nested
    inferInstanceAs (Decidable (_ ∧ _))

end Shape

namespace Resource

/-- The tables of the shape, each with the object that a body gives at its place. -/
def levels (resource : Resource) (body : Entries Json) : List ((Placed × Shape) × Entries Json) :=
  ((resource.root, resource.shape), body) :: resource.shape.levels body

/-- All keys of a body are known, at every level, and no plain value is given for a column with
a branch. -/
structure Unfolds (resource : Resource) (body : Entries Json) : Prop where
  keys : resource.shape.Knows body
  below : resource.shape.KnowsBelow body
  rows : resource.shape.Unlinked body

instance (resource : Resource) (body : Entries Json) : Decidable (resource.Unfolds body) :=
  decidable_of_iff
    (resource.shape.Knows body ∧ resource.shape.KnowsBelow body ∧ resource.shape.Unlinked body)
    ⟨fun h => ⟨h.1, h.2.1, h.2.2⟩, fun h => ⟨h.keys, h.below, h.rows⟩⟩

/-- A name is listed as required for a table, and the object at the table's place has neither
it nor an alias of its column as a key. -/
def Unsupplied (resource : Resource) (body : Entries Json) (name : String) : Prop :=
  ∃ (i : Nat) (names : List String) (part : Placed × Shape) (object : Entries Json)
    (column : Column), resource.required[i]? = some names ∧ name ∈ names ∧
    (resource.levels body)[i]? = some (part, object) ∧ (column, none) ∈ part.2.nodes ∧
    column.displayName.primary = name ∧ column.displayName.valueIn? object = none

end Resource

/-! ## Names that are lacking -/

/-- A column that a new row needs and for which a payload has no value. -/
def Column.lackedBy (column : Column) (payload : Entries Json) : Bool :=
  !column.isPrimary && (column.displayName.valueIn? payload).isNone

namespace Shape

/-- The required names for which a payload has no value, in the order in which they are looked
for. The object for a row below is looked through as `complete` leaves it. -/
def lacking (complete : Column → Shape → Entries Json → Entries Json) (payload : Entries Json) :
    Shape → List String
  | nil => []
  | leaf column rest =>
    (if column.lackedBy payload then [column.displayName.primary] else []) ++
      rest.lacking complete payload
  | branch column _ inner rest =>
    (match column.givenIn payload with
      | .link _ => []
      | .row nested => inner.lacking complete (complete column inner nested)) ++
    rest.lacking complete payload

/-- The required names for which a payload has no value. -/
def unsupplied (payload : Entries Json) (shape : Shape) : List String :=
  shape.lacking (fun _ _ nested => nested) payload

/-- The names that packing misses: an identifier, whichever it is, stands in the object for a
row below when it is looked through. -/
def missing (payload : Entries Json) (shape : Shape) : List String :=
  shape.lacking (fun column inner nested =>
    nested.completed .null (column.drawnUnder? inner nested)) payload

variable {shape : Shape} {payload : Entries Json} {name : String}

/-- A name is lacking in the object at hand. -/
def LacksHere (shape : Shape) (object : Entries Json) (name : String) : Prop :=
  ∃ column, (column, none) ∈ shape.nodes ∧ column.lackedBy object = true ∧
    column.displayName.primary = name

theorem lacksHere_leaf {column : Column} {rest : Shape} :
    (leaf column rest).LacksHere payload name ↔
      (column.lackedBy payload = true ∧ column.displayName.primary = name) ∨
        rest.LacksHere payload name := by
  simp [LacksHere, nodes, or_and_right, exists_or]

theorem lacksHere_branch {column : Column} {placed : Placed} {inner rest : Shape} :
    (branch column placed inner rest).LacksHere payload name ↔ rest.LacksHere payload name := by
  simp [LacksHere, nodes]

/-- What is lacking is lacking in one of the objects. -/
theorem mem_unsupplied_iff (hunlinked : shape.Unlinked payload) :
    name ∈ shape.unsupplied payload ↔
      shape.LacksHere payload name ∨
        ∃ level ∈ shape.levels payload, level.1.2.LacksHere level.2 name := by
  unfold unsupplied
  induction shape generalizing payload with
  | nil => simp [lacking, LacksHere, nodes, levels]
  | leaf column rest ih =>
    rw [lacking, levels, lacksHere_leaf, List.mem_append, ih hunlinked, or_assoc]
    refine or_congr_left ?_
    cases column.lackedBy payload <;> simp [eq_comm]
  | branch column placed inner rest ihInner ihRest =>
    obtain ⟨hgiven, hrest⟩ := hunlinked
    rw [lacking, levels, lacksHere_branch, List.mem_append, ihRest hrest]
    cases hrow : column.givenIn payload with
    | link value =>
      rw [hrow] at hgiven
      exact hgiven.elim
    | row nested =>
      rw [hrow] at hgiven
      have hinner := ihInner hgiven
      simp only [Given.payload, List.cons_append, List.mem_cons, List.mem_append, or_and_right,
        exists_or, exists_eq_left]
      rw [hinner, or_left_comm, or_assoc]

end Shape

namespace Resource

variable {schema : Schema} {root : Table} {resource : Resource}

/-- Of the columns of a table without a branch only one has a primary name. -/
theorem leaf_of_primary (hcompile : compile schema root = .ok resource) {part : Placed × Shape}
    (hpart : part ∈ resource.submodels) {column other : Column}
    (hcolumn : (column, none) ∈ part.2.nodes) (hother : (other, none) ∈ part.2.nodes)
    (hsame : column.displayName.primary = other.displayName.primary) : column = other := by
  have hleaves : part.2.leaves ⊆ resource.shape.leaves := by
    rcases List.mem_cons.1 hpart with rfl | hplace
    · exact List.Subset.refl _
    · exact (Shape.leaves_sublist_of_place hplace).subset
  refine Name.eq_of_matches (leaves_apart hcompile) (hleaves (Shape.mem_leaves_of_node hcolumn))
    (hleaves (Shape.mem_leaves_of_node hother)) column.displayName.matchesText_primary ?_
  rw [hsame]
  exact other.displayName.matchesText_primary

/-- A required name is unsupplied if the body lacks it. -/
theorem unsupplied_iff (hcompile : compile schema root = .ok resource)
    (hapart : ∀ table ∈ resource.tables, schema.KeysApart table) {body : Entries Json}
    (hunlinked : resource.shape.Unlinked body) {name : String} :
    resource.Unsupplied body name ↔ name ∈ resource.shape.unsupplied body := by
  have hlevels : (resource.levels body).map Prod.fst = resource.submodels :=
    congrArg (_ :: ·) (resource.shape.map_levels body)
  have hmem : name ∈ resource.shape.unsupplied body ↔
      ∃ level ∈ resource.levels body, level.1.2.LacksHere level.2 name := by
    rw [Shape.mem_unsupplied_iff hunlinked, levels, List.exists_mem_cons_iff]
  have hrequired : ∀ (i : Nat) (part : Placed × Shape) (object : Entries Json),
      (resource.levels body)[i]? = some (part, object) → resource.required[i]? =
        some (part.2.demanded.map fun column => column.displayName.primary) := by
    intro i part object hlevel
    rw [required_eq hcompile hapart, ← hlevels, List.getElem?_map, List.getElem?_map, hlevel]
    rfl
  rw [hmem]
  constructor
  · rintro ⟨i, names, part, object, column, hnames, hname, hlevel, hnode, rfl, hnone⟩
    obtain rfl := Option.some.inj ((hrequired i part object hlevel).symm.trans hnames)
    obtain ⟨demanded, hdemanded, hsame⟩ := List.mem_map.1 hname
    obtain ⟨hdemandedNode, hplain⟩ := Shape.mem_demanded.1 hdemanded
    have hpart : part ∈ resource.submodels :=
      hlevels ▸ List.mem_map_of_mem (List.mem_of_getElem? hlevel)
    have hsame : demanded = column :=
      leaf_of_primary hcompile hpart hdemandedNode hnode hsame
    refine ⟨_, List.mem_of_getElem? hlevel, column, hnode, ?_, rfl⟩
    rw [Column.lackedBy, hnone, ← hsame, hplain]
    rfl
  · rintro ⟨⟨part, object⟩, hlevel, column, hnode, hlacked, rfl⟩
    obtain ⟨i, hlevel⟩ := List.mem_iff_getElem?.1 hlevel
    unfold Column.lackedBy at hlacked
    rw [Bool.and_eq_true, Bool.not_eq_true', Option.isNone_iff_eq_none] at hlacked
    refine ⟨i, _, part, object, column, hrequired i part object hlevel, ?_, hlevel, hnode, rfl,
      hlacked.2⟩
    exact List.mem_map.2 ⟨column, Shape.mem_demanded.2 ⟨hnode, hlacked.1⟩, rfl⟩

end Resource

end TableApi
