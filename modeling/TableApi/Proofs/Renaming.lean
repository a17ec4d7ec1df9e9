import TableApi.Proofs.Deleting.KeyColumns
import TableApi.Proofs.Introspection
import TableApi.Proofs.Inserting.Fresh

/-!
# Payloads and packs that say the same

A payload that has a value for every column, under primary display names and in the
order of the columns, and a pack with the same values under qualified names differ in
their keys only. `Shape.Renames` relates the two, table by table; a column with a branch
has either a plain value in both or an object in both. `Shape.Relabels` is the same for a
payload that leaves columns out.

Where no two columns of a table show under one name, every way between payloads and
packs follows this relation: packing a new row draws no identifier and gives the pack
(`Shape.Renames.newPack`), renaming the payload gives the pack too
(`Shape.Renames.packOf`), and renaming the pack gives back the payload
(`Shape.Relabels.payloadPairs`).
-/

namespace TableApi

/-! ## Names that are apart -/

/-- The primary display names of a table's columns. -/
def Shape.names (shape : Shape) : List String :=
  shape.columns.map fun column => column.displayName.primary

/-- No two columns of one table show under the same name, neither in the table nor
below it. -/
structure Shape.NamesApart (shape : Shape) : Prop where
  own : shape.names.Nodup
  below : ∀ place ∈ shape.places, place.2.names.Nodup

instance (shape : Shape) : Decidable shape.NamesApart :=
  decidable_of_iff (shape.names.Nodup ∧ ∀ place ∈ shape.places, place.2.names.Nodup)
    ⟨fun h => ⟨h.1, h.2⟩, fun h => ⟨h.own, h.below⟩⟩

/-- The columns of a table differ in their names and show under them. -/
structure Table.ShowsNames (table : Table) : Prop where
  apart : (table.columns.map Column.name).Nodup
  shown : ∀ column ∈ table.columns, column.displayName.primary = column.name

instance (table : Table) : Decidable table.ShowsNames :=
  decidable_of_iff ((table.columns.map Column.name).Nodup ∧
      ∀ column ∈ table.columns, column.displayName.primary = column.name)
    ⟨fun h => ⟨h.1, h.2⟩, fun h => ⟨h.apart, h.shown⟩⟩

/-- A table that shows names is mounted with names that are apart: they all have the same
lead. -/
theorem Schema.Mounts.nodup_names {schema : Schema} {table : Table} {mounted : Mounted}
    (h : schema.Mounts table mounted) (hshows : table.ShowsNames) :
    (Slot.shape mounted.entries).names.Nodup := by
  obtain ⟨hops, path, index, lead, h⟩ := h
  have hkeyed := keyed_of_mountTable h
  obtain ⟨-, -, hops', grown, -, hgrown, rfl⟩ := mountTable_ok h
  have hcolumns : (Slot.shape (Entries.ofList grown.entries)).columns.Nodup :=
    List.Nodup.of_map _ hkeyed.nodup_qualifiedNames
  refine List.Nodup.map_on ?_ hcolumns
  intro column hcolumn other hother hsame
  obtain ⟨source, hsource, rfl⟩ := (mem_columns_mountColumns hgrown).1 hcolumn
  obtain ⟨target, htarget, rfl⟩ := (mem_columns_mountColumns hgrown).1 hother
  have hmem : ∀ {c : Column}, Entries.get? (schema.written table.visibleColumns).reverse
      c.qualifiedName = some (some c) → c ∈ table.columns := by
    intro c hc
    have hvisible := (mem_written (List.mem_reverse.1 (Entries.mem_of_get? hc))).1
    exact List.mem_of_mem_filter hvisible
  have hprimary : source.displayName.primary = target.displayName.primary :=
    (String.append_right_inj lead).1 hsame
  rw [hshows.shown source (hmem hsource), hshows.shown target (hmem htarget)] at hprimary
  rw [List.inj_on_of_nodup_map hshows.apart (hmem hsource) (hmem htarget) hprimary]

/-- A resource over tables that show names has its names apart. -/
theorem Resource.namesApart {schema : Schema} {root : Table} {resource : Resource}
    (hcompile : Resource.compile schema root = .ok resource)
    (hshows : ∀ table ∈ root :: schema.tables, table.ShowsNames) : resource.shape.NamesApart := by
  have hmount := mountTable_of_compile hcompile
  constructor
  · have hmounts : schema.Mounts root resource.toMounted := ⟨_, _, _, _, hmount⟩
    exact hmounts.nodup_names (hshows root List.mem_cons_self)
  · rintro ⟨placed, inner⟩ hplace
    obtain ⟨found, below, path, hfound, hmounts, -, rfl⟩ := Schema.mounts_of_place hmount hplace
    have hmem := Schema.mem_tables_of_table? hfound
    exact hmounts.nodup_names (hshows found (List.mem_cons_of_mem _ hmem))

/-! ## A payload and its pack -/

/-- A payload under primary display names, in the order of the columns, and the pack of
the same values. A column may be left out of both. -/
inductive Shape.Relabels : Shape → Entries Json → Entries Json → Prop
  | nil : Relabels .nil [] []
  | noLeaf {column rest payload pack} (hrest : Relabels rest payload pack) :
      Relabels (.leaf column rest) payload pack
  | leaf {column rest payload pack} (value : Json) (hrest : Relabels rest payload pack) :
      Relabels (.leaf column rest) ((column.displayName.primary, value) :: payload)
        ((column.qualifiedName, value) :: pack)
  | noBranch {column placed inner rest payload pack} (hrest : Relabels rest payload pack) :
      Relabels (.branch column placed inner rest) payload pack
  | link {column placed inner rest payload pack value} (hplain : value.members? = none)
      (hrest : Relabels rest payload pack) :
      Relabels (.branch column placed inner rest)
        ((column.displayName.primary, value) :: payload) ((column.qualifiedName, value) :: pack)
  | row {column placed inner rest payload pack nested below}
      (hinner : Relabels inner nested below) (hrest : Relabels rest payload pack) :
      Relabels (.branch column placed inner rest)
        ((column.displayName.primary, .obj nested) :: payload)
        ((column.branchKey, .obj below) :: pack)

/-- A payload with a value for every column, in order, and the pack of the same
values. -/
inductive Shape.Renames : Shape → Entries Json → Entries Json → Prop
  | nil : Renames .nil [] []
  | leaf {column rest payload pack} (value : Json) (hrest : Renames rest payload pack) :
      Renames (.leaf column rest) ((column.displayName.primary, value) :: payload)
        ((column.qualifiedName, value) :: pack)
  | link {column placed inner rest payload pack value} (hplain : value.members? = none)
      (hrest : Renames rest payload pack) :
      Renames (.branch column placed inner rest)
        ((column.displayName.primary, value) :: payload) ((column.qualifiedName, value) :: pack)
  | row {column placed inner rest payload pack nested below} (hinner : Renames inner nested below)
      (hrest : Renames rest payload pack) :
      Renames (.branch column placed inner rest)
        ((column.displayName.primary, .obj nested) :: payload)
        ((column.branchKey, .obj below) :: pack)

theorem Shape.Renames.relabels {shape : Shape} {payload pack : Entries Json}
    (h : shape.Renames payload pack) : shape.Relabels payload pack := by
  induction h with
  | nil => exact .nil
  | leaf value _ ih => exact .leaf value ih
  | link hplain _ ih => exact .link hplain ih
  | row _ _ ihInner ihRest => exact .row ihInner ihRest

/-- A name finds what stands under its primary text. -/
theorem Name.valueIn?_of_get? {name : Name} {payload : Entries Json} {value : Json}
    (h : payload.get? name.primary = some value) : name.valueIn? payload = some value := by
  unfold valueIn?
  rw [h]

theorem Name.valueIn?_isSome {name : Name} {payload : Entries Json}
    (h : name.primary ∈ payload.keys) : (name.valueIn? payload).isSome = true := by
  rw [← Entries.has_iff, Entries.has, Option.isSome_iff_exists] at h
  obtain ⟨value, hvalue⟩ := h
  rw [valueIn?_of_get? hvalue]
  rfl

/-- Keys that are primary names of the columns are known. -/
theorem Shape.checkKeys_of_names {shape : Shape} {payload : Entries Json}
    (h : payload.keys = shape.names) : shape.checkKeys payload = .ok () := by
  unfold checkKeys
  split
  · next key hfound =>
    exfalso
    obtain ⟨column, hcolumn, rfl⟩ := List.mem_map.1 (h ▸ List.mem_of_find?_eq_some hfound)
    have hmatches : column.displayName.matchesText column.displayName.primary = true :=
      (Name.matchesText_iff _ _).2 (.inl rfl)
    have hunknown := List.find?_some hfound
    rw [byDisplay?, Option.isNone_iff_eq_none, List.find?_eq_none] at hunknown
    exact hunknown column hcolumn hmatches
  · rfl

/-- A payload that has every column needs no identifier for the referenced one. -/
theorem Column.withTarget_of_names {σ : Type} (draw : IdGenerator → StateM σ Json)
    (column : Column) (placed : Placed) {inner : Shape} {payload : Entries Json}
    (h : payload.keys = inner.names) :
    column.withTarget draw placed inner payload = pure payload := by
  unfold withTarget
  split
  · rfl
  · next target htarget =>
    obtain ⟨ref, -, hfound⟩ := Option.bind_eq_some_iff.1 htarget
    have hmem : target.displayName.primary ∈ payload.keys := by
      rw [h]
      exact List.mem_map_of_mem (List.mem_of_find?_eq_some hfound)
    rw [if_pos (Name.valueIn?_isSome hmem)]

/-- An object that stands under a column's name is a new row. -/
theorem Column.givenIn_of_object {column : Column} {payload nested : Entries Json}
    (h : column.displayName.valueIn? payload = some (.obj nested)) :
    column.givenIn payload = .row nested := by
  unfold givenIn
  rw [h]

namespace Shape.Renames

variable {shape : Shape} {payload pack : Entries Json}

theorem keys_payload (h : shape.Renames payload pack) : payload.keys = shape.names := by
  induction h with
  | nil => rfl
  | leaf value _ ih => simp [Entries.keys_cons, names, columns, ih]
  | link _ _ ih => simp [Entries.keys_cons, names, columns, ih]
  | row _ _ _ ih => simp [Entries.keys_cons, names, columns, ih]

/-- In a payload of its own a table finds all that it names. -/
theorem get?_of_mem (h : shape.Renames payload pack) (hnames : shape.names.Nodup)
    {entry : String × Json} (hentry : entry ∈ payload) : payload.get? entry.1 = some entry.2 := by
  rw [← h.keys_payload] at hnames
  exact Entries.get?_of_mem hnames hentry

/-! ## From payloads to packs -/

/-- A payload that has every column is packed as it is. No identifier is drawn. -/
theorem newPack {σ : Type} (draw : IdGenerator → StateM σ Json) (h : shape.Renames payload pack)
    (hbelow : ∀ place ∈ shape.places, place.2.names.Nodup) (ids : IdGenerator)
    {whole : Entries Json} (hwhole : ∀ entry ∈ payload, whole.get? entry.1 = some entry.2) :
    shape.newPack draw ids whole = pure pack := by
  -- Along the columns the whole payload stays, and fewer and fewer of its entries matter.
  induction h generalizing ids whole with
  | nil => rfl
  | leaf value hrest ih =>
    rw [List.forall_mem_cons] at hwhole
    have hvalue := Name.valueIn?_of_get? hwhole.1
    have hothers := ih hbelow ids hwhole.2
    simp [Shape.newPack, Column.newValue, hvalue, hothers]
  | link hplain hrest ih =>
    rw [List.forall_mem_cons] at hwhole
    simp only [places, List.cons_append, List.forall_mem_cons, List.forall_mem_append] at hbelow
    have hgiven := Column.givenIn_of_plain (Name.valueIn?_of_get? hwhole.1) hplain
    have hothers := ih hbelow.2.2 ids hwhole.2
    simp [Shape.newPack, hgiven, hothers]
  | @row column placed inner rest payload pack nested below hinner hrest ihInner ihRest =>
    rw [List.forall_mem_cons] at hwhole
    simp only [places, List.cons_append, List.forall_mem_cons, List.forall_mem_append] at hbelow
    obtain ⟨hnames, hbelowInner, hbelowRest⟩ := hbelow
    have hgiven := Column.givenIn_of_object (Name.valueIn?_of_get? hwhole.1)
    have htarget := Column.withTarget_of_names draw column placed hinner.keys_payload
    have hknown : (liftM (inner.checkKeys nested) : Packing σ Unit) = pure () := by
      rw [Shape.checkKeys_of_names hinner.keys_payload]
      rfl
    have hnested : inner.newPack draw placed.table.ids nested = pure below :=
      ihInner hbelowInner _ fun entry hentry => hinner.get?_of_mem hnames hentry
    have hothers := ihRest hbelowRest ids hwhole.2
    simp [Shape.newPack, hgiven, htarget, hknown, hnested, hothers]

/-- Renaming the keys of a payload that has every column gives its pack. -/
theorem packOf (h : shape.Renames payload pack)
    (hbelow : ∀ place ∈ shape.places, place.2.names.Nodup) {whole : Entries Json}
    (hwhole : ∀ entry ∈ payload, whole.get? entry.1 = some entry.2) :
    shape.packOf whole = .ok pack := by
  induction h generalizing whole with
  | nil => rfl
  | leaf value hrest ih =>
    rw [List.forall_mem_cons] at hwhole
    have hvalue := Name.valueIn?_of_get? hwhole.1
    rw [Shape.packOf, ih hbelow hwhole.2, hvalue]
    rfl
  | @link column placed inner rest payload pack value hplain hrest ih =>
    rw [List.forall_mem_cons] at hwhole
    simp only [places, List.cons_append, List.forall_mem_cons, List.forall_mem_append] at hbelow
    have hvalue := Name.valueIn?_of_get? hwhole.1
    rw [Shape.packOf, ih hbelow.2.2 hwhole.2, hvalue]
    cases value with
    | obj members => cases hplain
    | _ => rfl
  | @row column placed inner rest payload pack nested below hinner hrest ihInner ihRest =>
    rw [List.forall_mem_cons] at hwhole
    simp only [places, List.cons_append, List.forall_mem_cons, List.forall_mem_append] at hbelow
    obtain ⟨hnames, hbelowInner, hbelowRest⟩ := hbelow
    have hvalue := Name.valueIn?_of_get? hwhole.1
    have hnested : inner.packOf nested = .ok below :=
      ihInner hbelowInner fun entry hentry => hinner.get?_of_mem hnames hentry
    rw [Shape.packOf, hvalue]
    simp only [Shape.checkKeys_of_names hinner.keys_payload, hnested, ihRest hbelowRest hwhole.2]
    rfl

end Shape.Renames

/-! ## From packs to payloads -/

namespace Shape.Relabels

variable {shape : Shape} {payload pack : Entries Json}

/-- The payload's keys are primary names of the columns, in their order. -/
theorem keys_sublist (h : shape.Relabels payload pack) : payload.keys.Sublist shape.names := by
  induction h with
  | nil => exact .slnil
  | noLeaf _ ih | noBranch _ ih => exact ih.cons _
  | leaf _ _ ih | link _ _ ih => exact ih.cons_cons _
  | row _ _ _ ih => exact ih.cons_cons _

theorem length_eq (h : shape.Relabels payload pack) : payload.length = pack.length := by
  induction h with
  | nil => rfl
  | noLeaf _ ih | noBranch _ ih => exact ih
  | leaf _ _ ih | link _ _ ih => simp [ih]
  | row _ _ _ ih => simp [ih]

/-- A pack has no keys but those of its shape. -/
theorem mem_keys_pack (h : shape.Relabels payload pack) {key : String} (hkey : key ∈ pack.keys) :
    key ∈ shape.keys := by
  induction h with
  | nil => cases hkey
  | noLeaf _ ih => exact List.mem_cons_of_mem _ (ih hkey)
  | noBranch _ ih => exact List.mem_cons_of_mem _ (List.mem_cons_of_mem _ (ih hkey))
  | leaf _ _ ih =>
    rcases List.mem_cons.1 hkey with rfl | hkey
    · exact List.mem_cons_self
    · exact List.mem_cons_of_mem _ (ih hkey)
  | link _ _ ih =>
    rcases List.mem_cons.1 hkey with rfl | hkey
    · exact List.mem_cons_self
    · exact List.mem_cons_of_mem _ (List.mem_cons_of_mem _ (ih hkey))
  | row _ _ _ ih =>
    rcases List.mem_cons.1 hkey with rfl | hkey
    · exact List.mem_cons_of_mem _ List.mem_cons_self
    · exact List.mem_cons_of_mem _ (List.mem_cons_of_mem _ (ih hkey))

/-- What a table's later columns find does not change when an entry of another key stands
in front. -/
theorem agrees_tail {rest : Shape} {key : String} {value : Json} {whole tail : Entries Json}
    (hkey : key ∉ rest.keys)
    (hwhole : ∀ other ∈ rest.keys, whole.get? other = Entries.get? ((key, value) :: tail) other) :
    ∀ other ∈ rest.keys, whole.get? other = tail.get? other := by
  intro other hother
  have hne : key ≠ other := by
    rintro rfl
    exact hkey hother
  rw [hwhole other hother, Entries.get?_cons, if_neg hne]

section Find

variable {column : Column} {placed : Placed} {inner rest : Shape} {whole tail : Entries Json}

/-- Nothing stands under a key that only the columns in front have. -/
theorem find_none (hrest : rest.Relabels payload tail) {key : String} (hkey : key ∉ rest.keys)
    (hwhole : whole.get? key = tail.get? key) : whole.get? key = none := by
  rw [hwhole, Entries.get?_eq_none_iff]
  intro hmem
  exact hkey (hrest.mem_keys_pack hmem)

theorem find_leaf {value : Json} (hkeyed : (Shape.leaf column rest).Keyed)
    (hwhole : ∀ key ∈ (Shape.leaf column rest).keys,
      whole.get? key = Entries.get? ((column.qualifiedName, value) :: tail) key) :
    whole.get? column.qualifiedName = some value ∧
      ∀ key ∈ rest.keys, whole.get? key = tail.get? key := by
  simp only [keys, List.forall_mem_cons] at hwhole
  refine ⟨?_, agrees_tail hkeyed.1 hwhole.2⟩
  rw [hwhole.1, Entries.get?_cons, if_pos rfl]

/-- A plain value stands under the column's own key, and there is no branch. -/
theorem find_link {value : Json} (hkeyed : (Shape.branch column placed inner rest).Keyed)
    (hrest : rest.Relabels payload tail)
    (hwhole : ∀ key ∈ (Shape.branch column placed inner rest).keys,
      whole.get? key = Entries.get? ((column.qualifiedName, value) :: tail) key) :
    whole.get? column.qualifiedName = some value ∧ whole.get? column.branchKey = none ∧
      ∀ key ∈ rest.keys, whole.get? key = tail.get? key := by
  obtain ⟨hname, hbranch, -, -⟩ := hkeyed
  simp only [keys, List.forall_mem_cons] at hwhole
  have hne : column.qualifiedName ≠ column.branchKey := (branchKey_ne _).symm
  refine ⟨?_, hrest.find_none hbranch ?_, agrees_tail hname hwhole.2.2⟩
  · rw [hwhole.1, Entries.get?_cons, if_pos rfl]
  · rw [hwhole.2.1, Entries.get?_cons, if_neg hne]

/-- A row stands under the branch key, and the column has no value of its own. -/
theorem find_row {below : Entries Json} (hkeyed : (Shape.branch column placed inner rest).Keyed)
    (hrest : rest.Relabels payload tail)
    (hwhole : ∀ key ∈ (Shape.branch column placed inner rest).keys,
      whole.get? key = Entries.get? ((column.branchKey, .obj below) :: tail) key) :
    whole.get? column.qualifiedName = none ∧ whole.get? column.branchKey = some (.obj below) ∧
      ∀ key ∈ rest.keys, whole.get? key = tail.get? key := by
  obtain ⟨hname, hbranch, -, -⟩ := hkeyed
  simp only [keys, List.forall_mem_cons] at hwhole
  have hne : column.branchKey ≠ column.qualifiedName := branchKey_ne _
  refine ⟨hrest.find_none hname ?_, ?_, agrees_tail hbranch hwhole.2.2⟩
  · rw [hwhole.1, Entries.get?_cons, if_neg hne]
  · rw [hwhole.2.1, Entries.get?_cons, if_pos rfl]

end Find

/-- Renaming the keys of the pack gives back the payload. -/
theorem payloadPairs (h : shape.Relabels payload pack) (hkeyed : shape.Keyed)
    (hbelow : ∀ place ∈ shape.places, place.2.names.Nodup) {whole : Entries Json}
    (hwhole : ∀ key ∈ shape.keys, whole.get? key = pack.get? key) :
    shape.payloadPairs whole = .ok payload := by
  induction h generalizing whole with
  | nil => rfl
  | noLeaf hrest ih =>
    simp only [keys, List.forall_mem_cons] at hwhole
    have hnone := hrest.find_none hkeyed.1 hwhole.1
    rw [Shape.payloadPairs, ih hkeyed.2 hbelow hwhole.2, hnone]
    rfl
  | leaf value hrest ih =>
    obtain ⟨hvalue, htail⟩ := find_leaf hkeyed hwhole
    rw [Shape.payloadPairs, ih hkeyed.2 hbelow htail, hvalue]
    rfl
  | noBranch hrest ih =>
    obtain ⟨hname, hbranch, -, hkeyedRest⟩ := hkeyed
    simp only [keys, List.forall_mem_cons] at hwhole
    simp only [places, List.cons_append, List.forall_mem_cons, List.forall_mem_append] at hbelow
    have hown := hrest.find_none hname hwhole.1
    have hnone := hrest.find_none hbranch hwhole.2.1
    simp only [Shape.payloadPairs, hown, hnone, ih hkeyedRest hbelow.2.2 hwhole.2.2]
    rfl
  | link hplain hrest ih =>
    obtain ⟨hvalue, hnone, htail⟩ := find_link hkeyed hrest hwhole
    simp only [places, List.cons_append, List.forall_mem_cons, List.forall_mem_append] at hbelow
    simp only [Shape.payloadPairs, hvalue, hnone, ih hkeyed.2.2.2 hbelow.2.2 htail]
    rfl
  | @row column placed inner rest payload pack nested below hinner hrest ihInner ihRest =>
    obtain ⟨hnone, hobject, htail⟩ := find_row hkeyed hrest hwhole
    simp only [places, List.cons_append, List.forall_mem_cons, List.forall_mem_append] at hbelow
    obtain ⟨hnames, hbelowInner, hbelowRest⟩ := hbelow
    have hnested := ihInner hkeyed.2.2.1 hbelowInner fun _ _ => rfl
    have hothers := ihRest hkeyed.2.2.2 hbelowRest htail
    have hentries : Entries.ofList nested = nested :=
      Entries.ofList_eq_self (hinner.keys_sublist.nodup hnames)
    simp only [Shape.payloadPairs, hnone, hobject, hothers]
    show (inner.payloadPairs below >>= fun pairs => _) = _
    rw [hnested]
    show (if nested.length ≠ below.length then _ else _) = _
    rw [if_neg (not_not.2 hinner.length_eq), hentries]
    rfl

end Shape.Relabels

/-! ## Payloads and packs of a resource -/

namespace Resource

variable {schema : Schema} {root : Table} {resource : Resource} {payload pack : Entries Json}

/-- A payload that has every column is packed without drawing an identifier. -/
theorem newPack_of_renames {σ : Type} (draw : IdGenerator → StateM σ Json)
    (hapart : resource.shape.NamesApart) (h : resource.shape.Renames payload pack) :
    resource.newPack draw payload = pure pack := by
  have hknown : (liftM (resource.shape.checkKeys payload) : Packing σ Unit) = pure () := by
    rw [Shape.checkKeys_of_names h.keys_payload]
    rfl
  rw [newPack, hknown, pure_bind]
  exact h.newPack draw hapart.below _ fun entry hentry => h.get?_of_mem hapart.own hentry

theorem packOf_of_renames (hapart : resource.shape.NamesApart)
    (h : resource.shape.Renames payload pack) : resource.packOf payload = .ok pack := by
  rw [packOf, Shape.checkKeys_of_names h.keys_payload]
  exact h.packOf hapart.below fun entry hentry => h.get?_of_mem hapart.own hentry

/-- The pack of a payload under primary names is renamed back to it. -/
theorem payloadOf_of_relabels (hkeyed : resource.shape.Keyed)
    (hapart : resource.shape.NamesApart) (h : resource.shape.Relabels payload pack) :
    resource.payloadOf pack = .ok payload := by
  rw [payloadOf, h.payloadPairs hkeyed hapart.below fun _ _ => rfl]
  show (if payload.length ≠ pack.length then _ else _) = _
  rw [if_neg (not_not.2 h.length_eq), Entries.ofList_eq_self (h.keys_sublist.nodup hapart.own)]

theorem payloadOf_of_renames (hkeyed : resource.shape.Keyed) (hapart : resource.shape.NamesApart)
    (h : resource.shape.Renames payload pack) : resource.payloadOf pack = .ok payload :=
  payloadOf_of_relabels hkeyed hapart h.relabels

end Resource

end TableApi
