import TableApi.Proofs.Renaming.Aliases

/-!
# What fills a pack

A pack is filled with a payload when each column of the table has there what it reads in
the payload: a plain value under the column's qualified name, an object under its branch
key, packed in its turn (`Shape.Filled`). Where a column reads nothing, the pack of a
renamed payload has nothing (`filled_packOf`), and the pack of a new row at most
identifiers (`filled_newPack`).

A new row is packed after its payload was completed by an identifier. This is read as
the value of another column only if that column shares a name with the referenced one.
-/

namespace TableApi

/-! ## What stands in a pack -/

/-- A column of a table with the branch that it opens. -/
abbrev Node : Type := Column × Option (Placed × Shape)

/-- The keys of a pack that belong to a node. -/
def Node.keys : Node → List String
  | (column, none) => [column.qualifiedName]
  | (column, some _) => [column.qualifiedName, column.branchKey]

/-- A value that is given for a node stands in a pack at that node: under the column's
qualified name or, if it is an object and the column has a branch, packed under the branch
key. -/
inductive StandsAt (pack : Entries Json) : Node → Json → Prop
  | leaf {column value} (hvalue : pack.get? column.qualifiedName = some value) :
      StandsAt pack (column, none) value
  | link {column opened value} (hplain : value.members? = none)
      (hvalue : pack.get? column.qualifiedName = some value)
      (hbranch : pack.get? column.branchKey = none) : StandsAt pack (column, some opened) value
  | row {column opened nested packed} (hvalue : pack.get? column.qualifiedName = none)
      (hbranch : pack.get? column.branchKey = some (.obj packed)) :
      StandsAt pack (column, some opened) (.obj nested)

/-- What is found under the keys of a node settles what stands there. -/
theorem StandsAt.congr {pack other : Entries Json} {node : Node} {value : Json}
    (h : StandsAt pack node value) (hkeys : ∀ key ∈ node.keys, pack.get? key = other.get? key) :
    StandsAt other node value := by
  cases h with
  | leaf hvalue =>
    exact .leaf ((hkeys _ List.mem_cons_self).symm.trans hvalue)
  | link hplain hvalue hbranch =>
    have hname := hkeys _ List.mem_cons_self
    have hbelow := hkeys _ (List.mem_cons_of_mem _ List.mem_cons_self)
    exact .link hplain (hname.symm.trans hvalue) (hbelow.symm.trans hbranch)
  | row hvalue hbranch =>
    have hname := hkeys _ List.mem_cons_self
    have hbelow := hkeys _ (List.mem_cons_of_mem _ List.mem_cons_self)
    exact .row (hname.symm.trans hvalue) (hbelow.symm.trans hbranch)

namespace Shape

variable {shape inner rest : Shape} {column : Column} {placed : Placed}
  {idle : Json → Prop} {payload pack others nested packed : Entries Json}

/-- A pack has at a node what its column reads in a payload. If it reads nothing, or
nothing but identifiers, no more than identifiers stand there. -/
structure FilledAt (idle : Json → Prop) (payload pack : Entries Json) (node : Node) : Prop where
  given : ∀ value, node.1.displayName.valueIn? payload = some value → StandsAt pack node value
  idle : (∀ value, node.1.displayName.valueIn? payload = some value → idle value) →
    ∀ key ∈ node.keys, ∀ found, pack.get? key = some found → idle found

/-- A pack has at every column of a table what the column reads in a payload, and so it is
down all branches. -/
def Filled (idle : Json → Prop) (payload pack : Entries Json) : Shape → Prop
  | nil => True
  | leaf column rest =>
    FilledAt idle payload pack (column, none) ∧ rest.Filled idle payload pack
  | branch column placed inner rest =>
    FilledAt idle payload pack (column, some (placed, inner)) ∧
    (∀ nested packed, column.displayName.valueIn? payload = some (.obj nested) →
      pack.get? column.branchKey = some (.obj packed) →
      inner.Knows nested ∧ inner.Filled idle nested packed) ∧
    rest.Filled idle payload pack

theorem FilledAt.congr {other : Entries Json} {node : Node}
    (h : FilledAt idle payload pack node)
    (hkeys : ∀ key ∈ node.keys, pack.get? key = other.get? key) :
    FilledAt idle payload other node := by
  refine ⟨fun value hvalue => (h.given value hvalue).congr hkeys, ?_⟩
  intro hread key hkey found hfound
  exact h.idle hread key hkey found ((hkeys key hkey).trans hfound)

/-- Whether a pack is filled is seen under the keys of the shape. -/
theorem Filled.congr {other : Entries Json} (h : shape.Filled idle payload pack)
    (hkeys : ∀ key ∈ shape.keys, pack.get? key = other.get? key) :
    shape.Filled idle payload other := by
  induction shape with
  | nil => trivial
  | leaf column rest ih =>
    rw [Shape.keys, List.forall_mem_cons] at hkeys
    refine ⟨h.1.congr ?_, ih h.2 hkeys.2⟩
    simpa [Node.keys] using hkeys.1
  | branch column placed inner rest _ ih =>
    rw [Shape.keys, List.forall_mem_cons, List.forall_mem_cons] at hkeys
    obtain ⟨hname, hbranch, hrest⟩ := hkeys
    obtain ⟨hat, hinner, h⟩ := h
    refine ⟨hat.congr ?_, ?_, ih h hrest⟩
    · simpa [Node.keys] using ⟨hname, hbranch⟩
    · intro nested packed hnested hpacked
      exact hinner nested packed hnested (hbranch.trans hpacked)

/-- An entry under a key that is none of the shape's fills nothing. -/
theorem Filled.cons (h : shape.Filled idle payload pack) {key : String} {value : Json}
    (hkey : key ∉ shape.keys) : shape.Filled idle payload ((key, value) :: pack) := by
  apply h.congr
  intro other hother
  have hne : key ≠ other := fun heq => hkey (heq ▸ hother)
  rw [Entries.get?_cons, if_neg hne]

/-! ## A pack is filled column by column -/

/-- A column is skipped that reads nothing and of which no key is in the pack. -/
theorem FilledAt.skip {node : Node} (hnone : node.1.displayName.valueIn? payload = none)
    (hkeys : ∀ key ∈ node.keys, pack.get? key = none) : FilledAt idle payload pack node := by
  constructor
  · intro value hvalue
    rw [hnone] at hvalue
    cases hvalue
  · intro _ key hkey found hfound
    rw [hkeys key hkey] at hfound
    cases hfound

theorem Filled.leaf (hkeyed : (Shape.leaf column rest).Keyed) {value : Json}
    (hvalue : column.displayName.valueIn? payload = some value ∨
      column.displayName.valueIn? payload = none ∧ idle value)
    (hrest : rest.Filled idle payload others) :
    (Shape.leaf column rest).Filled idle payload ((column.qualifiedName, value) :: others) := by
  have hown : Entries.get? ((column.qualifiedName, value) :: others) column.qualifiedName =
      some value := by
    rw [Entries.get?_cons, if_pos rfl]
  refine ⟨⟨?_, ?_⟩, hrest.cons hkeyed.1⟩
  · intro found hfound
    rcases hvalue with hvalue | ⟨hnone, -⟩
    · obtain rfl : value = found := Option.some.inj (hvalue.symm.trans hfound)
      exact .leaf hown
    · rw [hnone] at hfound
      cases hfound
  · intro hread key hkey found hfound
    obtain rfl : key = column.qualifiedName := by simpa [Node.keys] using hkey
    obtain rfl : value = found := Option.some.inj (hown.symm.trans hfound)
    exact hvalue.elim (hread value) And.right

theorem Filled.link (hkeyed : (Shape.branch column placed inner rest).Keyed) {value : Json}
    (hvalue : column.displayName.valueIn? payload = some value) (hplain : value.members? = none)
    (hothers : ∀ key ∈ others.keys, key ∈ rest.keys) (hrest : rest.Filled idle payload others) :
    (Shape.branch column placed inner rest).Filled idle payload
      ((column.qualifiedName, value) :: others) := by
  obtain ⟨hname, hbranch, -, -⟩ := hkeyed
  have hown : Entries.get? ((column.qualifiedName, value) :: others) column.qualifiedName =
      some value := by
    rw [Entries.get?_cons, if_pos rfl]
  have hnone : Entries.get? ((column.qualifiedName, value) :: others) column.branchKey = none := by
    have hne : column.qualifiedName ≠ column.branchKey := (branchKey_ne _).symm
    rw [Entries.get?_cons, if_neg hne, Entries.get?_eq_none_iff]
    exact fun hmem => hbranch (hothers _ hmem)
  refine ⟨⟨?_, ?_⟩, ?_, hrest.cons hname⟩
  · intro found hfound
    obtain rfl : value = found := Option.some.inj (hvalue.symm.trans hfound)
    exact .link hplain hown hnone
  · intro hread key hkey found hfound
    simp only [Node.keys, List.mem_cons, List.not_mem_nil, or_false] at hkey
    rcases hkey with rfl | rfl
    · obtain rfl : value = found := Option.some.inj (hown.symm.trans hfound)
      exact hread value hvalue
    · rw [hnone] at hfound
      cases hfound
  · intro nested packed _ hpacked
    rw [hnone] at hpacked
    cases hpacked

theorem Filled.row (hkeyed : (Shape.branch column placed inner rest).Keyed)
    (hgiven : ∀ value, column.displayName.valueIn? payload = some value →
      ∃ nested, value = .obj nested ∧ inner.Knows nested ∧ inner.Filled idle nested packed)
    (hidle : (∀ value, column.displayName.valueIn? payload = some value → idle value) →
      idle (.obj packed))
    (hothers : ∀ key ∈ others.keys, key ∈ rest.keys) (hrest : rest.Filled idle payload others) :
    (Shape.branch column placed inner rest).Filled idle payload
      ((column.branchKey, .obj packed) :: others) := by
  obtain ⟨hname, hbranch, -, -⟩ := hkeyed
  have hown : Entries.get? ((column.branchKey, Json.obj packed) :: others) column.branchKey =
      some (.obj packed) := by
    rw [Entries.get?_cons, if_pos rfl]
  have hnone : Entries.get? ((column.branchKey, Json.obj packed) :: others)
      column.qualifiedName = none := by
    have hne : column.branchKey ≠ column.qualifiedName := branchKey_ne _
    rw [Entries.get?_cons, if_neg hne, Entries.get?_eq_none_iff]
    exact fun hmem => hname (hothers _ hmem)
  refine ⟨⟨?_, ?_⟩, ?_, hrest.cons hbranch⟩
  · intro value hvalue
    obtain ⟨nested, rfl, -, -⟩ := hgiven value hvalue
    exact .row hnone hown
  · intro hread key hkey found hfound
    simp only [Node.keys, List.mem_cons, List.not_mem_nil, or_false] at hkey
    rcases hkey with rfl | rfl
    · rw [hnone] at hfound
      cases hfound
    · obtain rfl : Json.obj packed = found := Option.some.inj (hown.symm.trans hfound)
      exact hidle hread
  · intro nested packed' hnested hpacked
    obtain ⟨nested', heq, hknows, hfilled⟩ := hgiven _ hnested
    cases heq
    obtain rfl : packed = packed' := Json.obj.inj (Option.some.inj (hown.symm.trans hpacked))
    exact ⟨hknows, hfilled⟩

/-! ## Renaming -/

/-- Renaming writes under keys of the shape. -/
theorem keys_packOf (h : shape.packOf payload = .ok pack) : ∀ key ∈ pack.keys, key ∈ shape.keys := by
  induction shape generalizing pack with
  | nil =>
    cases h
    intro key hkey
    cases hkey
  | leaf column rest ih =>
    rcases packOf_leaf h with ⟨-, hrest⟩ | ⟨value, others, -, hrest, rfl⟩
    · intro key hkey
      exact List.mem_cons_of_mem _ (ih hrest key hkey)
    · simp only [Entries.keys_cons, List.forall_mem_cons]
      exact ⟨List.mem_cons_self, fun key hkey => List.mem_cons_of_mem _ (ih hrest key hkey)⟩
  | branch column placed inner rest _ ih =>
    have hlater : ∀ {others}, rest.packOf payload = .ok others →
        ∀ key ∈ Entries.keys others, key ∈ (Shape.branch column placed inner rest).keys :=
      fun hrest key hkey => List.mem_cons_of_mem _ (List.mem_cons_of_mem _ (ih hrest key hkey))
    rcases packOf_branch h with ⟨-, hrest⟩ | ⟨value, others, -, -, hrest, rfl⟩ |
      ⟨nested, below, others, -, -, -, hrest, rfl⟩
    · exact hlater hrest
    · simp only [Entries.keys_cons, List.forall_mem_cons]
      exact ⟨List.mem_cons_self, hlater hrest⟩
    · simp only [Entries.keys_cons, List.forall_mem_cons]
      exact ⟨List.mem_cons_of_mem _ List.mem_cons_self, hlater hrest⟩

/-- Renaming fills a pack, and nothing stands in it that was not given. -/
theorem filled_packOf (hkeyed : shape.Keyed) (h : shape.packOf payload = .ok pack) :
    shape.Filled (fun _ => False) payload pack := by
  induction shape generalizing payload pack with
  | nil => trivial
  | leaf column rest ih =>
    rcases packOf_leaf h with ⟨hnone, hrest⟩ | ⟨value, others, hvalue, hrest, rfl⟩
    · refine ⟨.skip hnone ?_, ih hkeyed.2 hrest⟩
      intro key hkey
      obtain rfl : key = column.qualifiedName := by simpa [Node.keys] using hkey
      rw [Entries.get?_eq_none_iff]
      exact fun hmem => hkeyed.1 (keys_packOf hrest _ hmem)
    · exact Filled.leaf hkeyed (.inl hvalue) (ih hkeyed.2 hrest)
  | branch column placed inner rest ihInner ihRest =>
    have hinner := hkeyed.2.2.1
    have hlater := hkeyed.2.2.2
    rcases packOf_branch h with ⟨hnone, hrest⟩ | ⟨value, others, hvalue, hplain, hrest, rfl⟩ |
      ⟨nested, below, others, hvalue, hknown, hbelow, hrest, rfl⟩
    · refine ⟨.skip hnone ?_, ?_, ihRest hlater hrest⟩
      · intro key hkey
        simp only [Node.keys, List.mem_cons, List.not_mem_nil, or_false] at hkey
        rw [Entries.get?_eq_none_iff]
        rcases hkey with rfl | rfl
        · exact fun hmem => hkeyed.1 (keys_packOf hrest _ hmem)
        · exact fun hmem => hkeyed.2.1 (keys_packOf hrest _ hmem)
      · intro nested packed hnested
        rw [hnone] at hnested
        cases hnested
    · exact Filled.link hkeyed hvalue hplain (keys_packOf hrest) (ihRest hlater hrest)
    · refine Filled.row hkeyed ?_ ?_ (keys_packOf hrest) (ihRest hlater hrest)
      · intro value hread
        obtain rfl : Json.obj nested = value := Option.some.inj (hvalue.symm.trans hread)
        exact ⟨nested, rfl, checkKeys_ok_iff.1 hknown, ihInner hinner hbelow⟩
      · intro hread
        exact hread _ hvalue

end Shape

/-! ## New rows -/

section Draw

variable {σ : Type} {draw : IdGenerator → StateM σ Json} {shape inner : Shape} {column : Column}
  {placed : Placed} {payload nested completed pack : Entries Json} {before after : σ}

/-- A value is an identifier that may be drawn, or stands in one. -/
def Drawable (draw : IdGenerator → StateM σ Json) (value : Json) : Prop :=
  ∃ ids state, Json.Within value ((draw ids).run state).1

/-- No plain value stands in a document but those that may be drawn. -/
def OnlyDrawn (draw : IdGenerator → StateM σ Json) (document : Json) : Prop :=
  ∀ value, value.members? = none → Json.Within value document → Drawable draw value

theorem onlyDrawn_of_run {ids : IdGenerator} {id : Json}
    (hdraw : (draw ids).run before = (id, after)) : OnlyDrawn draw id := by
  intro value _ hwithin
  refine ⟨ids, before, ?_⟩
  rw [hdraw]
  exact hwithin

/-- A completed payload holds what it held before and what may be drawn. -/
theorem Column.Completes.occurs_or_drawable
    (h : column.Completes draw placed inner nested completed before after) {value : Json}
    (hoccurs : Occurs value completed) : Occurs value nested ∨ Drawable draw value := by
  unfold Completes at h
  cases hdrawn : column.drawnUnder? inner nested with
  | none =>
    rw [hdrawn] at h
    rw [h.1] at hoccurs
    exact .inl hoccurs
  | some name =>
    rw [hdrawn] at h
    obtain ⟨id, hdraw, rfl⟩ := h
    obtain ⟨entry, hentry, hwithin⟩ := hoccurs
    rcases Entries.mem_put hentry with rfl | hold
    · refine .inr ⟨placed.table.ids, before, ?_⟩
      rw [hdraw]
      exact hwithin
    · exact .inl ⟨entry, hold, hwithin⟩

/-- The keys of a payload are known if those of the completed one are. -/
theorem Column.Completes.knows
    (h : column.Completes draw placed inner nested completed before after)
    (hknown : inner.checkKeys completed = .ok ()) : inner.Knows nested := by
  intro key hkey
  apply Shape.checkKeys_ok_iff.1 hknown
  unfold Completes at h
  split at h
  · rw [h.1]
    exact hkey
  · obtain ⟨id, -, rfl⟩ := h
    rw [Entries.keys_put]
    split
    · exact hkey
    · exact List.mem_append_left _ hkey

/-- Where no text names two columns, a column reads in a completed payload what it read
before, or it read nothing and now reads the identifier. -/
theorem Column.Completes.reads
    (h : column.Completes draw placed inner nested completed before after)
    (hown : inner.UnsharedHere) {other : Column} (hother : other ∈ inner.columns) :
    other.displayName.valueIn? completed = other.displayName.valueIn? nested ∨
    other.displayName.valueIn? nested = none ∧
      ∃ id, other.displayName.valueIn? completed = some id ∧ OnlyDrawn draw id := by
  unfold Completes drawnUnder? at h
  cases htarget : column.relation.bind fun target => inner.column? target.column with
  | none =>
    rw [htarget] at h
    exact .inl (h.1 ▸ rfl)
  | some target =>
    rw [htarget] at h
    by_cases hgiven : (target.displayName.valueIn? nested).isSome = true
    · simp only [hgiven, if_true] at h
      exact .inl (h.1 ▸ rfl)
    · simp only [hgiven] at h
      obtain ⟨id, hdraw, rfl⟩ := h
      rw [Name.valueIn?_put]
      split
      · next htakes =>
        -- The identifier stands under a name of the referenced column, so this is it.
        have hmatches : other.displayName.matchesText target.displayName.primary = true := by
          have hfound := List.mem_of_find?_eq_some (eq_of_beq htakes)
          exact (Name.matchesText_iff _ _).2 (List.mem_cons.1 hfound)
        have hinner : target ∈ inner.columns := by
          obtain ⟨ref, -, hcolumn⟩ := Option.bind_eq_some_iff.1 htarget
          exact List.mem_of_find?_eq_some hcolumn
        obtain rfl : other = target :=
          hown.eq_of_matches hother hinner hmatches target.displayName.matchesText_primary
        exact .inr ⟨by simpa using hgiven, id, rfl, onlyDrawn_of_run hdraw⟩
      · exact .inl rfl

/-- A pack that is filled with a completed payload is filled with what was given. -/
theorem Shape.Filled.of_completes {shape : Shape} (hfilled : shape.Filled (OnlyDrawn draw) completed pack)
    (hreads : ∀ column ∈ shape.columns,
      column.displayName.valueIn? completed = column.displayName.valueIn? nested ∨
      column.displayName.valueIn? nested = none ∧
        ∃ id, column.displayName.valueIn? completed = some id ∧ OnlyDrawn draw id) :
    shape.Filled (OnlyDrawn draw) nested pack := by
  have hat : ∀ {node : Node}, (node.1.displayName.valueIn? completed =
        node.1.displayName.valueIn? nested ∨ node.1.displayName.valueIn? nested = none ∧
          ∃ id, node.1.displayName.valueIn? completed = some id ∧ OnlyDrawn draw id) →
      FilledAt (OnlyDrawn draw) completed pack node →
      FilledAt (OnlyDrawn draw) nested pack node := by
    intro node hread hnode
    rcases hread with hsame | ⟨hnone, id, hid, hdrawn⟩
    · refine ⟨fun value hvalue => hnode.given value (hsame.trans hvalue), fun hidle => ?_⟩
      exact hnode.idle fun value hvalue => hidle value (hsame.symm.trans hvalue)
    · refine ⟨fun value hvalue => ?_, fun _ => hnode.idle fun value hvalue => ?_⟩
      · rw [hnone] at hvalue
        cases hvalue
      · obtain rfl : id = value := Option.some.inj (hid.symm.trans hvalue)
        exact hdrawn
  induction shape with
  | nil => trivial
  | leaf column rest ih =>
    rw [columns, List.forall_mem_cons] at hreads
    exact ⟨hat hreads.1 hfilled.1, ih hfilled.2 hreads.2⟩
  | branch column placed inner rest _ ih =>
    rw [columns, List.forall_mem_cons] at hreads
    obtain ⟨hnode, hinner, hrest⟩ := hfilled
    refine ⟨hat hreads.1 hnode, ?_, ih hrest hreads.2⟩
    intro given packed hgiven hpacked
    rcases hreads.1 with hsame | ⟨hnone, -⟩
    · exact hinner given packed (hsame.trans hgiven) hpacked
    · rw [hnone] at hgiven
      cases hgiven

/-- Each plain value of a new row's pack stands in the payload, or it may be drawn. -/
theorem Shape.occurs_newPack {ids : IdGenerator}
    (h : outcome (shape.newPack draw ids payload) before = (.ok pack, after)) {value : Json}
    (hplain : value.members? = none) (hoccurs : Occurs value pack) :
    Occurs value payload ∨ Drawable draw value := by
  induction shape generalizing ids payload pack before after with
  | nil =>
    cases h
    obtain ⟨entry, hentry, -⟩ := hoccurs
    cases hentry
  | leaf column rest ih =>
    obtain ⟨found, middle, others, hfound, hothers, rfl⟩ := newPack_leaf h
    obtain ⟨entry, hentry, hwithin⟩ := hoccurs
    rcases List.mem_cons.1 hentry with rfl | hentry
    · rcases Column.outcome_newValue hfound with ⟨hread, -⟩ | ⟨-, hdraw⟩
      · exact .inl (.of_valueIn? hread hwithin)
      · exact .inr (onlyDrawn_of_run hdraw value hplain hwithin)
    · exact ih hothers ⟨entry, hentry, hwithin⟩
  | branch column placed inner rest ihInner ihRest =>
    rcases newPack_branch h with ⟨found, others, hgiven, hothers, rfl⟩ |
      ⟨nested, completed, below, others, _, _, hgiven, hcompletes, -, hbelow, hothers, rfl⟩
    · obtain ⟨entry, hentry, hwithin⟩ := hoccurs
      rcases List.mem_cons.1 hentry with rfl | hentry
      · exact .inl (.of_valueIn? (Column.valueIn?_of_link hgiven) hwithin)
      · exact ihRest hothers ⟨entry, hentry, hwithin⟩
    · obtain ⟨entry, hentry, hwithin⟩ := hoccurs
      rcases List.mem_cons.1 hentry with rfl | hentry
      · rcases ihInner hbelow (.of_object hplain hwithin) with hcompleted | hdrawn
        · exact (hcompletes.occurs_or_drawable hcompleted).imp_left (.of_row hgiven)
        · exact .inr hdrawn
      · exact ihRest hothers ⟨entry, hentry, hwithin⟩

/-- Packing a new row fills a pack, and nothing else stands in it than identifiers. -/
theorem Shape.filled_newPack (hkeyed : shape.Keyed)
    (hbelow : ∀ place ∈ shape.places, place.2.UnsharedHere) {ids : IdGenerator}
    (h : outcome (shape.newPack draw ids payload) before = (.ok pack, after)) :
    shape.Filled (OnlyDrawn draw) payload pack := by
  induction shape generalizing ids payload pack before after with
  | nil => trivial
  | leaf column rest ih =>
    obtain ⟨value, middle, others, hvalue, hothers, rfl⟩ := newPack_leaf h
    refine Filled.leaf hkeyed ?_ (ih hkeyed.2 hbelow hothers)
    rcases Column.outcome_newValue hvalue with ⟨hread, -⟩ | ⟨hnone, hdraw⟩
    · exact .inl hread
    · exact .inr ⟨hnone, onlyDrawn_of_run hdraw⟩
  | branch column placed inner rest ihInner ihRest =>
    simp only [places, List.cons_append, List.forall_mem_cons, List.forall_mem_append] at hbelow
    obtain ⟨hown, hbelowInner, hbelowRest⟩ := hbelow
    obtain ⟨-, -, hinner, hrest⟩ := id hkeyed
    rcases newPack_branch h with ⟨value, others, hgiven, hothers, rfl⟩ |
      ⟨nested, completed, below, others, _, _, hgiven, hcompletes, hknown, hpacked, hothers, rfl⟩
    · exact Filled.link hkeyed (Column.valueIn?_of_link hgiven) (Column.plain_of_link hgiven)
        (keys_newPack hothers).2 (ihRest hrest hbelowRest hothers)
    · have hfilled : inner.Filled (OnlyDrawn draw) nested below :=
        (ihInner hinner hbelowInner hpacked).of_completes fun other hother =>
          hcompletes.reads hown hother
      refine Filled.row hkeyed ?_ ?_ (keys_newPack hothers).2 (ihRest hrest hbelowRest hothers)
      · intro value hread
        rcases Column.valueIn?_of_row hgiven with hobject | ⟨hnone, -⟩
        · obtain rfl : Json.obj nested = value := Option.some.inj (hobject.symm.trans hread)
          exact ⟨nested, rfl, hcompletes.knows hknown, hfilled⟩
        · rw [hnone] at hread
          cases hread
      · intro hidle value hplain hwithin
        have hbelow := occurs_newPack hpacked hplain (.of_object hplain hwithin)
        rcases hbelow.imp_left hcompletes.occurs_or_drawable with (hnested | hdrawn) | hdrawn
        · rcases Column.valueIn?_of_row hgiven with hobject | ⟨-, rfl⟩
          · obtain ⟨entry, hentry, hwithin⟩ := hnested
            exact hidle _ hobject value hplain (.member hentry hwithin)
          · obtain ⟨entry, hentry, -⟩ := hnested
            cases hentry
        · exact hdrawn
        · exact hdrawn

end Draw

end TableApi
