import TableApi.Proofs.Packing
import TableApi.Resource.Write

/-!
# What the links of inserted rows lead to

Inserting a pack yields one statement for each row of the pack, in the order of
`Resource.brought`. A row may run behind others when it *rests on* them: each of
its columns with a branch holds the client's own plain value, or the value that
one of the others gives to the referenced column of the referenced table.

The order of the walk provides for this, with one exception. The identifier drawn
for a row is written into its payload, under the display name of the referenced
column; when a column with a branch of its own reads it there, it is mistaken for
a plain value of the client, and the row that it should lead to is never made.
`Shape.strays` says that this happens, and `Shape.Packed.supported` that all is
well without it.
-/

namespace TableApi

/-! ## Which value a name finds -/

/-- Whether a name finds what is written under `drawn` into a payload, instead of
what the payload says: no name or alias in front of `drawn` has a value. -/
def Name.takes (name : Name) (payload : Entries Json) (drawn : String) : Bool :=
  (name.primary :: name.aliases).find? (fun own => own == drawn || payload.has own) == some drawn

/-- The value that a payload gives for a name is the first under one of its texts. -/
theorem Name.valueIn?_eq (name : Name) (payload : Entries Json) :
    name.valueIn? payload = (name.primary :: name.aliases).findSome? payload.get? := by
  unfold valueIn?
  cases h : payload.get? name.primary <;> simp [h]

theorem Name.valueIn?_nil (name : Name) : name.valueIn? [] = none := by
  rw [valueIn?_eq, List.findSome?_eq_none_iff]
  exact fun _ _ => rfl

/-- After an identifier is written into a payload, a name finds the identifier or
what it found before. -/
theorem Name.valueIn?_put (name : Name) (payload : Entries Json) (drawn : String) (id : Json) :
    name.valueIn? (payload.put drawn id) =
      if name.takes payload drawn then some id else name.valueIn? payload := by
  rw [valueIn?_eq, valueIn?_eq]
  unfold takes
  induction name.primary :: name.aliases with
  | nil => rfl
  | cons own rest ih =>
    by_cases hown : own = drawn
    · simp [hown]
    · cases hhas : payload.get? own with
      | none => simp [hown, hhas, Entries.has, Entries.get?_put_of_ne, ih]
      | some value => simp [hown, hhas, Entries.has, Entries.get?_put_of_ne]

/-- What a payload says for a column depends on the value it gives for its name. -/
theorem Column.givenIn_congr {column : Column} {payload other : Entries Json}
    (h : column.displayName.valueIn? payload = column.displayName.valueIn? other) :
    column.givenIn payload = column.givenIn other := by
  unfold givenIn
  rw [h]

/-- Where nothing is said, the row below has no values. -/
theorem Column.givenIn_of_none {column : Column} {payload : Entries Json}
    (h : column.displayName.valueIn? payload = none) : column.givenIn payload = .row [] := by
  rw [givenIn, h]

/-! ## Identifiers that are taken for links -/

/-- Whether the identifier drawn for a row below `column` is read as a link by a
column of that row. -/
def Column.misreads (column : Column) (inner : Shape) (payload : Entries Json) : Bool :=
  match column.drawnUnder? inner payload with
  | none => false
  | some drawn => inner.nodes.any fun node =>
    node.2.isSome && node.1.displayName.takes payload drawn

/-- Whether an identifier strays when a payload is packed: it is read as a link
somewhere below. -/
def Shape.strays (payload : Entries Json) : Shape → Bool
  | nil => false
  | leaf _ rest => rest.strays payload
  | branch column _ inner rest =>
    (match column.givenIn payload with
      | .link _ => false
      | .row nested => column.misreads inner nested || inner.strays nested) ||
    rest.strays payload

/-- Two payloads say the same for the columns of a table with a branch. -/
def Shape.ReadsAlike (shape : Shape) (payload other : Entries Json) : Prop :=
  ∀ column opened, (column, some opened) ∈ shape.nodes →
    column.givenIn payload = column.givenIn other

theorem Shape.ReadsAlike.of_leaf {column : Column} {rest : Shape} {payload other : Entries Json}
    (h : (leaf column rest).ReadsAlike payload other) : rest.ReadsAlike payload other :=
  fun c opened hnode => h c opened (List.mem_cons_of_mem _ hnode)

theorem Shape.ReadsAlike.of_branch {column : Column} {placed : Placed} {inner rest : Shape}
    {payload other : Entries Json} (h : (branch column placed inner rest).ReadsAlike payload other) :
    column.givenIn payload = column.givenIn other ∧ rest.ReadsAlike payload other :=
  ⟨h column _ List.mem_cons_self, fun c opened hnode => h c opened (List.mem_cons_of_mem _ hnode)⟩

/-- Completing a payload changes nothing for the columns with a branch, if none of
them misreads the identifier. -/
theorem Column.Completes.readsAlike {σ : Type} {draw : IdGenerator → StateM σ Json}
    {column : Column} {placed : Placed} {inner : Shape} {payload completed : Entries Json}
    {before after : σ} (h : column.Completes draw placed inner payload completed before after)
    (hreads : column.misreads inner payload = false) : inner.ReadsAlike completed payload := by
  intro other opened hnode
  unfold Column.Completes at h
  unfold Column.misreads at hreads
  cases hdrawn : column.drawnUnder? inner payload with
  | none =>
    rw [hdrawn] at h
    rw [h.1]
  | some drawn =>
    rw [hdrawn] at h hreads
    obtain ⟨id, -, rfl⟩ := h
    have hother := List.any_eq_false.1 hreads _ hnode
    refine Column.givenIn_congr ?_
    rw [Name.valueIn?_put, if_neg (by simpa using hother)]

/-! ## Rows and what they rest on -/

/-- A row that a pack brings: its place, its shape, and what the client's body
says for it. -/
structure Brought where
  placed : Placed
  shape : Shape
  given : Entries Json

/-- The payload of a new row; that of a link is empty. -/
def Given.payload : Given → Entries Json
  | .link _ => []
  | .row payload => payload

/-- The rows below a row in the order in which they are inserted: those of a
branch, then the row that they belong to. -/
def Shape.brought (given pack : Entries Json) : Shape → List Brought
  | nil => []
  | leaf _ rest => rest.brought given pack
  | branch column placed inner rest =>
    (match pack.get? column.branchKey with
      | some (.obj below) =>
        inner.brought (column.givenIn given).payload below ++
          [⟨placed, inner, (column.givenIn given).payload⟩]
      | _ => []) ++
    rest.brought given pack

theorem Shape.brought_row {given pack nested below : Entries Json} {column : Column}
    {placed : Placed} {inner rest : Shape} (hgiven : column.givenIn given = .row nested)
    (hbranch : pack.get? column.branchKey = some (.obj below)) :
    (branch column placed inner rest).brought given pack =
      (inner.brought nested below ++ [⟨placed, inner, nested⟩]) ++ rest.brought given pack := by
  rw [brought, hbranch, hgiven]
  rfl

/-- The rows of a pack in the order in which they are inserted. -/
def Resource.brought (resource : Resource) (given pack : Entries Json) : List Brought :=
  resource.shape.brought given pack ++ [⟨resource.root, resource.shape, given⟩]

namespace Brought

/-- The statement of a row names its table and all of its columns, in order. -/
def SpelledBy (row : Brought) (insertion : Insertion) : Prop :=
  insertion.table = row.placed.table ∧
    insertion.cells.map Prod.fst = row.shape.columns.map Column.name

/-- A value links a column with a branch: the client gave it itself, or an earlier
statement gives it to the referenced column of the referenced table. -/
def Linked (row : Brought) (earlier : List Insertion) (column : Column) (placed : Placed)
    (value : Json) : Prop :=
  column.givenIn row.given = .link value ∨
    ∃ target ∈ column.relation, ∃ other ∈ earlier,
      other.table.database = placed.table.database ∧ other.table.name = placed.table.name ∧
      Entries.get? other.cells target.column = some value

/-- Every column with a branch is linked by the value that the statement binds to
it. -/
def RestsOn (row : Brought) (earlier : List Insertion) (insertion : Insertion) : Prop :=
  ∀ pair ∈ row.shape.nodes.zip insertion.cells, ∀ opened ∈ pair.1.2,
    row.Linked earlier pair.1.1 opened.1 pair.2.2

instance (row : Brought) (earlier : List Insertion) (column : Column) (placed : Placed)
    (value : Json) : Decidable (row.Linked earlier column placed value) :=
  inferInstanceAs (Decidable (_ ∨ _))

instance (row : Brought) (earlier : List Insertion) (insertion : Insertion) :
    Decidable (row.RestsOn earlier insertion) :=
  inferInstanceAs (Decidable (∀ pair ∈ _, ∀ opened ∈ _, _))

theorem Linked.mono {row : Brought} {earlier more : List Insertion} {column : Column}
    {placed : Placed} {value : Json} (h : row.Linked earlier column placed value)
    (hsub : earlier ⊆ more) : row.Linked more column placed value :=
  h.imp_right fun ⟨target, htarget, other, hmem, hrest⟩ =>
    ⟨target, htarget, other, hsub hmem, hrest⟩

end Brought

/-- Each row rests on the rows before it. -/
def Supported (earlier : List Insertion) : List (Brought × Insertion) → Prop
  | [] => True
  | (row, insertion) :: rest =>
    row.RestsOn earlier insertion ∧ Supported (earlier ++ [insertion]) rest

instance : ∀ (earlier : List Insertion) (walk : List (Brought × Insertion)),
    Decidable (Supported earlier walk)
  | _, [] => isTrue True.intro
  | earlier, (_, insertion) :: rest =>
    have := instDecidableSupported (earlier ++ [insertion]) rest
    inferInstanceAs (Decidable (_ ∧ _))

/-- Rows in two parts: the second may also rest on the first. -/
theorem supported_append {earlier : List Insertion} {first second : List (Brought × Insertion)} :
    Supported earlier (first ++ second) ↔
      Supported earlier first ∧ Supported (earlier ++ first.map Prod.snd) second := by
  induction first generalizing earlier with
  | nil => simp [Supported]
  | cons pair rest ih =>
    obtain ⟨row, insertion⟩ := pair
    simp only [List.cons_append, Supported, ih, List.map_cons, List.append_assoc,
      List.nil_append, and_assoc]

/-! ## Statements of a pack -/

theorem Column.required_ok {column : Column} {found : Option Json} {value : Json} :
    column.required found = .ok value ↔ found = some value := by
  cases found <;> simp [required]

theorem Column.branchObject_ok {column : Column} {object : Json} {members : Entries Json} :
    column.branchObject object = .ok members ↔ object = .obj members := by
  cases object <;> simp [branchObject]

namespace Shape

theorem inserts_leaf {pack : Entries Json} {column : Column} {rest : Shape}
    {below : List Insertion} {cells : List (String × Json)}
    (h : (leaf column rest).inserts pack = .ok (below, cells)) :
    ∃ value others, pack.get? column.qualifiedName = some value ∧
      rest.inserts pack = .ok (below, others) ∧ cells = (column.name, value) :: others := by
  rw [inserts] at h
  obtain ⟨value, hvalue, h⟩ := ok_of_bind h
  obtain ⟨⟨below', others⟩, hrest, h⟩ := ok_of_bind h
  cases h
  exact ⟨value, others, Column.required_ok.1 hvalue, hrest, rfl⟩

/-- The statements of a table that begins with a column with a branch: those of
the branch come first, if there is one. -/
theorem inserts_branch {pack : Entries Json} {column : Column} {placed : Placed}
    {inner rest : Shape} {below : List Insertion} {cells : List (String × Json)}
    (h : (branch column placed inner rest).inserts pack = .ok (below, cells)) :
    ∃ first value behind others,
      ((pack.get? column.branchKey = none ∧ first = []) ∨
        ∃ nested inside own, pack.get? column.branchKey = some (.obj nested) ∧
          inner.inserts nested = .ok (inside, own) ∧
          first = inside ++ [⟨placed.table, own⟩]) ∧
      column.heldIn? pack (fun name nested => inner.valueOf? name nested) = some value ∧
      rest.inserts pack = .ok (behind, others) ∧
      below = first ++ behind ∧ cells = (column.name, value) :: others := by
  rw [inserts] at h
  cases hbranch : pack.get? column.branchKey with
  | none =>
    rw [hbranch] at h
    obtain ⟨_, hfirst, h⟩ := ok_of_bind h
    obtain ⟨value, hvalue, h⟩ := ok_of_bind h
    obtain ⟨⟨behind, others⟩, hrest, h⟩ := ok_of_bind h
    cases hfirst
    cases h
    exact ⟨[], value, behind, others, .inl ⟨rfl, rfl⟩, Column.required_ok.1 hvalue, hrest,
      rfl, rfl⟩
  | some object =>
    rw [hbranch] at h
    obtain ⟨nested, hnested, h⟩ := ok_of_bind h
    obtain ⟨⟨inside, own⟩, hinside, h⟩ := ok_of_bind h
    obtain ⟨_, hfirst, h⟩ := ok_of_bind h
    obtain ⟨value, hvalue, h⟩ := ok_of_bind h
    obtain ⟨⟨behind, others⟩, hrest, h⟩ := ok_of_bind h
    cases hfirst
    cases h
    obtain rfl := Column.branchObject_ok.1 hnested
    exact ⟨_, value, behind, others, .inr ⟨nested, inside, own, rfl, hinside, rfl⟩,
      Column.required_ok.1 hvalue, hrest, rfl, rfl⟩

/-- A statement gives a column the value that the pack holds for it. -/
theorem get?_cells {shape : Shape} {pack : Entries Json} {below : List Insertion}
    {cells : List (String × Json)} (h : shape.inserts pack = .ok (below, cells)) (name : String) :
    Entries.get? cells name = shape.valueOf? name pack := by
  induction shape generalizing below cells with
  | nil =>
    cases h
    rfl
  | leaf column rest ih =>
    obtain ⟨value, others, hvalue, hrest, rfl⟩ := inserts_leaf h
    rw [Entries.get?_cons, valueOf?, hvalue, ih hrest]
  | branch column placed inner rest _ ih =>
    obtain ⟨first, value, behind, others, -, hvalue, hrest, -, rfl⟩ := inserts_branch h
    rw [Entries.get?_cons, valueOf?, hvalue, ih hrest]

theorem names_cells {shape : Shape} {pack : Entries Json} {below : List Insertion}
    {cells : List (String × Json)} (h : shape.inserts pack = .ok (below, cells)) :
    cells.map Prod.fst = shape.columns.map Column.name := by
  induction shape generalizing below cells with
  | nil =>
    cases h
    rfl
  | leaf column rest ih =>
    obtain ⟨value, others, -, hrest, rfl⟩ := inserts_leaf h
    simp [columns, ih hrest]
  | branch column placed inner rest _ ih =>
    obtain ⟨first, value, behind, others, -, -, hrest, -, rfl⟩ := inserts_branch h
    simp [columns, ih hrest]

/-- There is one statement for each row below, in the order of the rows. -/
theorem spelled_inserts {shape : Shape} {pack : Entries Json} {below : List Insertion}
    {cells : List (String × Json)} (h : shape.inserts pack = .ok (below, cells))
    (given : Entries Json) : List.Forall₂ Brought.SpelledBy (shape.brought given pack) below := by
  induction shape generalizing given pack below cells with
  | nil =>
    cases h
    exact .nil
  | leaf column rest ih =>
    obtain ⟨value, others, -, hrest, -⟩ := inserts_leaf h
    exact ih hrest given
  | branch column placed inner rest ihInner ihRest =>
    obtain ⟨first, value, behind, others, hfirst, -, hrest, rfl, -⟩ := inserts_branch h
    rw [brought]
    refine List.rel_append ?_ (ihRest hrest given)
    rcases hfirst with ⟨hnone, rfl⟩ | ⟨nested, inside, own, hsome, hinside, rfl⟩
    · rw [hnone]
      exact .nil
    · rw [hsome]
      exact List.rel_append (ihInner hinside _) (.cons ⟨rfl, names_cells hinside⟩ .nil)

/-- A link brings no rows, and its value is bound as it is. -/
theorem inserts_link {pack : Entries Json} {column : Column} {placed : Placed}
    {inner rest : Shape} {below : List Insertion} {cells : List (String × Json)} {value : Json}
    (hget : pack.get? column.qualifiedName = some value)
    (hbranch : pack.get? column.branchKey = none)
    (h : (branch column placed inner rest).inserts pack = .ok (below, cells)) :
    ∃ others, rest.inserts pack = .ok (below, others) ∧ cells = (column.name, value) :: others := by
  obtain ⟨first, held, behind, others, hfirst, hheld, hrest, rfl, rfl⟩ := inserts_branch h
  rcases hfirst with ⟨-, rfl⟩ | ⟨object, inside, own, hobject, -, -⟩
  · obtain rfl : held = value := by simpa [Column.heldIn?, hget] using hheld.symm
    exact ⟨others, hrest, rfl⟩
  · rw [hbranch] at hobject
    cases hobject

/-- A row in a branch is inserted behind the rows below it, and the value that links
to it is read off its statement. -/
theorem inserts_row {pack object : Entries Json} {column : Column} {placed : Placed}
    {inner rest : Shape} {below : List Insertion} {cells : List (String × Json)}
    (hget : pack.get? column.qualifiedName = none)
    (hbranch : pack.get? column.branchKey = some (.obj object))
    (h : (branch column placed inner rest).inserts pack = .ok (below, cells)) :
    ∃ inside own value behind others, inner.inserts object = .ok (inside, own) ∧
      rest.inserts pack = .ok (behind, others) ∧
      below = inside ++ [⟨placed.table, own⟩] ++ behind ∧ cells = (column.name, value) :: others ∧
      ∃ target, column.relation = some target ∧ Entries.get? own target.column = some value := by
  obtain ⟨first, value, behind, others, hfirst, hheld, hrest, rfl, rfl⟩ := inserts_branch h
  rcases hfirst with ⟨hnone, -⟩ | ⟨object', inside, own, hobject, hinside, rfl⟩
  · rw [hbranch] at hnone
    cases hnone
  obtain rfl : object = object' := by simpa [hbranch] using hobject
  refine ⟨inside, own, value, behind, others, hinside, hrest, rfl, rfl, ?_⟩
  cases hrelation : column.relation with
  | none => simp [Column.heldIn?, hget, hrelation] at hheld
  | some target =>
    refine ⟨target, rfl, ?_⟩
    rw [get?_cells hinside]
    simpa [Column.heldIn?, hget, hrelation, hbranch] using hheld

/-- With a row in a branch, rows are supported when those below it are, when it rests
on these, and when the rows behind are. -/
theorem supported_row {given pack nested object : Entries Json} {column : Column}
    {placed : Placed} {inner rest : Shape} {inside behind earlier : List Insertion}
    {own : List (String × Json)} (hgiven : column.givenIn given = .row nested)
    (hbranch : pack.get? column.branchKey = some (.obj object))
    (hinside : inner.inserts object = .ok (inside, own)) :
    Supported earlier (((branch column placed inner rest).brought given pack).zip
        (inside ++ [⟨placed.table, own⟩] ++ behind)) ↔
      (Supported earlier ((inner.brought nested object).zip inside) ∧
        (⟨placed, inner, nested⟩ : Brought).RestsOn (earlier ++ inside) ⟨placed.table, own⟩) ∧
      Supported (earlier ++ (inside ++ [⟨placed.table, own⟩])) ((rest.brought given pack).zip behind) := by
  have hlength := (spelled_inserts hinside nested).length_eq
  rw [brought_row hgiven hbranch, List.zip_append (by simp [hlength]), List.zip_append hlength,
    supported_append, supported_append, List.map_append,
    List.map_snd_zip (Nat.le_of_eq hlength.symm)]
  simp only [List.zip_cons_cons, List.zip_nil_right, List.map_cons, List.map_nil, Supported,
    and_true]

end Shape

/-! ## Rows rest on the rows before them -/

section Support

variable {σ : Type} {draw : IdGenerator → StateM σ Json}

/-- A row is linked to the rows below it. -/
theorem Shape.Packed.linked {shape : Shape} {ids : IdGenerator} {payload pack : Entries Json}
    {before after : σ} (h : shape.Packed draw ids payload pack before after)
    {below : List Insertion} {cells : List (String × Json)}
    (hinserts : shape.inserts pack = .ok (below, cells)) {given : Entries Json}
    (hreads : shape.ReadsAlike payload given) :
    ∀ column placed inner cell,
      ((column, some (placed, inner)), cell) ∈ shape.nodes.zip cells →
        ∀ row : Brought, row.given = given → row.Linked below column placed cell.2 := by
  induction h generalizing below cells with
  | nil =>
    intro column placed inner cell hmem
    simp [nodes] at hmem
  | given _ _ _ ih | drawn _ _ _ _ ih =>
    intro column placed inner cell hmem row hrow
    obtain ⟨value, others, -, hrest, rfl⟩ := inserts_leaf hinserts
    simp only [nodes, List.zip_cons_cons, List.mem_cons, Prod.mk.injEq, reduceCtorEq,
      and_false, false_and, false_or] at hmem
    exact ih hrest hreads.of_leaf column placed inner cell hmem row hrow
  | link hgiven hget hbranch _ ih =>
    intro column placed inner cell hmem row hrow
    obtain ⟨others, hrest, rfl⟩ := inserts_link hget hbranch hinserts
    rcases List.mem_cons.1 hmem with heq | hmem
    · cases heq
      left
      rw [hrow, ← hreads.of_branch.1, hgiven]
    · exact ih hrest hreads.of_branch.2 column placed inner cell hmem row hrow
  | @row _ _ _ _ opened _ _ _ _ _ _ _ _ _ _ _ hget hbranch _ _ _ _ ih =>
    intro column placed inner cell hmem row hrow
    obtain ⟨inside, own, value, behind, others, -, hrest, rfl, rfl, target, hrelation, hvalue⟩ :=
      inserts_row hget hbranch hinserts
    rcases List.mem_cons.1 hmem with heq | hmem
    · cases heq
      right
      exact ⟨target, hrelation, ⟨opened.table, own⟩, by simp, rfl, rfl, hvalue⟩
    · exact (ih hrest hreads.of_branch.2 column placed inner cell hmem row hrow).mono
        (List.subset_append_right _ _)

/-- Where no identifier strays, each row below rests on the rows before it. -/
theorem Shape.Packed.supported {shape : Shape} {ids : IdGenerator}
    {payload pack : Entries Json} {before after : σ}
    (h : shape.Packed draw ids payload pack before after)
    {below : List Insertion} {cells : List (String × Json)}
    (hinserts : shape.inserts pack = .ok (below, cells)) {given : Entries Json}
    (hreads : shape.ReadsAlike payload given) (hstrays : shape.strays given = false)
    (earlier : List Insertion) :
    Supported earlier ((shape.brought given pack).zip below) := by
  induction h generalizing below cells given earlier with
  | nil => exact True.intro
  | given _ _ _ ih | drawn _ _ _ _ ih =>
    obtain ⟨value, others, -, hrest, rfl⟩ := inserts_leaf hinserts
    exact ih hrest hreads.of_leaf hstrays earlier
  | link hgiven hget hbranch _ ih =>
    obtain ⟨others, hrest, -⟩ := inserts_link hget hbranch hinserts
    rw [brought, hbranch]
    simp only [strays, Bool.or_eq_false_iff] at hstrays
    exact ih hrest hreads.of_branch.2 hstrays.2 earlier
  | @row _ _ _ column placed inner rest nested completed object _ _ _ _ hgiven hcompletes hget
      hbranch _ hbelow _ ihInner ihRest =>
    obtain ⟨inside, own, value, behind, others, hinside, hrest, rfl, -, -⟩ :=
      inserts_row hget hbranch hinserts
    obtain ⟨hsame, hreadsRest⟩ := hreads.of_branch
    have hsays : column.givenIn given = .row nested := hsame.symm.trans hgiven
    rw [strays, hsays] at hstrays
    simp only [Bool.or_eq_false_iff] at hstrays
    obtain ⟨⟨hmisreads, hinnerStrays⟩, hrestStrays⟩ := hstrays
    have hreads' := hcompletes.readsAlike hmisreads
    rw [supported_row hsays hbranch hinside]
    refine ⟨⟨ihInner hinside hreads' hinnerStrays earlier, ?_⟩,
      ihRest hrest hreadsRest hrestStrays _⟩
    rintro ⟨⟨c, _⟩, cell⟩ hmem ⟨p, i⟩ rfl
    exact (hbelow.linked hinside hreads' c p i cell hmem ⟨placed, inner, nested⟩ rfl).mono
      (List.subset_append_right _ _)

end Support

end TableApi
