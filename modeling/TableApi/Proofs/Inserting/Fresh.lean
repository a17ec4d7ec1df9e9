import TableApi.Proofs.Inserting.Links

/-!
# Fresh identifiers

A source of identifiers is fresh for a body when it never draws a value that the
body holds or that it has drawn before, and draws plain values only. Then no
coincidence can make up for an identifier that strays: the statements that run
earlier hold values of the body and identifiers drawn for other rows
(`Shape.Packed.values`), so a row with a misread identifier rests on none of
them (`Shape.Packed.not_strays`).
-/

namespace TableApi

/-- A value stands somewhere in a document, under keys of objects. -/
inductive Json.Within : Json → Json → Prop
  | self (value : Json) : Within value value
  | member {value inner : Json} {members : Entries Json} {key : String}
      (hmem : (key, inner) ∈ members) (hinner : Within value inner) :
      Within value (.obj members)

/-- A value stands somewhere in a payload. -/
def Occurs (value : Json) (payload : Entries Json) : Prop :=
  ∃ entry ∈ payload, Json.Within value entry.2

/-- Draws yield plain values that are not used yet, use them up, and free none. -/
structure Issuing {σ : Type} (draw : IdGenerator → StateM σ Json) (used : σ → Json → Prop) :
    Prop where
  unused : ∀ {ids before id after}, (draw ids).run before = (id, after) → ¬ used before id
  plain : ∀ {ids before id after}, (draw ids).run before = (id, after) → id.members? = none
  recorded : ∀ {ids before id after}, (draw ids).run before = (id, after) → used after id
  kept : ∀ {ids before id after}, (draw ids).run before = (id, after) →
    ∀ {value}, used before value → used after value

/-- A source of identifiers is fresh for a body from a state on. -/
def Fresh {σ : Type} (draw : IdGenerator → StateM σ Json) (start : σ) (body : Entries Json) :
    Prop :=
  ∃ used, Issuing draw used ∧ ∀ value, Occurs value body → used start value

/-! ## Values of a payload -/

theorem Json.within_plain {value plain : Json} (hplain : plain.members? = none)
    (h : Json.Within value plain) : value = plain := by
  cases h with
  | self => rfl
  | member _ _ => simp [Json.members?] at hplain

theorem Occurs.of_get? {value found : Json} {payload : Entries Json} {key : String}
    (h : payload.get? key = some found) (hwithin : Json.Within value found) :
    Occurs value payload :=
  ⟨_, Entries.mem_of_get? h, hwithin⟩

theorem Occurs.of_valueIn? {value found : Json} {payload : Entries Json} {name : Name}
    (h : name.valueIn? payload = some found) (hwithin : Json.Within value found) :
    Occurs value payload := by
  rw [Name.valueIn?_eq] at h
  obtain ⟨key, -, hget⟩ := List.exists_of_findSome?_eq_some h
  exact .of_get? hget hwithin

theorem Column.valueIn?_of_link {column : Column} {payload : Entries Json} {value : Json}
    (h : column.givenIn payload = .link value) :
    column.displayName.valueIn? payload = some value := by
  unfold givenIn at h
  split at h
  · cases h
  · next found _ hfound =>
    cases h
    exact hfound
  · cases h

theorem Column.givenIn_of_plain {column : Column} {payload : Entries Json} {value : Json}
    (h : column.displayName.valueIn? payload = some value) (hplain : value.members? = none) :
    column.givenIn payload = .link value := by
  unfold givenIn
  rw [h]
  cases value <;> simp [Json.members?] at hplain ⊢

/-- The row that is given for a column is the object that the column reads, or nothing. -/
theorem Column.valueIn?_of_row {column : Column} {payload nested : Entries Json}
    (h : column.givenIn payload = .row nested) :
    column.displayName.valueIn? payload = some (.obj nested) ∨
      column.displayName.valueIn? payload = none ∧ nested = [] := by
  unfold givenIn at h
  split at h
  · next members hfound =>
    cases h
    exact .inl hfound
  · cases h
  · next hnone =>
    cases h
    exact .inr ⟨hnone, rfl⟩

/-- What a payload holds for a new row it holds for itself. -/
theorem Occurs.of_row {value : Json} {payload nested : Entries Json} {column : Column}
    (h : column.givenIn payload = .row nested) (hoccurs : Occurs value nested) :
    Occurs value payload := by
  obtain ⟨entry, hentry, hwithin⟩ := hoccurs
  rcases Column.valueIn?_of_row h with hfound | ⟨-, rfl⟩
  · exact .of_valueIn? hfound (.member hentry hwithin)
  · cases hentry

/-- A plain value in an object stands in one of its members. -/
theorem Occurs.of_object {value : Json} {members : Entries Json} (hplain : value.members? = none)
    (hwithin : Json.Within value (.obj members)) : Occurs value members := by
  cases hwithin with
  | self => cases hplain
  | member hmem hinner => exact ⟨_, hmem, hinner⟩

section Values

variable {σ : Type} {draw : IdGenerator → StateM σ Json} {used : σ → Json → Prop}

/-- A value is drawn between two states. -/
def Drawn (used : σ → Json → Prop) (before after : σ) (value : Json) : Prop :=
  ¬ used before value ∧ used after value

/-- What is drawn on a part of the way is drawn on the way. -/
theorem Drawn.widen {before middle later after : σ} {value : Json}
    (h : Drawn used middle later value) (hbefore : used before value → used middle value)
    (hafter : used later value → used after value) : Drawn used before after value :=
  ⟨fun hused => h.1 (hbefore hused), hafter h.2⟩

theorem Column.Completes.kept (hissuing : Issuing draw used) {column : Column} {placed : Placed}
    {inner : Shape} {payload completed : Entries Json} {before after : σ}
    (h : column.Completes draw placed inner payload completed before after) {value : Json}
    (hused : used before value) : used after value := by
  unfold Completes at h
  cases hdrawn : column.drawnUnder? inner payload with
  | none =>
    rw [hdrawn] at h
    rw [h.2]
    exact hused
  | some drawn =>
    rw [hdrawn] at h
    obtain ⟨id, hdraw, -⟩ := h
    exact hissuing.kept hdraw hused

/-- A completed payload holds what it held before and an identifier. -/
theorem Column.Completes.occurs (hissuing : Issuing draw used) {column : Column}
    {placed : Placed} {inner : Shape} {payload completed : Entries Json} {before after : σ}
    (h : column.Completes draw placed inner payload completed before after) {value : Json}
    (hoccurs : Occurs value completed) :
    Occurs value payload ∨ Drawn used before after value := by
  unfold Completes at h
  cases hdrawn : column.drawnUnder? inner payload with
  | none =>
    rw [hdrawn] at h
    rw [h.1] at hoccurs
    exact .inl hoccurs
  | some drawn =>
    rw [hdrawn] at h
    obtain ⟨id, hdraw, rfl⟩ := h
    obtain ⟨entry, hentry, hwithin⟩ := hoccurs
    rcases Entries.mem_put hentry with rfl | hold
    · rw [Json.within_plain (hissuing.plain hdraw) hwithin]
      exact .inr ⟨hissuing.unused hdraw, hissuing.recorded hdraw⟩
    · exact .inl ⟨entry, hold, hwithin⟩

/-- The rows below a completed row are made of what the client says for them. -/
theorem Column.Completes.occurs_row (hissuing : Issuing draw used) {column other : Column}
    {placed : Placed} {inner : Shape} {payload completed nested : Entries Json} {before after : σ}
    (h : column.Completes draw placed inner payload completed before after)
    (hgiven : other.givenIn completed = .row nested) {value : Json}
    (hoccurs : Occurs value nested) : Occurs value payload := by
  unfold Completes at h
  cases hdrawn : column.drawnUnder? inner payload with
  | none =>
    rw [hdrawn] at h
    rw [h.1] at hgiven
    exact .of_row hgiven hoccurs
  | some drawn =>
    rw [hdrawn] at h
    obtain ⟨id, hdraw, rfl⟩ := h
    have hvalue := other.displayName.valueIn?_put payload drawn id
    split at hvalue
    · rw [Column.givenIn_of_plain hvalue (hissuing.plain hdraw)] at hgiven
      cases hgiven
    · rw [Column.givenIn_congr hvalue] at hgiven
      exact .of_row hgiven hoccurs

theorem Shape.Packed.kept (hissuing : Issuing draw used) {shape : Shape} {ids : IdGenerator}
    {payload pack : Entries Json} {before after : σ}
    (h : shape.Packed draw ids payload pack before after) {value : Json}
    (hused : used before value) : used after value := by
  induction h with
  | nil => exact hused
  | given _ _ _ ih | link _ _ _ _ ih => exact ih hused
  | drawn _ hdraw _ _ ih => exact ih (hissuing.kept hdraw hused)
  | row _ hcompletes _ _ _ _ _ ihInner ihRest =>
    exact ihRest (ihInner (hcompletes.kept hissuing hused))

/-- A row's statement holds values of its payload and identifiers drawn on the
way; the statements below it hold values that its payload gives for new rows, and
identifiers drawn on the way. -/
theorem Shape.Packed.values (hissuing : Issuing draw used) {shape : Shape} {ids : IdGenerator}
    {payload pack : Entries Json} {before after : σ}
    (h : shape.Packed draw ids payload pack before after)
    {below : List Insertion} {cells : List (String × Json)}
    (hinserts : shape.inserts pack = .ok (below, cells)) :
    (∀ cell ∈ cells, Occurs cell.2 payload ∨ Drawn used before after cell.2) ∧
      ∀ insertion ∈ below, ∀ cell ∈ insertion.cells,
        (∃ (column : Column) (nested : Entries Json), column.givenIn payload = .row nested ∧
          Occurs cell.2 nested) ∨ Drawn used before after cell.2 := by
  induction h generalizing below cells with
  | nil =>
    cases hinserts
    simp
  | given hvalue hget _ ih =>
    obtain ⟨value, others, hheld, hrest, rfl⟩ := inserts_leaf hinserts
    obtain ⟨hown, hbelow⟩ := ih hrest
    refine ⟨fun cell hcell => ?_, hbelow⟩
    rcases List.mem_cons.1 hcell with rfl | hcell
    · rw [hget] at hheld
      cases hheld
      exact .inl (.of_valueIn? hvalue (.self _))
    · exact hown cell hcell
  | @drawn _ _ _ _ _ _ before middle after _ hdraw hget hpacked ih =>
    obtain ⟨value, others, hheld, hrest, rfl⟩ := inserts_leaf hinserts
    obtain ⟨hown, hbelow⟩ := ih hrest
    have hearlier : ∀ {v}, Drawn used middle after v → Drawn used before after v :=
      fun hdrawn => hdrawn.widen (hissuing.kept hdraw) id
    refine ⟨fun cell hcell => ?_, fun insertion hmem cell hcell =>
      (hbelow insertion hmem cell hcell).imp_right hearlier⟩
    rcases List.mem_cons.1 hcell with rfl | hcell
    · rw [hget] at hheld
      cases hheld
      exact .inr ⟨hissuing.unused hdraw, hpacked.kept hissuing (hissuing.recorded hdraw)⟩
    · exact (hown cell hcell).imp_right hearlier
  | link hgiven hget hbranch _ ih =>
    obtain ⟨others, hrest, rfl⟩ := inserts_link hget hbranch hinserts
    obtain ⟨hown, hbelow⟩ := ih hrest
    refine ⟨fun cell hcell => ?_, hbelow⟩
    rcases List.mem_cons.1 hcell with rfl | hcell
    · exact .inl (.of_valueIn? (Column.valueIn?_of_link hgiven) (.self _))
    · exact hown cell hcell
  | @row ids payload _ column _ inner rest nested completed object before middle later after
      hgiven hcompletes hget hbranch _ hpackedBelow hpackedRest ihInner ihRest =>
    obtain ⟨inside, own, value, behind, others, hinside, hrest, rfl, rfl, target, -, hvalue⟩ :=
      inserts_row hget hbranch hinserts
    obtain ⟨hownBelow, hinsideBelow⟩ := ihInner hinside
    obtain ⟨hownRest, hbehind⟩ := ihRest hrest
    have hkept : ∀ {v}, used before v → used middle v := hcompletes.kept hissuing
    have hkept' : ∀ {v}, used middle v → used later v := hpackedBelow.kept hissuing
    have hkept'' : ∀ {v}, used later v → used after v := hpackedRest.kept hissuing
    have hbelow : ∀ {v}, Drawn used middle later v → Drawn used before after v :=
      fun hdrawn => hdrawn.widen hkept hkept''
    have hbehind' : ∀ {v}, Drawn used later after v → Drawn used before after v :=
      fun hdrawn => hdrawn.widen (fun hused => hkept' (hkept hused)) id
    -- A cell of the branch's own row: the client says it for that row, or it is drawn.
    have hbranchRow : ∀ cell ∈ own, Occurs cell.2 nested ∨ Drawn used before after cell.2 := by
      intro cell hcell
      rcases hownBelow cell hcell with hoccurs | hdrawn
      · exact (hcompletes.occurs hissuing hoccurs).imp_right fun hdrawn =>
          hdrawn.widen id fun hused => hkept'' (hkept' hused)
      · exact .inr (hbelow hdrawn)
    constructor
    · intro cell hcell
      rcases List.mem_cons.1 hcell with rfl | hcell
      · exact (hbranchRow _ (Entries.mem_of_get? hvalue)).imp_left (.of_row hgiven)
      · exact (hownRest cell hcell).imp_right hbehind'
    · intro insertion hmem cell hcell
      simp only [List.append_assoc, List.mem_append, List.mem_cons, List.not_mem_nil,
        or_false] at hmem
      rcases hmem with hmem | rfl | hmem
      · rcases hinsideBelow insertion hmem cell hcell with ⟨other, deeper, hother, hoccurs⟩ | hdrawn
        · exact .inl ⟨column, nested, hgiven, hcompletes.occurs_row hissuing hother hoccurs⟩
        · exact .inr (hbelow hdrawn)
      · exact (hbranchRow cell hcell).imp_left fun hoccurs => ⟨column, nested, hgiven, hoccurs⟩
      · exact (hbehind insertion hmem cell hcell).imp_right hbehind'

/-! ## A misread identifier leads nowhere -/

/-- A plain value that a payload gives for a column with a branch is bound as it
is. -/
theorem Shape.Packed.cell_of_link {shape : Shape} {ids : IdGenerator}
    {payload pack : Entries Json} {before after : σ}
    (h : shape.Packed draw ids payload pack before after)
    {below : List Insertion} {cells : List (String × Json)}
    (hinserts : shape.inserts pack = .ok (below, cells)) {column : Column}
    {opened : Placed × Shape} (hnode : (column, some opened) ∈ shape.nodes) {value : Json}
    (hgiven : column.givenIn payload = .link value) :
    ∃ name, ((column, some opened), (name, value)) ∈ shape.nodes.zip cells := by
  induction h generalizing below cells with
  | nil => simp [nodes] at hnode
  | given _ _ _ ih | drawn _ _ _ _ ih =>
    obtain ⟨held, others, -, hrest, rfl⟩ := inserts_leaf hinserts
    obtain ⟨name, hmem⟩ := ih hrest (by simpa [nodes] using hnode) hgiven
    exact ⟨name, List.mem_cons_of_mem _ hmem⟩
  | link hlink hget hbranch _ ih =>
    obtain ⟨others, hrest, rfl⟩ := inserts_link hget hbranch hinserts
    rcases List.mem_cons.1 hnode with heq | hnode
    · cases heq
      rw [hlink] at hgiven
      cases hgiven
      exact ⟨_, List.mem_cons_self⟩
    · obtain ⟨name, hmem⟩ := ih hrest hnode hgiven
      exact ⟨name, List.mem_cons_of_mem _ hmem⟩
  | row hrow _ hget hbranch _ _ _ _ ih =>
    obtain ⟨inside, own, held, behind, others, -, hrest, -, rfl, -⟩ :=
      inserts_row hget hbranch hinserts
    rcases List.mem_cons.1 hnode with heq | hnode
    · cases heq
      rw [hrow] at hgiven
      cases hgiven
    · obtain ⟨name, hmem⟩ := ih hrest hnode hgiven
      exact ⟨name, List.mem_cons_of_mem _ hmem⟩

/-- A row below `column` that rests on the rows before it misreads no identifier,
when none of these rows and nothing that the client says holds it. -/
theorem Column.Completes.not_misreads (hissuing : Issuing draw used) {column : Column}
    {placed : Placed} {inner : Shape} {nested completed pack : Entries Json}
    {before middle after : σ}
    (h : column.Completes draw placed inner nested completed before middle)
    (hpacked : inner.Packed draw placed.table.ids completed pack middle after)
    {below : List Insertion} {cells : List (String × Json)}
    (hinserts : inner.inserts pack = .ok (below, cells))
    (hnested : ∀ value, Occurs value nested → used before value)
    {earlier : List Insertion}
    (hearlier : ∀ insertion ∈ earlier, ∀ cell ∈ insertion.cells, used before cell.2)
    (hrests : (⟨placed, inner, nested⟩ : Brought).RestsOn (earlier ++ below)
      ⟨placed.table, cells⟩) :
    column.misreads inner nested = false := by
  by_contra hmisreads
  rw [Bool.not_eq_false] at hmisreads
  have hcompletes := h
  unfold misreads at hmisreads
  unfold Completes at h
  cases hdrawn : column.drawnUnder? inner nested with
  | none =>
    rw [hdrawn] at hmisreads
    cases hmisreads
  | some drawn =>
    rw [hdrawn] at h hmisreads
    obtain ⟨id, hdraw, hcompleted⟩ := h
    obtain ⟨⟨other, opened⟩, hnode, htakes⟩ := List.any_eq_true.1 hmisreads
    obtain ⟨hopened, htakes⟩ := Bool.and_eq_true_iff.1 htakes
    obtain ⟨⟨p, shape⟩, rfl⟩ := Option.isSome_iff_exists.1 hopened
    -- The identifier is bound to the column that misreads it.
    have hgiven : other.givenIn completed = .link id := by
      refine givenIn_of_plain ?_ (hissuing.plain hdraw)
      rw [hcompleted, Name.valueIn?_put, if_pos htakes]
    obtain ⟨name, hcell⟩ := hpacked.cell_of_link hinserts hnode hgiven
    rcases hrests _ hcell (p, shape) rfl with hclient | ⟨target, -, row, hrow, -, -, hget⟩
    · have hoccurs : Occurs id nested := .of_valueIn? (valueIn?_of_link hclient) (.self _)
      exact hissuing.unused hdraw (hnested id hoccurs)
    · have hmem := Entries.mem_of_get? hget
      rcases List.mem_append.1 hrow with hrow | hrow
      · exact hissuing.unused hdraw (hearlier row hrow _ hmem)
      · rcases (hpacked.values hissuing hinserts).2 row hrow _ hmem with
          ⟨deeper, object, hdeeper, hoccurs⟩ | ⟨hunused, -⟩
        · exact hissuing.unused hdraw
            (hnested id (hcompletes.occurs_row hissuing hdeeper hoccurs))
        · exact hunused (hissuing.recorded hdraw)

/-- With fresh identifiers, rows that rest on the rows before them prove that no
identifier strays. -/
theorem Shape.Packed.not_strays (hissuing : Issuing draw used) {shape : Shape}
    {ids : IdGenerator} {payload pack : Entries Json} {before after : σ}
    (h : shape.Packed draw ids payload pack before after)
    {below : List Insertion} {cells : List (String × Json)}
    (hinserts : shape.inserts pack = .ok (below, cells)) {given : Entries Json}
    (hreads : shape.ReadsAlike payload given)
    (hgiven : ∀ value, Occurs value given → used before value) {earlier : List Insertion}
    (hearlier : ∀ insertion ∈ earlier, ∀ cell ∈ insertion.cells, used before cell.2)
    (hsupported : Supported earlier ((shape.brought given pack).zip below)) :
    shape.strays given = false := by
  induction h generalizing below cells given earlier with
  | nil => rfl
  | given _ _ _ ih =>
    obtain ⟨value, others, -, hrest, -⟩ := inserts_leaf hinserts
    exact ih hrest hreads.of_leaf hgiven hearlier hsupported
  | drawn _ hdraw _ _ ih =>
    obtain ⟨value, others, -, hrest, -⟩ := inserts_leaf hinserts
    exact ih hrest hreads.of_leaf (fun v hv => hissuing.kept hdraw (hgiven v hv))
      (fun i hi cell hcell => hissuing.kept hdraw (hearlier i hi cell hcell)) hsupported
  | link hlink hget hbranch _ ih =>
    obtain ⟨others, hrest, -⟩ := inserts_link hget hbranch hinserts
    obtain ⟨hsame, hreadsRest⟩ := hreads.of_branch
    rw [brought, hbranch] at hsupported
    rw [strays, hsame.symm.trans hlink, Bool.false_or]
    exact ih hrest hreadsRest hgiven hearlier hsupported
  | @row _ _ _ column placed inner rest nested completed object before middle later after hrow
      hcompletes hget hbranch _ hbelow _ ihInner ihRest =>
    obtain ⟨inside, own, value, behind, others, hinside, hrest, rfl, -, -⟩ :=
      inserts_row hget hbranch hinserts
    obtain ⟨hsame, hreadsRest⟩ := hreads.of_branch
    have hsays : column.givenIn given = .row nested := hsame.symm.trans hrow
    rw [supported_row hsays hbranch hinside] at hsupported
    obtain ⟨⟨hinsideSupported, hrests⟩, hrestSupported⟩ := hsupported
    -- What was used before is used ever after.
    have hmiddle : ∀ {v}, used before v → used middle v := hcompletes.kept hissuing
    have hlater : ∀ {v}, used before v → used later v :=
      fun hv => hbelow.kept hissuing (hmiddle hv)
    have hnested : ∀ value, Occurs value nested → used before value :=
      fun v hv => hgiven v (.of_row hsays hv)
    have hmisreads := hcompletes.not_misreads hissuing hbelow hinside hnested hearlier hrests
    have hinner : inner.strays nested = false :=
      ihInner hinside (hcompletes.readsAlike hmisreads) (fun v hv => hmiddle (hnested v hv))
        (fun i hi cell hcell => hmiddle (hearlier i hi cell hcell)) hinsideSupported
    -- The rows of the branch hold values of the client and identifiers drawn by now.
    obtain ⟨hownValues, hinsideValues⟩ := hbelow.values hissuing hinside
    have hown : ∀ cell ∈ own, used later cell.2 := by
      intro cell hcell
      rcases hownValues cell hcell with hoccurs | hdrawn
      · rcases hcompletes.occurs hissuing hoccurs with hoccurs | hdrawn
        · exact hlater (hnested _ hoccurs)
        · exact hbelow.kept hissuing hdrawn.2
      · exact hdrawn.2
    have hbranchRows : ∀ insertion ∈ earlier ++ (inside ++ [⟨placed.table, own⟩]),
        ∀ cell ∈ insertion.cells, used later cell.2 := by
      intro insertion hmem cell hcell
      simp only [List.mem_append, List.mem_singleton] at hmem
      rcases hmem with hmem | hmem | rfl
      · exact hlater (hearlier insertion hmem cell hcell)
      · rcases hinsideValues insertion hmem cell hcell with ⟨other, deeper, hother, hoccurs⟩ | hdrawn
        · exact hlater (hnested _ (hcompletes.occurs_row hissuing hother hoccurs))
        · exact hdrawn.2
      · exact hown cell hcell
    have hrestStrays : rest.strays given = false :=
      ihRest hrest hreadsRest (fun v hv => hlater (hgiven v hv)) hbranchRows hrestSupported
    rw [strays, hsays]
    simp only [hmisreads, hinner, hrestStrays, Bool.or_self]

end Values

end TableApi
