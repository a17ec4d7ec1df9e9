import TableApi.Proofs.Inserting
import TableApi.Proofs.Inserting.Stored
import TableApi.Proofs.Packing.Reordered

/-!
# The order of keys in a body

Packing looks a body up twice: for unknown keys in the order of the body, for values in the
order of the columns. So two bodies that are reordered are packed alike, with the same draws
(`Resource.key_order_irrelevant`).

How far two packs agree depends on what columns without a branch read. `Shape.ReorderedBy`
compares two bodies along the shape of a resource, up to a likeness of the values that are
taken over as they are. Packing carries any likeness over to the packs (`runsAlike_newPack`):
reordered values make packs that are reordered, and equal ones make the same pack.
-/

namespace TableApi

/-! ## Bodies along a shape -/

/-- What two payloads have under any text of a name is related, or neither has a value. -/
def Name.Relates (name : Name) (r : Json → Json → Prop) (payload other : Entries Json) : Prop :=
  ∀ key, name.matchesText key = true → Option.Rel r (payload.get? key) (other.get? key)

instance {r : Json → Json → Prop} [∀ value value', Decidable (r value value')] :
    ∀ found found', Decidable (Option.Rel r found found')
  | none, none => .isTrue .none
  | some value, some value' => decidable_of_iff (r value value') Option.rel_some_some.symm
  | none, some _ => .isFalse nofun
  | some _, none => .isFalse nofun

/-- Where neither payload has a key, nothing is related. -/
theorem Name.relates_iff {name : Name} {r : Json → Json → Prop} {payload other : Entries Json} :
    name.Relates r payload other ↔ ∀ key ∈ payload.keys ++ other.keys,
      name.matchesText key = true → Option.Rel r (payload.get? key) (other.get? key) := by
  refine ⟨fun h key _ => h key, fun h key hmatches => ?_⟩
  by_cases hkey : key ∈ payload.keys ++ other.keys
  · exact h key hkey hmatches
  · rw [List.mem_append, not_or, ← Entries.get?_eq_none_iff, ← Entries.get?_eq_none_iff] at hkey
    rw [hkey.1, hkey.2]
    exact .none

instance {name : Name} {r : Json → Json → Prop} [∀ value value', Decidable (r value value')]
    (payload other : Entries Json) : Decidable (name.Relates r payload other) :=
  decidable_of_iff _ Name.relates_iff.symm

namespace Name.Relates

variable {name : Name} {r : Json → Json → Prop} {payload other : Entries Json}

/-- The values that the name finds are related. -/
theorem rel_valueIn? (h : name.Relates r payload other) :
    Option.Rel r (name.valueIn? payload) (name.valueIn? other) := by
  have htexts : ∀ key ∈ name.primary :: name.aliases,
      Option.Rel r (payload.get? key) (other.get? key) := fun key hkey =>
    h key ((name.matchesText_iff key).2 (List.mem_cons.1 hkey))
  rw [Name.valueIn?_eq, Name.valueIn?_eq]
  generalize name.primary :: name.aliases = texts at htexts
  induction texts with
  | nil => exact .none
  | cons text rest ih =>
    obtain ⟨htext, hrest⟩ := List.forall_mem_cons.1 htexts
    rw [List.findSome?_cons, List.findSome?_cons]
    generalize payload.get? text = found, other.get? text = found' at htext
    cases htext with
    | none => exact ih hrest
    | some hvalue => exact .some hvalue

/-- One value written into both payloads is related to itself. -/
theorem put (h : name.Relates r payload other) (key : String) {id : Json} (hid : r id id) :
    name.Relates r (payload.put key id) (other.put key id) := by
  intro own hown
  rw [Entries.get?_put, Entries.get?_put]
  split
  · exact .some hid
  · exact h own hown

end Name.Relates

/-- What is like each other in values is like each other in objects that hold them. -/
structure Likeness (like : Json → Json → Prop) : Prop where
  refl : ∀ value, like value value
  obj : ∀ {members others : Entries Json}, Entries.Like like members others →
    like (.obj members) (.obj others)

theorem likeness_eq : Likeness (· = ·) where
  refl _ := rfl
  obj h := congrArg Json.obj (Entries.like_eq_iff.1 h)

theorem likeness_reordered : Likeness Json.Reordered where
  refl := .refl
  obj h := Json.reordered_obj_iff.2 h.reordered

/-- Two values for a column with a branch: plain values that are like each other, or objects
with the same keys that are related below the column. -/
inductive LinkedLike (like : Json → Json → Prop) (below : Entries Json → Entries Json → Prop) :
    Json → Json → Prop
  | link {value value'} (hplain : value.members? = none) (hplain' : value'.members? = none)
      (h : like value value') : LinkedLike like below value value'
  | row {nested nested'} (hkeys : SameKeys nested nested') (h : below nested nested') :
      LinkedLike like below (.obj nested) (.obj nested')

theorem LinkedLike.refl {like : Json → Json → Prop} {below : Entries Json → Entries Json → Prop}
    (hrefl : ∀ value, like value value) (hbelow : ∀ nested, below nested nested) (value : Json) :
    LinkedLike like below value value := by
  cases value with
  | obj nested => exact .row ⟨fun _ => id, fun _ => id⟩ (hbelow nested)
  | _ => exact .link rfl rfl (hrefl _)

theorem linkedLike_iff {like : Json → Json → Prop} {below : Entries Json → Entries Json → Prop}
    {value value' : Json} : LinkedLike like below value value' ↔
      (value.members? = none ∧ value'.members? = none ∧ like value value') ∨
        ∃ nested ∈ value.members?, ∃ nested' ∈ value'.members?,
          SameKeys nested nested' ∧ below nested nested' := by
  constructor
  · rintro (⟨hplain, hplain', h⟩ | ⟨hkeys, h⟩)
    · exact .inl ⟨hplain, hplain', h⟩
    · exact .inr ⟨_, rfl, _, rfl, hkeys, h⟩
  · rintro (⟨hplain, hplain', h⟩ | ⟨nested, hnested, nested', hnested', hkeys, h⟩)
    · exact .link hplain hplain' h
    · cases value <;> cases hnested
      cases value' <;> cases hnested'
      exact .row hkeys h

instance {like : Json → Json → Prop} {below : Entries Json → Entries Json → Prop}
    [∀ value value', Decidable (like value value')]
    [∀ nested nested', Decidable (below nested nested')] (value value' : Json) :
    Decidable (LinkedLike like below value value') :=
  decidable_of_iff _ linkedLike_iff.symm

/-- What is said for a column with a branch: links that are like each other, or payloads with
the same keys that are related below the column. -/
inductive Given.Like (like : Json → Json → Prop) (below : Entries Json → Entries Json → Prop) :
    Given → Given → Prop
  | link {value value'} (h : like value value') : Like like below (.link value) (.link value')
  | row {nested nested'} (hkeys : SameKeys nested nested') (h : below nested nested') :
      Like like below (.row nested) (.row nested')

theorem Name.Relates.like_givenIn {like : Json → Json → Prop}
    {below : Entries Json → Entries Json → Prop} {payload other : Entries Json} (column : Column)
    (h : column.displayName.Relates (LinkedLike like below) payload other) (hbelow : below [] []) :
    Given.Like like below (column.givenIn payload) (column.givenIn other) := by
  have hrel := h.rel_valueIn?
  cases hfound : column.displayName.valueIn? payload <;>
    cases hfound' : column.displayName.valueIn? other <;> rw [hfound, hfound'] at hrel
  · rw [Column.givenIn_of_none hfound, Column.givenIn_of_none hfound']
    exact .row ⟨fun _ => id, fun _ => id⟩ hbelow
  · cases hrel
  · cases hrel
  · cases hrel with | some hvalue => ?_
    cases hvalue with
    | link hplain hplain' hvalue =>
      rw [Column.givenIn_of_plain hfound hplain, Column.givenIn_of_plain hfound' hplain']
      exact .link hvalue
    | row hkeys hnested =>
      rw [Column.givenIn, Column.givenIn, hfound, hfound']
      exact .row hkeys hnested

namespace Shape

/-- Two payloads have values that are like each other for columns without a branch and for
links, and in objects below a column with a branch it is the same. Their keys may stand in
any order. -/
def ReorderedBy (like : Json → Json → Prop) : Shape → Entries Json → Entries Json → Prop
  | nil, _, _ => True
  | leaf column rest, payload, other =>
    column.displayName.Relates like payload other ∧ rest.ReorderedBy like payload other
  | branch column _ inner rest, payload, other =>
    column.displayName.Relates
      (LinkedLike like fun nested nested' => inner.ReorderedBy like nested nested') payload other ∧
    rest.ReorderedBy like payload other

instance decidableReorderedBy {like : Json → Json → Prop}
    [∀ value value', Decidable (like value value')] :
    (shape : Shape) → (payload other : Entries Json) → Decidable (shape.ReorderedBy like payload other)
  | nil, _, _ => .isTrue trivial
  | leaf _ rest, payload, other =>
    @instDecidableAnd _ _ inferInstance (rest.decidableReorderedBy payload other)
  | branch _ _ inner rest, payload, other =>
    have (nested nested' : Entries Json) : Decidable (inner.ReorderedBy like nested nested') :=
      inner.decidableReorderedBy nested nested'
    @instDecidableAnd _ _ inferInstance (rest.decidableReorderedBy payload other)

variable {like : Json → Json → Prop} {payload other : Entries Json} {shape inner rest : Shape}
  {column : Column} {placed : Placed}

theorem ReorderedBy.refl (hrefl : ∀ value, like value value) (shape : Shape)
    (payload : Entries Json) : shape.ReorderedBy like payload payload := by
  have hsame : ∀ {r : Json → Json → Prop}, (∀ value, r value value) → ∀ found : Option Json,
      Option.Rel r found found := fun hr found => by
    cases found with
    | none => exact .none
    | some value => exact .some (hr value)
  induction shape generalizing payload with
  | nil => trivial
  | leaf column rest ih => exact ⟨fun key _ => hsame hrefl (payload.get? key), ih payload⟩
  | branch column placed inner rest ihInner ihRest =>
    exact ⟨fun key _ => hsame (.refl hrefl ihInner) (payload.get? key), ihRest payload⟩

/-- Reordered payloads are so along every shape. -/
theorem reorderedBy_of_reordered (h : payload.Reordered other) :
    shape.ReorderedBy Json.Reordered payload other := by
  induction shape generalizing payload other with
  | nil => trivial
  | leaf column rest ih => exact ⟨fun key _ => h.rel_get? key, ih h⟩
  | branch column placed inner rest ihInner ihRest =>
    refine ⟨fun key _ => ?_, ihRest h⟩
    have hrel := h.rel_get? key
    generalize payload.get? key = found, other.get? key = found' at hrel
    cases hrel with
    | none => exact .none
    | some hvalue =>
      obtain ⟨hplain, rfl⟩ | ⟨nested, nested', rfl, rfl, hnested⟩ := hvalue.eq_or_objects
      · exact .some (.link hplain hplain hvalue)
      · exact .some (.row (.of_perm hnested.keys) (ihInner hnested))

/-- One value written into both payloads keeps them alike. -/
theorem ReorderedBy.put (hrefl : ∀ value, like value value) (h : shape.ReorderedBy like payload other)
    (key : String) (id : Json) : shape.ReorderedBy like (payload.put key id) (other.put key id) := by
  induction shape with
  | nil => trivial
  | leaf column rest ih => exact ⟨h.1.put key (hrefl id), ih h.2⟩
  | branch column placed inner rest _ ih =>
    exact ⟨h.1.put key (.refl hrefl (ReorderedBy.refl hrefl inner) id), ih h.2⟩

/-- Payloads with the same keys pass the check of keys, or each has an unknown key. -/
theorem endsAlike_checkKeys (shape : Shape) (h : SameKeys payload other) :
    EndsAlike (fun _ _ => True) (shape.checkKeys payload) (shape.checkKeys other) := by
  have hknows : shape.Knows payload ↔ shape.Knows other :=
    ⟨fun hknown key hkey => hknown key (h.2 key hkey),
      fun hknown key hkey => hknown key (h.1 key hkey)⟩
  rw [← checkKeys_ok_iff, ← checkKeys_ok_iff] at hknows
  unfold checkKeys at hknows ⊢
  cases hunknown : payload.keys.find? fun key => (shape.byDisplay? key).isNone <;>
    cases hunknown' : other.keys.find? fun key => (shape.byDisplay? key).isNone <;>
    simp only [hunknown, hunknown', reduceCtorEq, iff_true, iff_false, not_true] at hknows ⊢
  · exact .ok trivial
  · exact .error (.unknownField _ _)

/-! ## Packing -/

section Draw

variable {σ : Type} (draw : IdGenerator → StateM σ Json)

theorem runsAlike_newValue (hrefl : ∀ value, like value value) (ids : IdGenerator)
    (h : column.displayName.Relates like payload other) :
    RunsAlike like (column.newValue draw ids payload) (column.newValue draw ids other) := by
  have hrel := h.rel_valueIn?
  unfold Column.newValue
  generalize column.displayName.valueIn? payload = found,
    column.displayName.valueIn? other = found' at hrel
  cases hrel with
  | none => exact .refl hrefl _
  | some hvalue => exact .pure hvalue

/-- The same identifier completes both payloads below a column. -/
theorem runsAlike_withTarget (hrefl : ∀ value, like value value) (hkeys : SameKeys payload other)
    (h : inner.ReorderedBy like payload other) :
    RunsAlike (fun completed completed' => SameKeys completed completed' ∧
        inner.ReorderedBy like completed completed')
      (column.withTarget draw placed inner payload) (column.withTarget draw placed inner other) := by
  unfold Column.withTarget
  split
  · exact .pure ⟨hkeys, h⟩
  · next target _ =>
    rw [hkeys.isSome_valueIn?]
    split
    · exact .pure ⟨hkeys, h⟩
    · refine (RunsAlike.refl (fun _ => rfl) _).bind fun id id' hid => ?_
      obtain rfl : id = id' := hid
      exact .pure ⟨hkeys.put _ id id, h.put hrefl _ id⟩

/-- **Packing carries likeness over.** New rows for payloads that are alike along a shape are
packed with the same draws, into packs with the same keys and values that are alike. -/
theorem runsAlike_newPack (hlike : Likeness like) (h : shape.ReorderedBy like payload other)
    (ids : IdGenerator) :
    RunsAlike (Entries.Like like) (shape.newPack draw ids payload) (shape.newPack draw ids other) := by
  induction shape generalizing payload other ids with
  | nil => exact .pure .nil
  | leaf column rest ih =>
    refine (runsAlike_newValue draw hlike.refl ids h.1).bind fun value value' hvalue => ?_
    refine (ih h.2 ids).bind fun others others' hothers => ?_
    exact .pure (.cons ⟨rfl, hvalue⟩ hothers)
  | branch column placed inner rest ihInner ihRest =>
    have hgiven := h.1.like_givenIn column (.refl hlike.refl inner [])
    rw [newPack, newPack]
    generalize column.givenIn payload = given, column.givenIn other = given' at hgiven
    cases hgiven with
    | link hvalue =>
      refine (ihRest h.2 ids).bind fun others others' hothers => ?_
      exact .pure (.cons ⟨rfl, hvalue⟩ hothers)
    | row hkeys hnested =>
      -- An identifier that one payload lacks the other lacks too, so that both runs draw it.
      refine (runsAlike_withTarget draw hlike.refl hkeys hnested).bind fun made made' hmade => ?_
      refine (RunsAlike.lift (inner.endsAlike_checkKeys hmade.1)).bind fun _ _ _ => ?_
      refine (ihInner hmade.2 placed.table.ids).bind fun below below' hbelow => ?_
      refine (ihRest h.2 ids).bind fun others others' hothers => ?_
      exact .pure (.cons ⟨rfl, hlike.obj hbelow⟩ hothers)

end Draw

/-- Renaming carries likeness over, too. -/
theorem endsAlike_packOf (hlike : Likeness like) (h : shape.ReorderedBy like payload other) :
    EndsAlike (Entries.Like like) (shape.packOf payload) (shape.packOf other) := by
  induction shape generalizing payload other with
  | nil => exact .ok .nil
  | leaf column rest ih =>
    have hrel := h.1.rel_valueIn?
    rw [packOf, packOf]
    generalize column.displayName.valueIn? payload = found,
      column.displayName.valueIn? other = found' at hrel
    refine (ih h.2).bind fun others others' hothers => ?_
    cases hrel with
    | none => exact .ok hothers
    | some hvalue => exact .ok (.cons ⟨rfl, hvalue⟩ hothers)
  | branch column placed inner rest ihInner ihRest =>
    have hrel := h.1.rel_valueIn?
    cases hfound : column.displayName.valueIn? payload <;>
      cases hfound' : column.displayName.valueIn? other <;> rw [hfound, hfound'] at hrel
    · rw [packOf, packOf, hfound, hfound']
      exact ihRest h.2
    · cases hrel
    · cases hrel
    · cases hrel with | some hvalue => ?_
      cases hvalue with
      | link hplain hplain' hvalue =>
        rw [packOf_link hfound hplain, packOf_link hfound' hplain']
        exact (ihRest h.2).bind fun others others' hothers => .ok (.cons ⟨rfl, hvalue⟩ hothers)
      | row hkeys hnested =>
        rw [packOf, packOf, hfound, hfound']
        refine (inner.endsAlike_checkKeys hkeys).bind fun _ _ _ => ?_
        refine (ihInner hnested).bind fun below below' hbelow => ?_
        refine (ihRest h.2).bind fun others others' hothers => ?_
        exact .ok (.cons ⟨rfl, hlike.obj hbelow⟩ hothers)

end Shape

/-! ## Inserting -/

/-- Insertions into one table of the same names with reordered values. -/
structure Insertion.Reordered (insertion other : Insertion) : Prop where
  table : insertion.table = other.table
  cells : Entries.Like Json.Reordered insertion.cells other.cells

/-- One statement with values bound to it that may be reordered. -/
structure Statement.Reordered (statement other : Statement) : Prop where
  sql : statement.sql = other.sql
  params : List.Forall₂ Json.Reordered statement.params other.params

theorem Insertion.Reordered.statement {insertion other : Insertion} (h : insertion.Reordered other) :
    insertion.statement.Reordered other.statement := by
  have hnames : insertion.cells.map Prod.fst = other.cells.map Prod.fst := h.cells.keys_eq
  refine ⟨(Insertion.Alike.sameText ⟨h.table, hnames⟩).sql, ?_⟩
  rw [Insertion.statement_eq, Insertion.statement_eq, List.forall₂_map_left_iff,
    List.forall₂_map_right_iff]
  exact h.cells.imp fun _ _ hcell => hcell.2

/-- The insertions below a row, and the cells of the row itself, with reordered values. -/
structure InsertedAlike (made made' : List Insertion × List (String × Json)) : Prop where
  below : List.Forall₂ Insertion.Reordered made.1 made'.1
  cells : Entries.Like Json.Reordered made.2 made'.2

namespace Shape

variable {shape inner : Shape} {column : Column} {pack pack' : Entries Json}

/-- What reordered packs hold for a column with a branch is reordered. -/
theorem rel_heldIn? (column : Column) (h : pack.Reordered pack')
    {inBranch : String → Entries Json → Option Json}
    (hbranch : ∀ name {nested nested'}, Entries.Reordered nested nested' →
      Option.Rel Json.Reordered (inBranch name nested) (inBranch name nested')) :
    Option.Rel Json.Reordered (column.heldIn? pack inBranch) (column.heldIn? pack' inBranch) := by
  have hown := h.rel_get? column.qualifiedName
  have hbelow := h.rel_get? column.branchKey
  unfold Column.heldIn?
  generalize pack.get? column.qualifiedName = own, pack'.get? column.qualifiedName = own' at hown
  generalize pack.get? column.branchKey = below, pack'.get? column.branchKey = below' at hbelow
  cases hown with
  | some hvalue => exact .some hvalue
  | none =>
    cases column.relation with
    | none => exact .none
    | some target =>
      cases hbelow with
      | none => exact .none
      | @some value value' hvalue =>
        obtain ⟨hplain, rfl⟩ | ⟨nested, nested', rfl, rfl, hnested⟩ := hvalue.eq_or_objects
        · cases value' with
          | obj => cases hplain
          | _ => exact .none
        · exact hbranch target.column hnested

theorem rel_valueOf? (h : pack.Reordered pack') (name : String) :
    Option.Rel Json.Reordered (shape.valueOf? name pack) (shape.valueOf? name pack') := by
  induction shape generalizing name pack pack' with
  | nil => exact .none
  | leaf column rest ih =>
    rw [valueOf?, valueOf?]
    split
    · exact h.rel_get? _
    · exact ih h name
  | branch column placed inner rest ihInner ihRest =>
    rw [valueOf?, valueOf?]
    split
    · exact rel_heldIn? column h fun name _ _ hnested => ihInner hnested name
    · exact ihRest h name

theorem endsAlike_required {found found' : Option Json} (h : Option.Rel Json.Reordered found found') :
    EndsAlike Json.Reordered (column.required found) (column.required found') := by
  cases h with
  | none => exact .error (.refl _)
  | some hvalue => exact .ok hvalue

theorem endsAlike_branchObject {value value' : Json} (h : value.Reordered value') :
    EndsAlike Entries.Reordered (column.branchObject value) (column.branchObject value') := by
  obtain ⟨-, rfl⟩ | ⟨nested, nested', rfl, rfl, hnested⟩ := h.eq_or_objects
  · exact .refl .refl _
  · exact .ok hnested

/-- Reordered packs are inserted by statements that are reordered, row by row. -/
theorem endsAlike_inserts (h : pack.Reordered pack') :
    EndsAlike InsertedAlike (shape.inserts pack) (shape.inserts pack') := by
  induction shape generalizing pack pack' with
  | nil => exact .ok ⟨.nil, .nil⟩
  | leaf column rest ih =>
    refine (endsAlike_required (h.rel_get? column.qualifiedName)).bind fun value value' hvalue => ?_
    refine (ih h).bind fun made made' hmade => ?_
    exact .ok ⟨hmade.below, .cons ⟨rfl, hvalue⟩ hmade.cells⟩
  | branch column placed inner rest ihInner ihRest =>
    have hheld := rel_heldIn? column h fun name _ _ hnested =>
      inner.rel_valueOf? hnested name
    -- The statements of the branch go first, whether there are any or not.
    have hlater : ∀ {first first'}, List.Forall₂ Insertion.Reordered first first' →
        EndsAlike InsertedAlike
          (do
            let value ← column.required
              (column.heldIn? pack fun name nested => inner.valueOf? name nested)
            let made ← rest.inserts pack
            .ok (first ++ made.1, (column.name, value) :: made.2))
          (do
            let value ← column.required
              (column.heldIn? pack' fun name nested => inner.valueOf? name nested)
            let made ← rest.inserts pack'
            .ok (first' ++ made.1, (column.name, value) :: made.2)) := by
      intro first first' hfirst
      refine (endsAlike_required hheld).bind fun value value' hvalue => ?_
      refine (ihRest h).bind fun made made' hmade => ?_
      exact .ok ⟨List.rel_append hfirst hmade.below, .cons ⟨rfl, hvalue⟩ hmade.cells⟩
    have hbelow := h.rel_get? column.branchKey
    rw [inserts, inserts]
    generalize pack.get? column.branchKey = found, pack'.get? column.branchKey = found' at hbelow
    cases hbelow with
    | none => exact hlater .nil
    | some hvalue =>
      refine (endsAlike_branchObject hvalue).bind fun nested nested' hnested => ?_
      refine (ihInner hnested).bind fun made made' hmade => ?_
      exact hlater (List.rel_append hmade.below (.cons ⟨rfl, hmade.cells⟩ .nil))

end Shape

/-! ## Whole bodies -/

/-- A source of identifiers that notes which generators are called, in order. -/
def noting {σ : Type} (draw : IdGenerator → StateM σ Json) :
    IdGenerator → StateM (σ × List IdGenerator) Json :=
  fun ids state =>
    let (id, after) := (draw ids).run state.1
    (id, after, state.2 ++ [ids])

namespace Resource

variable {resource : Resource} {body other pack pack' : Entries Json} {like : Json → Json → Prop}

/-- The generators that are called when a new row is packed. -/
def calls {σ : Type} (resource : Resource) (draw : IdGenerator → StateM σ Json) (start : σ)
    (body : Entries Json) : List IdGenerator :=
  (outcome (resource.newPack (noting draw) body) (start, [])).2.2

/-- The statements that insert the rows of a pack. -/
def insertStatements (resource : Resource) (pack : Entries Json) : Except Fault (List Statement) := do
  let batch ← resource.inserts pack
  .ok (batch.map Insertion.statement)

/-- Two packs are the same but for the order of keys, and so is what is bound to the statements
that insert them. -/
structure PacksReordered (resource : Resource) (pack pack' : Entries Json) : Prop where
  packs : pack.Reordered pack'
  statements : EndsAlike (List.Forall₂ Statement.Reordered) (resource.insertStatements pack)
    (resource.insertStatements pack')

theorem packsReordered_of_like (h : Entries.Like Json.Reordered pack pack') :
    resource.PacksReordered pack pack' := by
  refine ⟨h.reordered, ?_⟩
  unfold insertStatements inserts
  refine EndsAlike.bind (r := List.Forall₂ Insertion.Reordered) ?_ fun batch batch' hbatch => ?_
  · refine (Shape.endsAlike_inserts h.reordered).bind fun made made' hmade => ?_
    exact .ok (List.rel_append hmade.below (.cons ⟨rfl, hmade.cells⟩ .nil))
  · refine .ok ?_
    rw [List.forall₂_map_left_iff, List.forall₂_map_right_iff]
    exact hbatch.imp fun _ _ h => h.statement

theorem runsAlike_newPack {σ : Type} (draw : IdGenerator → StateM σ Json) (hlike : Likeness like)
    (hkeys : SameKeys body other) (h : resource.shape.ReorderedBy like body other) :
    RunsAlike (Entries.Like like) (resource.newPack draw body) (resource.newPack draw other) :=
  (RunsAlike.lift (resource.shape.endsAlike_checkKeys hkeys)).bind fun _ _ _ =>
    Shape.runsAlike_newPack draw hlike h _

theorem endsAlike_packOf (hlike : Likeness like) (hkeys : SameKeys body other)
    (h : resource.shape.ReorderedBy like body other) :
    EndsAlike (Entries.Like like) (resource.packOf body) (resource.packOf other) :=
  (resource.shape.endsAlike_checkKeys hkeys).bind fun _ _ _ => Shape.endsAlike_packOf hlike h

/-- **The order of keys does not matter.** For bodies that are the same but for the order of
keys, packing a new row draws the same identifiers, and ends in the same state of their source.
Either both bodies are packed, into packs that are the same but for the order of keys, and
inserted by the same statements; or both fail, with the same fault, except that of several
unknown fields another may be named. So it is with renaming. Where moreover the values for
columns without a branch are equal, the packs are equal. -/
theorem key_order_irrelevant (resource : Resource) (body other : Entries Json) {σ : Type}
    (draw : IdGenerator → StateM σ Json) :
    (body.Reordered other →
      RunsAlike resource.PacksReordered (resource.newPack draw body) (resource.newPack draw other) ∧
      (∀ start, resource.calls draw start body = resource.calls draw start other) ∧
      EndsAlike resource.PacksReordered (resource.packOf body) (resource.packOf other)) ∧
    (SameKeys body other → resource.shape.ReorderedBy (· = ·) body other →
      RunsAlike (· = ·) (resource.newPack draw body) (resource.newPack draw other) ∧
      (∀ start, resource.calls draw start body = resource.calls draw start other) ∧
      EndsAlike (· = ·) (resource.packOf body) (resource.packOf other)) := by
  have hcalls : ∀ {like}, Likeness like → SameKeys body other →
      resource.shape.ReorderedBy like body other → ∀ start,
        resource.calls draw start body = resource.calls draw start other := by
    intro like hlike hkeys h start
    exact congrArg Prod.snd (runsAlike_newPack (noting draw) hlike hkeys h (start, [])).1
  constructor
  · intro h
    have hkeys := SameKeys.of_perm h.keys
    have hshape := resource.shape.reorderedBy_of_reordered h
    exact ⟨(runsAlike_newPack draw likeness_reordered hkeys hshape).mono fun _ _ =>
        packsReordered_of_like,
      hcalls likeness_reordered hkeys hshape,
      (endsAlike_packOf likeness_reordered hkeys hshape).mono fun _ _ => packsReordered_of_like⟩
  · intro hkeys hshape
    exact ⟨(runsAlike_newPack draw likeness_eq hkeys hshape).mono fun _ _ => Entries.like_eq_iff.1,
      hcalls likeness_eq hkeys hshape,
      (endsAlike_packOf likeness_eq hkeys hshape).mono fun _ _ => Entries.like_eq_iff.1⟩

end Resource

/-- Of two unknown fields the one that comes first is reported. -/
example :
    orderResource.packOf [("note", .null), ("total", .null)] =
        .error (.badRequest (.unknownField "note")) ∧
      orderResource.packOf [("total", .null), ("note", .null)] =
        .error (.badRequest (.unknownField "total")) := by
  decide +kernel

/-! ## An order read backwards -/

/-- The order of a new customer whose person is asked for, with its keys in reverse. -/
def orderBackwards : Entries Json :=
  [("customer_id", .obj [("customer_id_name", .str "Ann"), ("customer_id_id", .obj [])]),
    ("id", .int 1)]

/-- The pack of the order: the person has the identifier that is drawn. -/
def orderPack : Entries Json :=
  [("shop.orders.id", .int 1), ("shop.orders.customer_id_branch",
    .obj [("shop.customers.id_branch", .obj [("shop.persons.id", .int 1000)]),
      ("shop.customers.name", .str "Ann")])]

theorem reordered_orderBackwards : orderWithPerson.Reordered orderBackwards := by
  have hcustomer : Entries.Reordered [("customer_id_id", .obj []), ("customer_id_name", .str "Ann")]
      [("customer_id_name", .str "Ann"), ("customer_id_id", .obj [])] :=
    Entries.reordered_of_perm (by decide) (.swap _ _ [])
      (.cons ⟨rfl, .refl _⟩ (.cons ⟨rfl, .refl _⟩ .nil))
  exact Entries.reordered_of_perm (by decide) (.swap _ _ [])
    (.cons ⟨rfl, Json.reordered_obj_iff.2 hcustomer⟩ (.cons ⟨rfl, .refl _⟩ .nil))

/-- The order is packed alike both ways: one identifier is drawn, for the person, and the pack
is the same. -/
theorem order_packed_backwards :
    orderWithPerson.Reordered orderBackwards ∧ SameKeys orderWithPerson orderBackwards ∧
      orderResource.shape.ReorderedBy (· = ·) orderWithPerson orderBackwards ∧
      orderResource.calls counting 1000 orderWithPerson = [.upTo 2147483647] ∧
      orderResource.calls counting 1000 orderBackwards = [.upTo 2147483647] ∧
      EndsAlike orderResource.PacksReordered
        (outcome (orderResource.newPack counting orderWithPerson) 1000).1
        (outcome (orderResource.newPack counting orderBackwards) 1000).1 ∧
      outcome (orderResource.newPack counting orderBackwards) 1000 = (.ok orderPack, 1001) := by
  have hreordered := reordered_orderBackwards
  have hkeys : SameKeys orderWithPerson orderBackwards := by decide
  have hshape : orderResource.shape.ReorderedBy (· = ·) orderWithPerson orderBackwards := by
    decide +kernel
  have hcalls : orderResource.calls counting 1000 orderWithPerson = [.upTo 2147483647] := by
    decide +kernel
  have hpack : outcome (orderResource.newPack counting orderWithPerson) 1000 =
      (.ok orderPack, 1001) := by
    decide +kernel
  have hsame := orderResource.key_order_irrelevant orderWithPerson orderBackwards counting
  obtain ⟨hruns, hcalls', -⟩ := hsame.1 hreordered
  obtain ⟨hequal, -, -⟩ := hsame.2 hkeys hshape
  refine ⟨hreordered, hkeys, hshape, hcalls, (hcalls' 1000).symm.trans hcalls, (hruns 1000).2, ?_⟩
  obtain ⟨hstate, hends⟩ := hequal 1000
  rw [hpack] at hstate hends
  generalize outcome (orderResource.newPack counting orderBackwards) 1000 = made at hstate hends ⊢
  obtain ⟨ends, final⟩ := made
  obtain rfl : 1001 = final := hstate
  cases hends with
  | ok h => rw [← h]

end TableApi
