import TableApi.Proofs.Packing.Excused
import TableApi.Proofs.Identifiers.Suiting

/-!
# Which required names are enforced

Packing a body reports the first name that it misses, and succeeds when there is none
(`Resource.reports_newPack`). Each such name is a required one that the body does not supply,
but the converse fails where an identifier stands for something that is needed
(`Resource.required_enforced`).

`sku_required_not_enforced` shows a note about an item: the text of the item is listed as
required, and a note about a new item is accepted without it.
-/

namespace TableApi

/-! ## What packing reports -/

/-- The first of some names is reported as missing; if there is none, the result is fine. -/
def Reports {α : Type} : List String → Except Fault α → Prop
  | [], result => ∃ value, result = .ok value
  | name :: _, result => result = .error (.missingField name)

namespace Reports

variable {α : Type} {names : List String} {result : Except Fault α}

theorem ok_or_error (h : Reports names result) :
    (∃ value, result = .ok value) ∨ ∃ name ∈ names, result = .error (.missingField name) := by
  cases names with
  | nil => exact .inl h
  | cons name rest => exact .inr ⟨name, List.mem_cons_self, h⟩

theorem error_iff (h : Reports names result) :
    (∃ name, result = .error (.missingField name)) ↔ names ≠ [] := by
  cases names with
  | nil =>
    obtain ⟨value, rfl⟩ := h
    simp
  | cons name rest => exact ⟨fun _ => List.cons_ne_nil _ _, fun _ => ⟨name, h⟩⟩

end Reports

section Draw

variable {σ : Type} {draw : IdGenerator → StateM σ Json}

/-- A chain reports what its first step misses, and then what the others miss. -/
theorem Reports.bind {α β : Type} {first : Packing σ α} {rest : α → Packing σ β} {start : σ}
    {names others : List String} (h : Reports names (outcome first start).1)
    (hrest : ∀ value middle, outcome first start = (.ok value, middle) →
      Reports others (outcome (rest value) middle).1) :
    Reports (names ++ others) (outcome (first >>= rest) start).1 := by
  rw [outcome_bind]
  rcases hfirst : outcome first start with ⟨result, middle⟩
  rw [hfirst] at h
  cases names with
  | nil =>
    obtain ⟨value, rfl⟩ := h
    exact hrest value middle hfirst
  | cons name _ =>
    obtain rfl : result = .error (.missingField name) := h
    rfl

/-- A column without a branch is missed if it is lacking. -/
theorem Column.reports_newValue {column : Column} {ids : IdGenerator}
    {payload other : Entries Json} (hkeys : SameKeys payload other) (start : σ) :
    Reports (if column.lackedBy payload then [column.displayName.primary] else [])
      (outcome (column.newValue draw ids other) start).1 := by
  have hsome := hkeys.isSome_valueIn? column.displayName
  unfold newValue lackedBy
  cases hother : column.displayName.valueIn? other with
  | some value =>
    rw [hother, Option.isSome_some] at hsome
    rw [if_neg (by simp [← Option.not_isSome, hsome])]
    exact ⟨value, rfl⟩
  | none =>
    rw [hother, Option.isSome_none] at hsome
    cases hprimary : column.isPrimary with
    | true => exact ⟨_, rfl⟩
    | false =>
      rw [if_pos (by simp [← Option.not_isSome, hsome])]
      rfl

namespace Shape

variable {shape : Shape} {payload other : Entries Json}

/-- Known keys stay known when an identifier is written into a payload. -/
theorem Knows.completed {inner : Shape} {nested : Entries Json} (h : inner.Knows nested)
    (column : Column) (id : Json) :
    inner.Knows (nested.completed id (column.drawnUnder? inner nested)) := by
  cases hdrawn : column.drawnUnder? inner nested with
  | none => exact h
  | some name =>
    obtain ⟨target, htarget, htakes⟩ := Column.exists_takesDrawn hdrawn
    intro key hkey
    have hkey : key ∈ (nested.put name id).keys := hkey
    rw [Entries.keys_put] at hkey
    split at hkey
    · exact h key hkey
    · rcases List.mem_append.1 hkey with hkey | hkey
      · exact h key hkey
      · obtain rfl := List.mem_singleton.1 hkey
        exact ⟨target, htarget, Name.matchesText_of_takes htakes⟩

theorem KnowsBelow.completed (h : shape.KnowsBelow payload) (drawn : Option String) :
    shape.KnowsBelow (payload.completed .null drawn) := by
  induction shape with
  | nil => trivial
  | leaf _ _ ih => exact ih h
  | branch column placed inner rest _ ih =>
    refine ⟨?_, ih h.2⟩
    rw [column.givenIn_completed]
    cases column.displayName.takesDrawn payload drawn with
    | true => trivial
    | false => exact h.1

/-- **What is reported.** Packing reports the first name that it misses, whatever identifiers
are drawn. -/
theorem reports_newPack (hplain : shape.PlainBelow draw) (hknows : shape.KnowsBelow payload)
    (hkeys : SameKeys payload other) (hagree : shape.Agree payload other) {ids : IdGenerator}
    (start : σ) :
    Reports (shape.missing payload) (outcome (shape.newPack draw ids other) start).1 := by
  unfold missing
  induction shape generalizing ids payload other start with
  | nil => exact ⟨[], rfl⟩
  | leaf column rest ih =>
    refine (Column.reports_newValue hkeys start).bind fun value middle _ => ?_
    rw [← List.append_nil (rest.lacking _ _)]
    exact (ih hplain hknows hkeys hagree middle).bind fun others after _ => ⟨_, rfl⟩
  | branch column placed inner rest ihInner ihRest =>
    obtain ⟨hplaced, hinner, hlater⟩ := hplain.of_branch
    obtain ⟨hknowsInner, hknowsRest⟩ := hknows
    obtain ⟨hgivens, hagree⟩ := hagree
    rw [newPack, lacking]
    cases hgiven : column.givenIn payload with
    | link value =>
      cases hgiven' : column.givenIn other with
      | row nested' =>
        rw [hgiven, hgiven'] at hgivens
        exact hgivens.elim
      | link value' =>
        rw [List.nil_append, ← List.append_nil (rest.lacking _ _)]
        exact (ihRest hlater hknowsRest hkeys hagree start).bind fun others after _ => ⟨_, rfl⟩
    | row nested =>
      rw [hgiven] at hknowsInner
      cases hgiven' : column.givenIn other with
      | link value' =>
        rw [hgiven, hgiven'] at hgivens
        exact hgivens.elim
      | row nested' =>
        rw [hgiven, hgiven'] at hgivens
        obtain ⟨hkeysInner, hagreeInner⟩ := hgivens
        obtain ⟨_, middle, hcompleted⟩ := column.exists_withTarget draw placed inner nested' start
        obtain ⟨id, rfl, hdraws⟩ := (Column.completes_withTarget hcompleted).draws
        rw [← hkeysInner.drawnUnder?_eq] at hcompleted hdraws
        -- The object is checked and packed with the drawn identifier in it; for what is missed
        -- any plain value does as well, so the object with a null there stands for it.
        have hkeysBelow := hkeysInner.completed .null id (column.drawnUnder? inner nested)
        have hagreeBelow :
            inner.Agree (nested.completed .null (column.drawnUnder? inner nested))
              (nested'.completed id (column.drawnUnder? inner nested)) :=
          hagreeInner.completed hkeysInner (fun _ => rfl) (hdraws.plain hplaced)
        have hknown := hkeysBelow.knows (hknowsInner.1.completed column .null)
        rw [outcome_bind_of_ok hcompleted, checkKeys_ok_iff.2 hknown,
          outcome_bind_of_ok (outcome_liftExcept (.ok ()) middle)]
        refine (ihInner hinner (hknowsInner.2.completed _) hkeysBelow hagreeBelow middle).bind
          fun below later _ => ?_
        rw [← List.append_nil (rest.lacking _ _)]
        exact (ihRest hlater hknowsRest hkeys hagree later).bind fun others after _ => ⟨_, rfl⟩

end Shape

end Draw

namespace Resource

variable {schema : Schema} {root : Table} {resource : Resource} {σ : Type}
  {draw : IdGenerator → StateM σ Json} {body : Entries Json}

/-- A body that unfolds is accepted or refused for the first name that packing misses. -/
theorem reports_newPack (hplain : resource.shape.PlainBelow draw) (hbody : resource.Unfolds body)
    (start : σ) :
    Reports (resource.shape.missing body) (outcome (resource.newPack draw body) start).1 := by
  rw [newPack, Shape.checkKeys_ok_iff.2 hbody.keys,
    outcome_bind_of_ok (outcome_liftExcept (.ok ()) start)]
  exact Shape.reports_newPack hplain hbody.below (.refl body) (.refl _ body) start

/-- Of the bodies that unfold exactly those are refused for a missing name that do not supply
all required names. -/
def Enforces (draw : IdGenerator → StateM σ Json) (start : σ) (resource : Resource) : Prop :=
  ∀ body, resource.Unfolds body →
    ((∃ name, (outcome (resource.newPack draw body) start).1 = .error (.missingField name)) ↔
      ∃ name, resource.Unsupplied body name)

/-- **Required names are enforced** as far as no identifier stands for them. Where no two
entries of a table meet under one key and no drawn identifier is an object, a body that unfolds
is accepted, or refused for a required name that it does not supply. If no identifier can stand
for something that is needed, every body that does not supply a required name is refused. Where
no column shares a name with a column that opens a branch, this condition is necessary. -/
theorem required_enforced (hcompile : compile schema root = .ok resource)
    (hapart : ∀ table ∈ resource.tables, schema.KeysApart table)
    (hplain : resource.shape.PlainBelow draw) (start : σ) :
    (∀ body, resource.Unfolds body →
      (∃ pack, (outcome (resource.newPack draw body) start).1 = .ok pack) ∨
        ∃ name, resource.Unsupplied body name ∧
          (outcome (resource.newPack draw body) start).1 = .error (.missingField name)) ∧
    (resource.shape.excuses = false → resource.Enforces draw start) ∧
    (resource.shape.LinksApart → resource.Enforces draw start →
      resource.shape.excuses = false) := by
  have hreports : ∀ body, resource.Unfolds body → Reports (resource.shape.missing body)
      (outcome (resource.newPack draw body) start).1 :=
    fun body hbody => reports_newPack hplain hbody start
  have hlacks : ∀ body, resource.Unfolds body →
      ((∃ name, resource.Unsupplied body name) ↔ resource.shape.unsupplied body ≠ []) := by
    intro body hbody
    simp only [unsupplied_iff hcompile hapart hbody.rows]
    exact ⟨fun ⟨_, hname⟩ => List.ne_nil_of_mem hname, List.exists_mem_of_ne_nil _⟩
  refine ⟨?_, ?_, ?_⟩
  · intro body hbody
    rcases (hreports body hbody).ok_or_error with hok | ⟨name, hname, herror⟩
    · exact .inl hok
    · have hsub : (resource.shape.missing (body.completed .null none)).Sublist
          (resource.shape.unsupplied body) := Shape.missing_completed_sublist
      exact .inr ⟨name, (unsupplied_iff hcompile hapart hbody.rows).2 (hsub.subset hname), herror⟩
  · intro hexcuses body hbody
    have hmissing : resource.shape.missing (body.completed .null none) =
        resource.shape.unsupplied body :=
      Shape.missing_completed (Shape.demandsAt_none _) hexcuses
    rw [Entries.completed] at hmissing
    rw [(hreports body hbody).error_iff, hlacks body hbody, hmissing]
  · intro hlinks henforces
    -- The full body is accepted, so it must supply all that is required.
    have hunshared := hlinks.unshared (leaves_apart hcompile)
    have hfull := (Shape.readsFull_full hunshared.own none).full hunshared.below
    have hbody : resource.Unfolds (resource.shape.full none) :=
      ⟨Shape.knows_of_names (Shape.keys_full_sublist none resource.shape).subset, hfull.unfolds.1,
        hfull.unfolds.2⟩
    have hsupplied : resource.shape.unsupplied (resource.shape.full none) = [] := by
      by_contra hlacking
      obtain ⟨name, herror⟩ := (henforces _ hbody).2 ((hlacks _ hbody).2 hlacking)
      exact (hreports _ hbody).error_iff.1 ⟨name, herror⟩ hfull.missing
    exact (hfull.excuses hsupplied).2

end Resource

/-! ## Orders and notes with names left out -/

/-- An order that goes to Oslo, of a customer who lives nowhere. -/
def orderFromNowhere : Entries Json :=
  [("shipping_id", .obj [("shipping_id_city", .str "Oslo")])]

/-- Orders enforce what they require. The town of the customer is required and left out, and
the order is refused for it. -/
theorem customer_town_enforced :
    Resource.compile (addressedShop.toSchema [] []) addressedTable = .ok addressedOrder ∧
      (∀ table ∈ addressedOrder.tables, (addressedShop.toSchema [] []).KeysApart table) ∧
      addressedOrder.shape.PlainBelow counting ∧ addressedOrder.shape.excuses = false ∧
      addressedOrder.Enforces counting 1000 ∧
      addressedOrder.required = [[], [], ["customer_id_address_id_city"], ["shipping_id_city"]] ∧
      addressedOrder.Unfolds orderFromNowhere ∧
      addressedOrder.Unsupplied orderFromNowhere "customer_id_address_id_city" ∧
      (outcome (addressedOrder.newPack counting orderFromNowhere) 1000).1 =
        .error (.missingField "customer_id_address_id_city") := by
  have hcompile : Resource.compile (addressedShop.toSchema [] []) addressedTable =
      .ok addressedOrder := eq_ok_get _
  have hapart : ∀ table ∈ addressedOrder.tables,
      (addressedShop.toSchema [] []).KeysApart table := by decide +kernel
  have hplain : addressedOrder.shape.PlainBelow counting := fun _ _ _ => rfl
  have hexcuses : addressedOrder.shape.excuses = false := by decide +kernel
  have hbody : addressedOrder.Unfolds orderFromNowhere := by decide +kernel
  have herror : (outcome (addressedOrder.newPack counting orderFromNowhere) 1000).1 =
      .error (.missingField "customer_id_address_id_city") := by decide +kernel
  obtain ⟨hrefused, henforced, -⟩ := Resource.required_enforced hcompile hapart hplain 1000
  refine ⟨hcompile, hapart, hplain, hexcuses, henforced hexcuses, by decide +kernel, hbody, ?_,
    herror⟩
  rcases hrefused _ hbody with ⟨pack, hpack⟩ | ⟨name, hname, hmissing⟩
  · rw [herror] at hpack
    cases hpack
  · rw [herror] at hmissing
    cases hmissing
    exact hname

/-- The text of an item is required, since it belongs to no primary key. A note about a new
item is accepted without it, as an identifier is drawn for the column that the note
references. -/
theorem sku_required_not_enforced :
    Resource.compile (annotatedShop.toSchema [] []) (noteTable []) = .ok noteResource ∧
      noteResource.required = [[], ["item_sku_sku"]] ∧ noteResource.Unfolds noteOnNewItem ∧
      noteResource.Unsupplied noteOnNewItem "item_sku_sku" ∧
      (∃ pack, (outcome (noteResource.newPack counting noteOnNewItem) 1000).1 = .ok pack) ∧
      ¬ noteResource.Enforces counting 1000 := by
  let pack : Entries Json := [("shop.notes.id", .int 1), ("shop.notes.item_sku_branch",
    .obj [("shop.items.sku", .int 1000), ("shop.items.order_no", .int 1001),
      ("shop.items.line", .int 1002)])]
  have hapart : ∀ table ∈ noteResource.tables, (annotatedShop.toSchema [] []).KeysApart table := by
    decide +kernel
  have hbody : noteResource.Unfolds noteOnNewItem := by decide +kernel
  have hlacks : noteResource.Unsupplied noteOnNewItem "item_sku_sku" :=
    (Resource.unsupplied_iff compile_noteTable hapart hbody.rows).2 (by decide +kernel)
  have hpack : (outcome (noteResource.newPack counting noteOnNewItem) 1000).1 = .ok pack := by
    decide +kernel
  refine ⟨compile_noteTable, by decide +kernel, hbody, hlacks, ⟨pack, hpack⟩, ?_⟩
  intro henforces
  obtain ⟨name, herror⟩ := (henforces noteOnNewItem hbody).2 ⟨_, hlacks⟩
  rw [hpack] at herror
  cases herror

end TableApi
