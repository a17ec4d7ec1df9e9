import TableApi.Proofs.Renaming.Aliases
import TableApi.Proofs.Statements.Bodies

/-!
# Where identifiers are drawn

Which columns of a new row take an identifier can be told from its body. A primary key does
for which nothing is given, and so does the referenced column of a row below, under whose
name an identifier is written into the row's payload. Other columns of that row may read it
there too, if they share the name. `Shape.drawSites` lists these columns with the branch keys
that lead to their rows.

`Resource.draws_newPack` says that the list is right: what is drawn while a body is packed is
what stands in the pack at its sites, each drawn by the generator of the site's table. And
whether a body is accepted does not depend on what is drawn (`Shape.Agree.exists_newPack`).
-/

namespace TableApi

/-! ## Sites -/

/-- A column of a new row that takes an identifier: the branch keys that lead to the row, the
row's table and the column. -/
structure DrawSite where
  path : List String
  table : Table
  column : Column

/-- The object of a pack to which branch keys lead. -/
def Entries.objectAt? : List String → Entries Json → Option (Entries Json)
  | [], pack => some pack
  | key :: rest, pack => match pack.get? key with
    | some (.obj nested) => objectAt? rest nested
    | _ => none

namespace DrawSite

/-- A site of a row below, seen from the row at hand. -/
def below (key : String) (site : DrawSite) : DrawSite :=
  { site with path := key :: site.path }

/-- What stands in a pack at a site. -/
def value? (site : DrawSite) (pack : Entries Json) : Option Json :=
  (Entries.objectAt? site.path pack).bind fun object => object.get? site.column.qualifiedName

theorem value?_below {key : String} {site : DrawSite} {pack nested : Entries Json}
    (h : pack.get? key = some (.obj nested)) :
    (site.below key).value? pack = site.value? nested := by
  unfold value? below
  rw [Entries.objectAt?, h]

end DrawSite

/-- Whether a name finds what was drawn under another name, if anything was. -/
def Name.takesDrawn (name : Name) (payload : Entries Json) (drawn : Option String) : Bool :=
  drawn.any fun text => name.takes payload text

/-- The columns of a row that take identifiers, and those of the rows below. `drawn` is the
name under which an identifier is written into the payload of the row, if any is. -/
def Shape.drawSites (table : Table) (drawn : Option String) (payload : Entries Json) :
    Shape → List DrawSite
  | nil => []
  | leaf column rest =>
    (if column.displayName.takesDrawn payload drawn ∨
        column.displayName.valueIn? payload = none then [⟨[], table, column⟩] else []) ++
      rest.drawSites table drawn payload
  | branch column placed inner rest =>
    (if column.displayName.takesDrawn payload drawn then [⟨[], table, column⟩]
    else match column.givenIn payload with
      | .link _ => []
      | .row nested => (inner.drawSites placed.table (column.drawnUnder? inner nested) nested).map
          (DrawSite.below column.branchKey)) ++
      rest.drawSites table drawn payload

/-- The columns that take identifiers when a body is packed. -/
def Resource.drawSites (resource : Resource) (body : Entries Json) : List DrawSite :=
  resource.shape.drawSites resource.root.table none body

/-- A payload with an identifier under a name, if there is a name. -/
def Entries.completed (payload : Entries Json) (id : Json) : Option String → Entries Json
  | none => payload
  | some name => payload.put name id

/-- A name finds the identifier in the completed payload, or what it found before. -/
theorem Name.valueIn?_completed (name : Name) (payload : Entries Json) (id : Json)
    (drawn : Option String) :
    name.valueIn? (payload.completed id drawn) =
      if name.takesDrawn payload drawn then some id else name.valueIn? payload := by
  cases drawn with
  | none => rfl
  | some text => exact name.valueIn?_put payload text id

/-! ## Runs -/

section Draw

variable {σ : Type} (draw : IdGenerator → StateM σ Json)

/-- Identifiers that are drawn one after another, each with its generator, lead from one
state of their source to another. -/
inductive Draws : σ → List (IdGenerator × Json) → σ → Prop
  | nil {state} : Draws state [] state
  | cons {ids value rest before middle after} (hdraw : (draw ids).run before = (value, middle))
      (hrest : Draws middle rest after) : Draws before ((ids, value) :: rest) after

variable {draw}

theorem Draws.append {first second : List (IdGenerator × Json)} {before middle after : σ}
    (h : Draws draw before first middle) (hsecond : Draws draw middle second after) :
    Draws draw before (first ++ second) after := by
  induction h with
  | nil => exact hsecond
  | cons hdraw _ ih => exact .cons hdraw (ih hsecond)

/-- Each of them is drawn in some state. -/
theorem Draws.exists_run {entries : List (IdGenerator × Json)} {before after : σ}
    (h : Draws draw before entries after) {ids : IdGenerator} {value : Json}
    (hmem : (ids, value) ∈ entries) : ∃ state, ((draw ids).run state).1 = value := by
  induction h with
  | nil => cases hmem
  | @cons own first rest before middle after hdraw _ ih =>
    rcases List.mem_cons.1 hmem with heq | hmem
    · cases heq
      exact ⟨before, by rw [hdraw]⟩
    · exact ih hmem

/-- What is drawn for a row before it is packed: an identifier, if there is a name under which
it is written into the payload. -/
def drawnFor (ids : IdGenerator) (id : Json) : Option String → List (IdGenerator × Json)
  | none => []
  | some _ => [(ids, id)]

theorem mem_drawnFor_of_isSome {ids : IdGenerator} {id : Json} {drawn : Option String}
    (h : drawn.isSome = true) : (ids, id) ∈ drawnFor ids id drawn := by
  obtain ⟨name, rfl⟩ := Option.isSome_iff_exists.1 h
  exact List.mem_cons_self

theorem isSome_of_takesDrawn {name : Name} {payload : Entries Json} {drawn : Option String}
    (h : name.takesDrawn payload drawn = true) : drawn.isSome = true := by
  cases drawn with
  | none => cases h
  | some => rfl

theorem mem_drawnFor {ids : IdGenerator} {id : Json} {name : Name} {payload : Entries Json}
    {drawn : Option String} (h : name.takesDrawn payload drawn = true) :
    (ids, id) ∈ drawnFor ids id drawn :=
  mem_drawnFor_of_isSome (isSome_of_takesDrawn h)

/-- Completing a payload draws an identifier if one is missing. -/
theorem Column.Completes.draws {column : Column} {placed : Placed} {inner : Shape}
    {payload completed : Entries Json} {before after : σ}
    (h : column.Completes draw placed inner payload completed before after) :
    ∃ id, completed = payload.completed id (column.drawnUnder? inner payload) ∧
      Draws draw before (drawnFor placed.table.ids id (column.drawnUnder? inner payload)) after := by
  unfold Completes at h
  cases hdrawn : column.drawnUnder? inner payload with
  | none =>
    rw [hdrawn] at h
    obtain ⟨rfl, rfl⟩ := h
    exact ⟨.null, rfl, .nil⟩
  | some name =>
    rw [hdrawn] at h
    obtain ⟨id, hdraw, rfl⟩ := h
    exact ⟨id, rfl, .cons hdraw .nil⟩

/-- What a column reads of a payload stands in the pack under the column's own name, if it is
no object. -/
theorem Shape.Packed.get?_of_plain {shape : Shape} {ids : IdGenerator}
    {payload pack : Entries Json} {before after : σ}
    (h : shape.Packed draw ids payload pack before after) {column : Column}
    (hcolumn : column ∈ shape.columns) {value : Json} (hplain : value.members? = none)
    (hvalue : column.displayName.valueIn? payload = some value) :
    pack.get? column.qualifiedName = some value := by
  induction h with
  | nil => cases hcolumn
  | given hread hget _ ih =>
    rcases List.mem_cons.1 hcolumn with rfl | hcolumn
    · rw [hget, ← hread, hvalue]
    · exact ih hcolumn hvalue
  | drawn hnone _ _ _ ih =>
    rcases List.mem_cons.1 hcolumn with rfl | hcolumn
    · cases hnone.symm.trans hvalue
    · exact ih hcolumn hvalue
  | link hgiven hget _ _ ih =>
    rcases List.mem_cons.1 hcolumn with rfl | hcolumn
    · rw [Column.givenIn_of_plain hvalue hplain] at hgiven
      cases hgiven
      exact hget
    · exact ih hcolumn hvalue
  | row hgiven _ _ _ _ _ _ _ ih =>
    rcases List.mem_cons.1 hcolumn with rfl | hcolumn
    · rw [Column.givenIn_of_plain hvalue hplain] at hgiven
      cases hgiven
    · exact ih hcolumn hvalue

/-- A site is a column of the row at hand or of a row below. -/
theorem Shape.table_of_mem_drawSites {shape : Shape} {table : Table} {drawn : Option String}
    {payload : Entries Json} {site : DrawSite} (h : site ∈ shape.drawSites table drawn payload) :
    site.table = table ∨ ∃ place ∈ shape.places, site.table = place.1.table := by
  induction shape generalizing table drawn payload site with
  | nil => cases h
  | leaf column rest ih =>
    rw [drawSites, List.mem_append] at h
    rcases h with h | h
    · split at h
      · exact .inl (List.mem_singleton.1 h ▸ rfl)
      · cases h
    · exact ih h
  | branch column placed inner rest ihInner ihRest =>
    have hinner : ∀ place ∈ inner.places, place ∈ (branch column placed inner rest).places :=
      fun _ h => List.mem_append_left _ (List.mem_cons_of_mem _ h)
    have hrest : ∀ place ∈ rest.places, place ∈ (branch column placed inner rest).places :=
      fun _ h => List.mem_append_right _ h
    rw [drawSites, List.mem_append] at h
    rcases h with h | h
    · split at h
      · exact .inl (List.mem_singleton.1 h ▸ rfl)
      split at h
      · cases h
      · obtain ⟨inside, hinside, rfl⟩ := List.mem_map.1 h
        rcases ihInner hinside with htable | ⟨place, hplace, htable⟩
        · exact .inr ⟨(placed, inner), List.mem_cons_self, htable⟩
        · exact .inr ⟨place, hinner place hplace, htable⟩
    · exact (ihRest h).imp_right fun ⟨place, hplace, htable⟩ => ⟨place, hrest place hplace, htable⟩

/-- A column that takes what was drawn is a site. -/
theorem Shape.mem_drawSites_of_takes {shape : Shape} {table : Table} {drawn : Option String}
    {payload : Entries Json} {column : Column} (hcolumn : column ∈ shape.columns)
    (htakes : column.displayName.takesDrawn payload drawn = true) :
    ⟨[], table, column⟩ ∈ shape.drawSites table drawn payload := by
  induction shape with
  | nil => cases hcolumn
  | leaf other rest ih =>
    rw [drawSites]
    rcases List.mem_cons.1 hcolumn with rfl | hcolumn
    · rw [if_pos (.inl htakes)]
      exact List.mem_cons_self
    · exact List.mem_append_right _ (ih hcolumn)
  | branch other placed inner rest _ ih =>
    rw [drawSites]
    rcases List.mem_cons.1 hcolumn with rfl | hcolumn
    · rw [if_pos htakes]
      exact List.mem_cons_self
    · exact List.mem_append_right _ (ih hcolumn)

/-! ## What stands at the sites -/

/-- What stands at sites of a pack is what was drawn, now or for the row at hand before. -/
structure DrawnAt (sites : List DrawSite) (pack : Entries Json)
    (own entries : List (IdGenerator × Json)) : Prop where
  sited : ∀ entry ∈ entries, ∃ site ∈ sites,
    site.table.ids = entry.1 ∧ site.value? pack = some entry.2
  drawn : ∀ site ∈ sites, ∃ value, site.value? pack = some value ∧
    (site.table.ids, value) ∈ own ++ entries

namespace DrawnAt

variable {sites others : List DrawSite} {pack nested : Entries Json}
  {own entries later : List (IdGenerator × Json)} {table : Table} {column : Column} {value : Json}

theorem nil : DrawnAt [] pack own [] :=
  ⟨fun _ h => (List.not_mem_nil h).elim, fun _ h => (List.not_mem_nil h).elim⟩

theorem append (h : DrawnAt sites pack own entries) (hothers : DrawnAt others pack own later) :
    DrawnAt (sites ++ others) pack own (entries ++ later) := by
  constructor
  · intro entry hentry
    rcases List.mem_append.1 hentry with hentry | hentry
    · obtain ⟨site, hsite, hentry⟩ := h.sited entry hentry
      exact ⟨site, List.mem_append_left _ hsite, hentry⟩
    · obtain ⟨site, hsite, hentry⟩ := hothers.sited entry hentry
      exact ⟨site, List.mem_append_right _ hsite, hentry⟩
  · intro site hsite
    rw [← List.append_assoc]
    rcases List.mem_append.1 hsite with hsite | hsite
    · obtain ⟨value, hvalue, hmem⟩ := h.drawn site hsite
      exact ⟨value, hvalue, List.mem_append_left _ hmem⟩
    · obtain ⟨value, hvalue, hmem⟩ := hothers.drawn site hsite
      refine ⟨value, hvalue, ?_⟩
      rcases List.mem_append.1 hmem with hmem | hmem
      · exact List.mem_append_left _ (List.mem_append_left _ hmem)
      · exact List.mem_append_right _ hmem

/-- A column that takes what was drawn for its row before. -/
theorem taken (hget : pack.get? column.qualifiedName = some value)
    (hown : (table.ids, value) ∈ own) : DrawnAt [⟨[], table, column⟩] pack own [] := by
  refine ⟨fun _ h => (List.not_mem_nil h).elim, ?_⟩
  simp only [List.mem_singleton, forall_eq]
  exact ⟨value, hget, List.mem_append_left _ hown⟩

/-- A column for which an identifier is drawn. -/
theorem single (hget : pack.get? column.qualifiedName = some value) :
    DrawnAt [⟨[], table, column⟩] pack own [(table.ids, value)] := by
  constructor <;> simp only [List.mem_singleton, forall_eq]
  · exact ⟨_, rfl, rfl, hget⟩
  · exact ⟨value, hget, List.mem_append_right _ List.mem_cons_self⟩

/-- The sites of a row below, among which is that of what was drawn for it before. -/
theorem below {outer : List (IdGenerator × Json)} {key : String}
    (h : DrawnAt sites nested own entries) (hown : ∀ entry ∈ own, ∃ site ∈ sites,
      site.table.ids = entry.1 ∧ site.value? nested = some entry.2)
    (hget : pack.get? key = some (.obj nested)) :
    DrawnAt (sites.map (DrawSite.below key)) pack outer (own ++ entries) := by
  constructor
  · intro entry hentry
    have hsited : ∃ site ∈ sites, site.table.ids = entry.1 ∧ site.value? nested = some entry.2 :=
      (List.mem_append.1 hentry).elim (hown entry) (h.sited entry)
    obtain ⟨site, hsite, hids, hvalue⟩ := hsited
    exact ⟨site.below key, List.mem_map_of_mem hsite, hids,
      (DrawSite.value?_below hget).trans hvalue⟩
  · intro site hsite
    obtain ⟨inside, hinside, rfl⟩ := List.mem_map.1 hsite
    obtain ⟨value, hvalue, hmem⟩ := h.drawn inside hinside
    exact ⟨value, (DrawSite.value?_below hget).trans hvalue, List.mem_append_right _ hmem⟩

end DrawnAt

/-- An identifier is drawn under the name of a column of the row, which takes it. -/
theorem Column.exists_takesDrawn {column : Column} {inner : Shape} {payload : Entries Json}
    {name : String} (h : column.drawnUnder? inner payload = some name) :
    ∃ target ∈ inner.columns, target.displayName.takesDrawn payload (some name) = true := by
  unfold drawnUnder? at h
  split at h
  · cases h
  · next target htarget =>
    obtain ⟨ref, -, hfound⟩ := Option.bind_eq_some_iff.1 htarget
    refine ⟨target, List.mem_of_find?_eq_some hfound, ?_⟩
    split at h
    · cases h
    · obtain rfl := Option.some.inj h
      simp [Name.takesDrawn, Name.takes]

/-- What is drawn for the rows below is no object. -/
def Shape.PlainBelow (draw : IdGenerator → StateM σ Json) (shape : Shape) : Prop :=
  ∀ place ∈ shape.places, ∀ state, ((draw place.1.table.ids).run state).1.members? = none

theorem Shape.PlainBelow.of_branch {column : Column} {placed : Placed} {inner rest : Shape}
    (h : (branch column placed inner rest).PlainBelow draw) :
    (∀ state, ((draw placed.table.ids).run state).1.members? = none) ∧
      inner.PlainBelow draw ∧ rest.PlainBelow draw := by
  simpa only [PlainBelow, places, List.cons_append, List.forall_mem_cons,
    List.forall_mem_append] using h

/-- **What is drawn stands at the sites.** The sites of a payload can be told before it is
completed, and what is drawn while it is packed is what stands there, beside what was drawn
for the row itself. -/
theorem Shape.Packed.drawnAt {shape : Shape} {table : Table} {drawn : Option String} {id : Json}
    {payload pack : Entries Json} {before after : σ}
    (h : shape.Packed draw table.ids (payload.completed id drawn) pack before after)
    (hid : drawn.isSome = true → id.members? = none) (hplain : shape.PlainBelow draw) :
    ∃ entries, Draws draw before entries after ∧
      DrawnAt (shape.drawSites table drawn payload) pack (drawnFor table.ids id drawn) entries := by
  induction shape generalizing table drawn id payload pack before after with
  | nil =>
    cases h
    exact ⟨[], .nil, .nil⟩
  | leaf column rest ih =>
    have hvalue := column.displayName.valueIn?_completed payload id drawn
    rw [drawSites]
    by_cases htakes : column.displayName.takesDrawn payload drawn = true
    · rw [if_pos htakes] at hvalue
      rw [if_pos (.inl htakes)]
      cases h with
      | given hread hget hrest =>
        obtain rfl := Option.some.inj (hvalue.symm.trans hread)
        obtain ⟨entries, hdraws, hat⟩ := ih hrest hid hplain
        exact ⟨entries, hdraws, (DrawnAt.taken hget (mem_drawnFor htakes)).append hat⟩
      | drawn hnone => cases hvalue.symm.trans hnone
    · rw [if_neg htakes] at hvalue
      cases h with
      | given hread hget hrest =>
        obtain ⟨entries, hdraws, hat⟩ := ih hrest hid hplain
        rw [hvalue] at hread
        rw [if_neg (not_or.2 ⟨htakes, by simp [hread]⟩)]
        exact ⟨entries, hdraws, hat⟩
      | drawn hnone hdraw hget hrest =>
        obtain ⟨entries, hdraws, hat⟩ := ih hrest hid hplain
        rw [if_pos (.inr (hvalue.symm.trans hnone))]
        exact ⟨_, .cons hdraw hdraws, (DrawnAt.single hget).append hat⟩
  | branch column placed inner rest ihInner ihRest =>
    have hvalue := column.displayName.valueIn?_completed payload id drawn
    obtain ⟨hplaced, hinner, hlater⟩ := hplain.of_branch
    rw [drawSites]
    by_cases htakes : column.displayName.takesDrawn payload drawn = true
    · -- The column reads what was drawn before, and that is no object.
      rw [if_pos htakes] at hvalue
      have hlink := Column.givenIn_of_plain hvalue (hid (isSome_of_takesDrawn htakes))
      rw [if_pos htakes]
      cases h with
      | link hgiven hget _ hrest =>
        cases hlink.symm.trans hgiven
        obtain ⟨entries, hdraws, hat⟩ := ihRest hrest hid hlater
        exact ⟨entries, hdraws, (DrawnAt.taken hget (mem_drawnFor htakes)).append hat⟩
      | row hgiven => cases hlink.symm.trans hgiven
    · rw [if_neg htakes] at hvalue
      have hsame := Column.givenIn_congr hvalue
      rw [if_neg htakes]
      cases h with
      | link hgiven hget _ hrest =>
        obtain ⟨entries, hdraws, hat⟩ := ihRest hrest hid hlater
        rw [hsame] at hgiven
        rw [hgiven]
        exact ⟨entries, hdraws, hat⟩
      | @row _ _ _ _ _ _ _ nested _ below _ _ _ _ hgiven hcompletes _ hbranch _ hbelow hrest =>
        obtain ⟨own, rfl, hown⟩ := hcompletes.draws
        have hownPlain : (column.drawnUnder? inner nested).isSome = true → own.members? = none := by
          intro hsome
          obtain ⟨state, hstate⟩ := hown.exists_run (mem_drawnFor_of_isSome hsome)
          exact hstate ▸ hplaced state
        obtain ⟨inside, hinside, hatInside⟩ := ihInner hbelow hownPlain hinner
        obtain ⟨entries, hdraws, hat⟩ := ihRest hrest hid hlater
        rw [hsame] at hgiven
        rw [hgiven]
        refine ⟨_, (hown.append hinside).append hdraws, (hatInside.below ?_ hbranch).append hat⟩
        -- What was drawn for the row stands at the referenced column.
        intro entry hentry
        cases hdrawn : column.drawnUnder? inner nested with
        | none =>
          rw [hdrawn] at hentry
          cases hentry
        | some name =>
          rw [hdrawn] at hentry hbelow hownPlain
          obtain rfl := List.mem_singleton.1 hentry
          obtain ⟨target, htarget, htaken⟩ := Column.exists_takesDrawn hdrawn
          have hread := target.displayName.valueIn?_completed nested own (some name)
          rw [if_pos htaken] at hread
          exact ⟨_, mem_drawSites_of_takes htarget htaken, rfl,
            hbelow.get?_of_plain htarget (hownPlain rfl) hread⟩

/-! ## Whether a body is accepted -/

theorem SameKeys.refl (payload : Entries Json) : SameKeys payload payload :=
  ⟨fun _ h => h, fun _ h => h⟩

theorem SameKeys.completed {payload other : Entries Json} (h : SameKeys payload other)
    (id id' : Json) (drawn : Option String) :
    SameKeys (payload.completed id drawn) (other.completed id' drawn) := by
  cases drawn with
  | none => exact h
  | some name => exact h.put name id id'

theorem SameKeys.knows {shape : Shape} {payload other : Entries Json} (h : SameKeys payload other)
    (hknows : shape.Knows payload) : shape.Knows other :=
  fun key hkey => hknows key (h.2 key hkey)

/-- Every payload agrees with itself. -/
theorem Shape.Agree.refl (shape : Shape) (payload : Entries Json) : shape.Agree payload payload := by
  induction shape generalizing payload with
  | nil => trivial
  | leaf _ _ ih => exact ih payload
  | branch column _ _ _ ihInner ihRest =>
    refine ⟨?_, ihRest payload⟩
    cases column.givenIn payload with
    | link => trivial
    | row nested => exact ⟨.refl nested, ihInner nested⟩

theorem Shape.Agree.completed {shape : Shape} {payload other : Entries Json}
    (h : shape.Agree payload other) (hkeys : SameKeys payload other) {id id' : Json}
    {drawn : Option String} (hid : drawn.isSome = true → id.members? = none)
    (hid' : drawn.isSome = true → id'.members? = none) :
    shape.Agree (payload.completed id drawn) (other.completed id' drawn) := by
  cases drawn with
  | none => exact h
  | some name => exact h.put hkeys name (hid rfl) (hid' rfl)

section Accepted

variable {τ : Type} {draw' : IdGenerator → StateM τ Json}

/-- What is drawn for the row of a place is no object. -/
theorem Draws.plain {ids : IdGenerator} {id : Json} {drawn : Option String} {before after : σ}
    (h : Draws draw before (drawnFor ids id drawn) after)
    (hplain : ∀ state, ((draw ids).run state).1.members? = none) (hsome : drawn.isSome = true) :
    id.members? = none := by
  obtain ⟨state, hstate⟩ := h.exists_run (mem_drawnFor_of_isSome hsome)
  exact hstate ▸ hplain state

/-- Whether a column without a branch gets a value depends on whether it reads one. -/
theorem Column.exists_newValue {column : Column} {ids ids' : IdGenerator}
    {payload other : Entries Json} {value : Json} {before after : σ}
    (hkeys : SameKeys payload other)
    (h : outcome (column.newValue draw ids payload) before = (.ok value, after)) (start : τ) :
    ∃ value' after', outcome (column.newValue draw' ids' other) start = (.ok value', after') := by
  have hsome := hkeys.isSome_valueIn? column.displayName
  unfold newValue at h ⊢
  split at h
  · next value' hvalue =>
    rw [hvalue] at hsome
    obtain ⟨found, hfound⟩ := Option.isSome_iff_exists.1 hsome.symm
    rw [hfound]
    exact ⟨found, start, rfl⟩
  · next hnone =>
    rw [hnone] at hsome
    rw [Option.isSome_eq_false_iff.1 hsome.symm |> Option.isNone_iff_eq_none.1]
    split at h
    · next hprimary =>
      rw [if_pos hprimary]
      exact ⟨_, _, outcome_lift _ _⟩
    · cases h

/-- Completing a payload always succeeds. -/
theorem Column.exists_withTarget (column : Column) (draw' : IdGenerator → StateM τ Json)
    (placed : Placed) (inner : Shape) (payload : Entries Json) (start : τ) : ∃ completed after,
      outcome (column.withTarget draw' placed inner payload) start = (.ok completed, after) := by
  unfold withTarget
  split
  · exact ⟨payload, start, rfl⟩
  · split
    · exact ⟨payload, start, rfl⟩
    · exact ⟨_, _, rfl⟩

/-- **What is drawn does not decide what is accepted.** Where a body is packed, so is every
body that agrees with it, whatever identifiers are drawn. -/
theorem Shape.Agree.exists_newPack {shape : Shape} (hplain : shape.PlainBelow draw)
    (hplain' : shape.PlainBelow draw') {ids ids' : IdGenerator}
    {payload other pack : Entries Json} {before after : σ} (hagree : shape.Agree payload other)
    (hkeys : SameKeys payload other)
    (h : outcome (shape.newPack draw ids payload) before = (.ok pack, after)) (start : τ) :
    ∃ pack' after', outcome (shape.newPack draw' ids' other) start = (.ok pack', after') := by
  induction shape generalizing ids ids' payload other pack before after start with
  | nil => exact ⟨[], start, rfl⟩
  | leaf column rest ih =>
    obtain ⟨_, _, _, hvalue, hothers, -⟩ := newPack_leaf h
    obtain ⟨value', middle', hvalue'⟩ := Column.exists_newValue hkeys hvalue start
    obtain ⟨others', after', hothers'⟩ := ih hplain hplain' hagree hkeys hothers middle'
    rw [newPack, outcome_bind_of_ok hvalue', outcome_bind_of_ok hothers']
    exact ⟨_, after', rfl⟩
  | branch column placed inner rest ihInner ihRest =>
    obtain ⟨hplaced, hinner, hlater⟩ := hplain.of_branch
    obtain ⟨hplaced', hinner', hlater'⟩ := hplain'.of_branch
    obtain ⟨hgivens, hagree⟩ := hagree
    rw [newPack]
    rcases newPack_branch h with ⟨_, _, hgiven, hothers, -⟩ |
      ⟨nested, completed, below, others, middle, later, hgiven, hcompletes, hchecked, hbelow,
        hothers, -⟩
    · rw [hgiven] at hgivens
      cases hgiven' : column.givenIn other with
      | row nested' =>
        rw [hgiven'] at hgivens
        exact hgivens.elim
      | link value' =>
        obtain ⟨others', after', hothers'⟩ := ihRest hlater hlater' hagree hkeys hothers start
        show ∃ pack' after', outcome (rest.newPack draw' ids' other >>= _) start = (.ok pack', after')
        rw [outcome_bind_of_ok hothers']
        exact ⟨_, after', rfl⟩
    · rw [hgiven] at hgivens
      cases hgiven' : column.givenIn other with
      | link value' =>
        rw [hgiven'] at hgivens
        exact hgivens.elim
      | row nested' =>
        rw [hgiven'] at hgivens
        obtain ⟨hkeysInner, hagreeInner⟩ := hgivens
        obtain ⟨completed', middle', hcompleted'⟩ :=
          column.exists_withTarget draw' placed inner nested' start
        obtain ⟨id, rfl, hdraws⟩ := hcompletes.draws
        obtain ⟨id', rfl, hdraws'⟩ := (Column.completes_withTarget hcompleted').draws
        rw [← hkeysInner.drawnUnder?_eq] at hcompleted' hdraws'
        have hkeysBelow := hkeysInner.completed id id' (column.drawnUnder? inner nested)
        have hagreeBelow := hagreeInner.completed hkeysInner (hdraws.plain hplaced)
          (hdraws'.plain hplaced')
        have hchecked' := checkKeys_ok_iff.2 (hkeysBelow.knows (checkKeys_ok_iff.1 hchecked))
        obtain ⟨below', later', hbelow'⟩ :=
          ihInner hinner hinner' hagreeBelow hkeysBelow hbelow middle'
        obtain ⟨others', after', hothers'⟩ :=
          ihRest hlater hlater' hagree hkeys hothers later'
        refine ⟨(column.branchKey, .obj below') :: others', after', ?_⟩
        show outcome (column.withTarget draw' placed inner nested' >>= _) start = _
        rw [outcome_bind_of_ok hcompleted', hchecked',
          outcome_bind_of_ok (outcome_liftExcept (.ok ()) middle'), outcome_bind_of_ok hbelow',
          outcome_bind_of_ok hothers']
        rfl

end Accepted

namespace Resource

variable {schema : Schema} {root : Table} {resource : Resource}

/-- **What is drawn for a new row.** Packing a body draws one identifier after another, with
the generators of the tables of its sites, and it is these identifiers that stand at the sites
of the pack, one at each. -/
theorem draws_newPack (hcompile : compile schema root = .ok resource)
    (hplain : resource.shape.PlainBelow draw) {body pack : Entries Json} {before after : σ}
    (h : outcome (resource.newPack draw body) before = (.ok pack, after)) :
    ∃ entries, Draws draw before entries after ∧
      (∀ site ∈ resource.drawSites body, ∃ value, site.value? pack = some value) ∧
      ∀ ids value, (ids, value) ∈ entries ↔
        ∃ site ∈ resource.drawSites body, site.table.ids = ids ∧ site.value? pack = some value := by
  obtain ⟨hpacked, -⟩ := packed_newPack hcompile h
  have hcompleted : resource.shape.Packed draw resource.root.table.ids
      (body.completed .null none) pack before after := hpacked
  obtain ⟨entries, hdraws, hat⟩ := hcompleted.drawnAt Bool.noConfusion hplain
  refine ⟨entries, hdraws, fun site hsite => ?_, fun ids value => ⟨hat.sited (ids, value), ?_⟩⟩
  · obtain ⟨value, hvalue, -⟩ := hat.drawn site hsite
    exact ⟨value, hvalue⟩
  rintro ⟨site, hsite, rfl, hvalue⟩
  obtain ⟨found, hfound, hmem⟩ := hat.drawn site hsite
  obtain rfl := Option.some.inj (hfound.symm.trans hvalue)
  exact hmem

/-- A body that is accepted is accepted whatever identifiers are drawn. -/
theorem exists_newPack {τ : Type} {draw' : IdGenerator → StateM τ Json}
    (hplain : resource.shape.PlainBelow draw) (hplain' : resource.shape.PlainBelow draw')
    {body pack : Entries Json} {before after : σ}
    (h : outcome (resource.newPack draw body) before = (.ok pack, after)) (start : τ) :
    ∃ pack' after', outcome (resource.newPack draw' body) start = (.ok pack', after') := by
  obtain ⟨_, _, hchecked, h⟩ := outcome_bind_ok.1 h
  have hknown : resource.shape.checkKeys body = .ok () := (Prod.mk.inj hchecked).1
  obtain ⟨pack', after', h'⟩ := (Shape.Agree.refl _ body).exists_newPack hplain hplain' (.refl body)
    h start
  refine ⟨pack', after', ?_⟩
  rw [newPack, hknown, outcome_bind_of_ok (outcome_liftExcept (.ok ()) start), h']

end Resource

end Draw

end TableApi
