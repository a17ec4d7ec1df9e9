import TableApi.Proofs.Mounting
import TableApi.Resource.Pack

/-!
# How a pack comes about

`Shape.Packed` relates a payload to the pack that `newPack` makes of it, by what
is found in the pack under each column's keys, together with the states in which
identifiers are drawn. `Shape.packed_newPack` says that every new pack is so
related to its payload; nothing after that looks at `newPack` itself.

The keys of a shape tell apart whatever a pack holds, so the relation needs a
keyed shape, as every compiled resource has. One consequence is that the pack of
a new row can always be renamed back (`Resource.payloadOf_newPack`).
-/

namespace TableApi

/-- The display name under which an identifier is drawn for a row below
`column`: that of the referenced column, unless the payload has a value for it. -/
def Column.drawnUnder? (column : Column) (inner : Shape) (payload : Entries Json) :
    Option String :=
  match column.relation.bind fun target => inner.column? target.column with
  | none => none
  | some target =>
    if (target.displayName.valueIn? payload).isSome then none
    else some target.displayName.primary

section Draw

variable {σ : Type} (draw : IdGenerator → StateM σ Json)

/-- The payload of a row below `column` is completed: nothing is missing, or an
identifier is drawn for what is. -/
def Column.Completes (column : Column) (placed : Placed) (inner : Shape)
    (payload completed : Entries Json) (before after : σ) : Prop :=
  match column.drawnUnder? inner payload with
  | none => completed = payload ∧ after = before
  | some name => ∃ id, (draw placed.table.ids).run before = (id, after) ∧
      completed = payload.put name id

/-- A payload and a pack that may have been made of it, column by column, with the
states of the source of identifiers before and after. -/
inductive Shape.Packed :
    IdGenerator → Entries Json → Entries Json → Shape → σ → σ → Prop
  | nil {ids payload pack state} : Packed ids payload pack .nil state state
  | given {ids payload pack column rest value before after}
      (hvalue : column.displayName.valueIn? payload = some value)
      (hget : pack.get? column.qualifiedName = some value)
      (hrest : Packed ids payload pack rest before after) :
      Packed ids payload pack (.leaf column rest) before after
  | drawn {ids payload pack column rest value before middle after}
      (hvalue : column.displayName.valueIn? payload = none)
      (hdraw : (draw ids).run before = (value, middle))
      (hget : pack.get? column.qualifiedName = some value)
      (hrest : Packed ids payload pack rest middle after) :
      Packed ids payload pack (.leaf column rest) before after
  | link {ids payload pack column placed inner rest value before after}
      (hgiven : column.givenIn payload = .link value)
      (hget : pack.get? column.qualifiedName = some value)
      (hbranch : pack.get? column.branchKey = none)
      (hrest : Packed ids payload pack rest before after) :
      Packed ids payload pack (.branch column placed inner rest) before after
  | row {ids payload pack column placed inner rest nested completed below before middle later
        after}
      (hgiven : column.givenIn payload = .row nested)
      (hcompletes : column.Completes draw placed inner nested completed before middle)
      (hget : pack.get? column.qualifiedName = none)
      (hbranch : pack.get? column.branchKey = some (.obj below))
      (hlength : below.length = inner.columns.length)
      (hbelow : Packed placed.table.ids completed below inner middle later)
      (hrest : Packed ids payload pack rest later after) :
      Packed ids payload pack (.branch column placed inner rest) before after

variable {draw}

/-- Completing a payload never fails. -/
theorem Column.completes_withTarget {column : Column} {placed : Placed} {inner : Shape}
    {payload completed : Entries Json} {before after : σ}
    (h : outcome (column.withTarget draw placed inner payload) before = (.ok completed, after)) :
    column.Completes draw placed inner payload completed before after := by
  unfold withTarget at h
  unfold Completes drawnUnder?
  cases htarget : column.relation.bind fun target => inner.column? target.column with
  | none =>
    rw [htarget] at h
    cases h
    exact ⟨rfl, rfl⟩
  | some target =>
    rw [htarget] at h
    by_cases hgiven : (target.displayName.valueIn? payload).isSome
    · simp only [hgiven, if_true] at h ⊢
      cases h
      exact ⟨rfl, rfl⟩
    · simp only [hgiven] at h ⊢
      obtain ⟨id, middle, hdraw, hput⟩ := outcome_bind_ok.1 h
      cases hput
      cases hdraw
      exact ⟨_, rfl, rfl⟩

/-- The value of a column without a branch is what the payload says, or drawn. -/
theorem Column.outcome_newValue {column : Column} {ids : IdGenerator} {payload : Entries Json}
    {value : Json} {before after : σ}
    (h : outcome (column.newValue draw ids payload) before = (.ok value, after)) :
    (column.displayName.valueIn? payload = some value ∧ after = before) ∨
      (column.displayName.valueIn? payload = none ∧ (draw ids).run before = (value, after)) := by
  unfold newValue at h
  split at h
  · next found hfound =>
    cases h
    exact .inl ⟨hfound, rfl⟩
  · next hnone =>
    split at h
    · rw [outcome_lift] at h
      cases h
      exact .inr ⟨hnone, rfl⟩
    · cases h

/-- The pack of a table that begins with a plain column. -/
theorem Shape.newPack_leaf {ids : IdGenerator} {payload pack : Entries Json} {column : Column}
    {rest : Shape} {before after : σ}
    (h : outcome ((leaf column rest).newPack draw ids payload) before = (.ok pack, after)) :
    ∃ value middle others,
      outcome (column.newValue draw ids payload) before = (.ok value, middle) ∧
      outcome (rest.newPack draw ids payload) middle = (.ok others, after) ∧
      pack = (column.qualifiedName, value) :: others := by
  rw [newPack] at h
  obtain ⟨value, middle, hvalue, h⟩ := outcome_bind_ok.1 h
  obtain ⟨others, final, hothers, h⟩ := outcome_bind_ok.1 h
  cases h
  exact ⟨value, middle, others, hvalue, hothers, rfl⟩

/-- The pack of a table that begins with a column with a branch. -/
theorem Shape.newPack_branch {ids : IdGenerator} {payload pack : Entries Json}
    {column : Column} {placed : Placed} {inner rest : Shape} {before after : σ}
    (h : outcome ((branch column placed inner rest).newPack draw ids payload) before =
      (.ok pack, after)) :
    (∃ value others, column.givenIn payload = .link value ∧
      outcome (rest.newPack draw ids payload) before = (.ok others, after) ∧
      pack = (column.qualifiedName, value) :: others) ∨
    (∃ nested completed below others middle later, column.givenIn payload = .row nested ∧
      column.Completes draw placed inner nested completed before middle ∧
      inner.checkKeys completed = .ok () ∧
      outcome (inner.newPack draw placed.table.ids completed) middle = (.ok below, later) ∧
      outcome (rest.newPack draw ids payload) later = (.ok others, after) ∧
      pack = (column.branchKey, .obj below) :: others) := by
  rw [newPack] at h
  cases hgiven : column.givenIn payload with
  | link value =>
    rw [hgiven] at h
    obtain ⟨others, final, hothers, h⟩ := outcome_bind_ok.1 h
    cases h
    exact .inl ⟨value, others, rfl, hothers, rfl⟩
  | row nested =>
    rw [hgiven] at h
    obtain ⟨completed, middle, hcompleted, h⟩ := outcome_bind_ok.1 h
    obtain ⟨_, checked, hchecked, h⟩ := outcome_bind_ok.1 h
    obtain ⟨below, later, hbelow, h⟩ := outcome_bind_ok.1 h
    obtain ⟨others, final, hothers, h⟩ := outcome_bind_ok.1 h
    cases h
    obtain ⟨hknown, rfl⟩ := Prod.mk.inj hchecked
    exact .inr ⟨nested, completed, below, others, middle, later, rfl,
      Column.completes_withTarget hcompleted, hknown, hbelow, hothers, rfl⟩

/-- A new pack has one entry for each column, under a key of the shape. -/
theorem Shape.keys_newPack {shape : Shape} {ids : IdGenerator} {payload pack : Entries Json}
    {before after : σ}
    (h : outcome (shape.newPack draw ids payload) before = (.ok pack, after)) :
    pack.length = shape.columns.length ∧ ∀ key ∈ pack.keys, key ∈ shape.keys := by
  induction shape generalizing pack before after with
  | nil =>
    cases h
    simp [columns]
  | leaf column rest ih =>
    obtain ⟨value, middle, others, -, hothers, rfl⟩ := newPack_leaf h
    obtain ⟨hlength, hkeys⟩ := ih hothers
    refine ⟨by simp [columns, hlength], fun key hkey => ?_⟩
    rcases List.mem_cons.1 hkey with rfl | hkey
    · exact List.mem_cons_self
    · exact List.mem_cons_of_mem _ (hkeys key hkey)
  | branch column placed inner rest _ ih =>
    rcases newPack_branch h with ⟨value, others, -, hothers, rfl⟩ |
      ⟨_, _, below, others, _, _, -, -, -, -, hothers, rfl⟩
    · obtain ⟨hlength, hkeys⟩ := ih hothers
      refine ⟨by simp [columns, hlength], fun key hkey => ?_⟩
      rcases List.mem_cons.1 hkey with rfl | hkey
      · exact List.mem_cons_self
      · exact List.mem_cons_of_mem _ (List.mem_cons_of_mem _ (hkeys key hkey))
    · obtain ⟨hlength, hkeys⟩ := ih hothers
      refine ⟨by simp [columns, hlength], fun key hkey => ?_⟩
      rcases List.mem_cons.1 hkey with rfl | hkey
      · exact List.mem_cons_of_mem _ List.mem_cons_self
      · exact List.mem_cons_of_mem _ (List.mem_cons_of_mem _ (hkeys key hkey))

/-- A key beside a list of entries and one more. -/
theorem Shape.not_mem_keys_append {shape : Shape} {others : Entries Json} {key : String}
    {value : Json} (hkey : key ∉ shape.keys) (hothers : ∀ other ∈ shape.keys, other ∉ others.keys) :
    ∀ other ∈ shape.keys, other ∉ Entries.keys (others ++ [(key, value)]) := by
  intro other hother hmem
  simp only [Entries.keys, List.map_append, List.map_cons, List.map_nil, List.mem_append,
    List.mem_singleton] at hmem
  rcases hmem with hmem | rfl
  · exact hothers other hother hmem
  · exact hkey hother

/-- A key that is found neither before an entry, nor in it, nor behind it. -/
theorem Shape.not_mem_keys_middle {others tail : Entries Json} {key middle : String}
    {value : Json} (hothers : key ∉ others.keys) (hmiddle : key ≠ middle)
    (htail : key ∉ tail.keys) :
    key ∉ Entries.keys (others ++ (middle, value) :: tail) := by
  intro hmem
  simp only [Entries.keys, List.map_append, List.map_cons, List.mem_append, List.mem_cons] at hmem
  rcases hmem with hmem | hmem | hmem
  · exact hothers hmem
  · exact hmiddle hmem
  · exact htail hmem

/-- Every new pack is packed of its payload, also behind entries whose keys the
shape does not use. -/
theorem Shape.packed_newPack {shape : Shape} (hkeyed : shape.Keyed) {ids : IdGenerator}
    {payload pack : Entries Json} {before after : σ}
    (h : outcome (shape.newPack draw ids payload) before = (.ok pack, after))
    (others : Entries Json) (hothers : ∀ key ∈ shape.keys, key ∉ others.keys) :
    shape.Packed draw ids payload (others ++ pack) before after := by
  -- Along the columns, what is packed already moves over to the other entries.
  induction shape generalizing ids payload pack others before after with
  | nil =>
    cases h
    exact .nil
  | leaf column rest ih =>
    obtain ⟨value, middle, tail, hvalue, htail, rfl⟩ := newPack_leaf h
    have hfresh : column.qualifiedName ∉ others.keys := hothers _ List.mem_cons_self
    have hget : Entries.get? (others ++ (column.qualifiedName, value) :: tail)
        column.qualifiedName = some value := by
      rw [Entries.get?_append, (Entries.get?_eq_none_iff _ _).2 hfresh, Entries.get?_cons,
        if_pos rfl, Option.none_or]
    have hrest := ih hkeyed.2 htail (others ++ [(column.qualifiedName, value)])
      (not_mem_keys_append hkeyed.1 fun key hkey => hothers key (List.mem_cons_of_mem _ hkey))
    rw [List.append_assoc, List.singleton_append] at hrest
    rcases Column.outcome_newValue hvalue with ⟨hsome, rfl⟩ | ⟨hnone, hdraw⟩
    · exact .given hsome hget hrest
    · exact .drawn hnone hdraw hget hrest
  | branch column placed inner rest ihInner ihRest =>
    obtain ⟨hname, hbranch, hinner, hrestKeyed⟩ := hkeyed
    have hfreshName : column.qualifiedName ∉ others.keys := hothers _ List.mem_cons_self
    have hfreshBranch : column.branchKey ∉ others.keys :=
      hothers _ (List.mem_cons_of_mem _ List.mem_cons_self)
    have hfreshRest : ∀ key ∈ rest.keys, key ∉ others.keys := fun key hkey =>
      hothers key (List.mem_cons_of_mem _ (List.mem_cons_of_mem _ hkey))
    have hne : column.branchKey ≠ column.qualifiedName := branchKey_ne _
    rcases newPack_branch h with ⟨value, tail, hgiven, htail, rfl⟩ |
      ⟨nested, completed, below, tail, middle, later, hgiven, hcompletes, -, hbelow, htail, rfl⟩
    · have hrest := ihRest hrestKeyed htail (others ++ [(column.qualifiedName, value)])
        (not_mem_keys_append hname hfreshRest)
      rw [List.append_assoc, List.singleton_append] at hrest
      refine .link hgiven ?_ ?_ hrest
      · rw [Entries.get?_append, (Entries.get?_eq_none_iff _ _).2 hfreshName, Entries.get?_cons,
          if_pos rfl, Option.none_or]
      · rw [Entries.get?_eq_none_iff]
        exact not_mem_keys_middle hfreshBranch hne fun hmem =>
          hbranch ((keys_newPack htail).2 _ hmem)
    · have hrest := ihRest hrestKeyed htail (others ++ [(column.branchKey, .obj below)])
        (not_mem_keys_append hbranch hfreshRest)
      rw [List.append_assoc, List.singleton_append] at hrest
      have hpacked := ihInner hinner hbelow [] fun _ _ => List.not_mem_nil
      refine .row hgiven hcompletes ?_ ?_ (keys_newPack hbelow).1 hpacked hrest
      · rw [Entries.get?_eq_none_iff]
        exact not_mem_keys_middle hfreshName hne.symm fun hmem =>
          hname ((keys_newPack htail).2 _ hmem)
      · rw [Entries.get?_append, (Entries.get?_eq_none_iff _ _).2 hfreshBranch,
          Entries.get?_cons, if_pos rfl, Option.none_or]

/-- A packed row can be renamed back, with a pair for each column. -/
theorem Shape.Packed.payloadPairs {shape : Shape} {ids : IdGenerator}
    {payload pack : Entries Json} {before after : σ}
    (h : shape.Packed draw ids payload pack before after) :
    ∃ pairs, shape.payloadPairs pack = .ok pairs ∧ pairs.length = shape.columns.length := by
  induction h with
  | nil => exact ⟨[], rfl, rfl⟩
  | given _ hget _ ih | drawn _ _ hget _ ih =>
    obtain ⟨pairs, hpairs, hlength⟩ := ih
    exact ⟨_ :: pairs, by simp only [Shape.payloadPairs, hpairs, hget]; rfl,
      by simp [columns, hlength]⟩
  | link _ hget hbranch _ ih =>
    obtain ⟨pairs, hpairs, hlength⟩ := ih
    exact ⟨_ :: pairs, by simp only [Shape.payloadPairs, hpairs, hget, hbranch]; rfl,
      by simp [columns, hlength]⟩
  | @row _ _ pack column _ inner rest _ _ below _ _ _ _ _ _ hget hbranch hbelow _ _ ihInner
      ihRest =>
    obtain ⟨inside, hinside, hwidth⟩ := ihInner
    obtain ⟨pairs, hpairs, hlength⟩ := ihRest
    have hsame : inside.length = below.length := hwidth.trans hbelow.symm
    refine ⟨(column.displayName.primary, .obj (Entries.ofList inside)) :: pairs, ?_,
      by simp [columns, hlength]⟩
    rw [Shape.payloadPairs, hget, hbranch]
    show (inner.payloadPairs below >>= fun below' => _) = _
    rw [hinside]
    show (if inside.length ≠ below.length then _ else rest.payloadPairs pack >>= fun others => _) = _
    rw [if_neg (not_not.2 hsame), hpairs]
    rfl

namespace Resource

variable {schema : Schema} {root : Table} {resource : Resource}

/-- The pack of a new row is packed of its payload. -/
theorem packed_newPack (hcompile : compile schema root = .ok resource)
    {payload pack : Entries Json} {before after : σ}
    (h : outcome (resource.newPack draw payload) before = (.ok pack, after)) :
    resource.shape.Packed draw resource.root.table.ids payload pack before after ∧
      pack.length = resource.shape.columns.length := by
  obtain ⟨_, checked, hchecked, h⟩ := outcome_bind_ok.1 h
  obtain rfl : before = checked := (Prod.mk.inj hchecked).2
  exact ⟨Shape.packed_newPack (keyed hcompile) h [] fun _ _ => List.not_mem_nil,
    (Shape.keys_newPack h).1⟩

/-- The pack of a new row can always be renamed back. -/
theorem payloadOf_newPack (hcompile : compile schema root = .ok resource)
    {payload pack : Entries Json} {before after : σ}
    (h : outcome (resource.newPack draw payload) before = (.ok pack, after)) :
    ∃ pairs, resource.payloadOf pack = .ok (Entries.ofList pairs) ∧
      resource.shape.payloadPairs pack = .ok pairs := by
  obtain ⟨hpacked, hlength⟩ := packed_newPack hcompile h
  obtain ⟨pairs, hpairs, hwidth⟩ := hpacked.payloadPairs
  refine ⟨pairs, ?_, hpairs⟩
  have hsame : pairs.length = pack.length := hwidth.trans hlength.symm
  rw [payloadOf, hpairs]
  show (if pairs.length ≠ pack.length then _ else _) = _
  rw [if_neg (not_not.2 hsame)]

end Resource

end Draw

end TableApi
