import TableApi.Proofs.Packing.Required

/-!
# Names for which an identifier stands

An identifier that is written into the payload of a row below is found there by the
referenced column, and by every other column of that row that shares its name. If such a
column is required, its name is not missed. If it leads to further tables, it reads the
identifier as a link, and nothing of those tables is missed.

What packing misses is always lacking (`Shape.missing_completed_sublist`), and conversely
where no identifier stands for something that is needed (`Shape.missing_completed`). Where
columns share no names, that condition is read off one payload: `Shape.full` has everything
but the referenced columns. Packing misses nothing of it (`Shape.Full.missing`), and it
supplies all names only under the condition (`Shape.Full.excuses`).
-/

namespace TableApi

/-! ## What an identifier excuses -/

/-- Whether a new row needs something at a node: the column itself, or a column of the tables
that it opens. -/
def Node.demands : Node → Bool
  | (column, none) => !column.isPrimary
  | (_, some (_, below)) => below.leaves.any fun column => !column.isPrimary

/-- The name under which an identifier is written into the payload of a row below, if it is
written there at all. -/
def Column.targetName? (column : Column) (inner : Shape) : Option String :=
  (column.relation.bind fun target => inner.column? target.column).map fun target =>
    target.displayName.primary

namespace Shape

/-- Whether a new row needs something at a node that is found by a name. -/
def demandsAt (name? : Option String) (shape : Shape) : Bool :=
  shape.nodes.any fun node => name?.any node.1.displayName.matchesText && Node.demands node

/-- Whether an identifier that is written into the payload of a row below can stand for
something that the row needs. -/
def excuses : Shape → Bool
  | nil => false
  | leaf _ rest => rest.excuses
  | branch column _ inner rest =>
    inner.demandsAt (column.targetName? inner) || inner.excuses || rest.excuses

end Shape

/-- An identifier is drawn under the name of the referenced column. -/
theorem Column.drawnUnder?_eq (column : Column) (inner : Shape) (payload : Entries Json) :
    column.drawnUnder? inner payload = none ∨
      column.drawnUnder? inner payload = column.targetName? inner := by
  unfold drawnUnder? targetName?
  cases column.relation.bind fun target => inner.column? target.column with
  | none => exact .inl rfl
  | some target =>
    by_cases hgiven : (target.displayName.valueIn? payload).isSome = true
    · exact .inl (if_pos hgiven)
    · exact .inr (if_neg hgiven)

/-- A name takes what is written under one of its texts only. -/
theorem Name.matchesText_of_takes {name : Name} {payload : Entries Json} {drawn : String}
    (h : name.takes payload drawn = true) : name.matchesText drawn = true := by
  rw [takes, beq_iff_eq] at h
  exact (name.matchesText_iff drawn).2 (List.mem_cons.1 (List.mem_of_find?_eq_some h))

theorem Name.any_matchesText_of_takesDrawn {name : Name} {payload : Entries Json}
    {drawn : Option String} (h : name.takesDrawn payload drawn = true) :
    drawn.any name.matchesText = true := by
  cases drawn with
  | none => cases h
  | some text => exact Name.matchesText_of_takes h

/-- What is not given and yet not lacking belongs to a primary key. -/
theorem Column.isPrimary_of_not_lackedBy {column : Column} {payload : Entries Json}
    (hnone : column.displayName.valueIn? payload = none) (h : column.lackedBy payload = false) :
    column.isPrimary = true := by
  simpa [lackedBy, hnone] using h

/-- An identifier is taken by a name that finds it and finds nothing else. -/
theorem Name.takesDrawn_of_none {name : Name} {payload : Entries Json} {drawn : Option String}
    (hdrawn : drawn.any name.matchesText = true) (hnone : name.valueIn? payload = none) :
    name.takesDrawn payload drawn = true := by
  cases drawn with
  | none => cases hdrawn
  | some text =>
    have htext : text ∈ name.primary :: name.aliases :=
      List.mem_cons.2 ((name.matchesText_iff text).1 hdrawn)
    rw [valueIn?_eq, List.findSome?_eq_none_iff] at hnone
    rw [takesDrawn, Option.any_some, takes, beq_iff_eq]
    cases hfound : (name.primary :: name.aliases).find?
        fun own => own == text || payload.has own with
    | none =>
      have hmissed := List.find?_eq_none.1 hfound text htext
      simp at hmissed
    | some own =>
      have hown := List.find?_some hfound
      have habsent := hnone own (List.mem_of_find?_eq_some hfound)
      simpa [Entries.has, habsent] using hown

/-- A column lacks what it lacked before, unless it takes the identifier. -/
theorem Column.lackedBy_completed (column : Column) (payload : Entries Json)
    (drawn : Option String) :
    column.lackedBy (payload.completed .null drawn) =
      (!column.displayName.takesDrawn payload drawn && column.lackedBy payload) := by
  unfold lackedBy
  rw [Name.valueIn?_completed]
  cases column.displayName.takesDrawn payload drawn with
  | true => exact Bool.and_false _
  | false => rfl

/-- A column with a branch reads the identifier as a link, if it takes it. -/
theorem Column.givenIn_completed (column : Column) (payload : Entries Json)
    (drawn : Option String) :
    column.givenIn (payload.completed .null drawn) =
      if column.displayName.takesDrawn payload drawn then .link .null
      else column.givenIn payload := by
  have hvalue := column.displayName.valueIn?_completed payload .null drawn
  split
  · next htakes =>
    rw [if_pos htakes] at hvalue
    exact Column.givenIn_of_plain hvalue rfl
  · next htakes =>
    rw [if_neg htakes] at hvalue
    exact Column.givenIn_congr hvalue

namespace Shape

variable {shape : Shape} {payload : Entries Json} {drawn : Option String}

theorem demandsAt_none (shape : Shape) : shape.demandsAt none = false :=
  List.any_eq_false.2 fun _ _ => Bool.false_ne_true

theorem demandsAt_leaf {column : Column} {rest : Shape} :
    (leaf column rest).demandsAt drawn = false ↔
      (drawn.any column.displayName.matchesText = true → column.isPrimary = true) ∧
        rest.demandsAt drawn = false := by
  rw [demandsAt, nodes, List.any_cons, Bool.or_eq_false_iff]
  cases drawn.any column.displayName.matchesText <;> simp [Node.demands, demandsAt]

theorem demandsAt_branch {column : Column} {placed : Placed} {inner rest : Shape} :
    (branch column placed inner rest).demandsAt drawn = false ↔
      (drawn.any column.displayName.matchesText = true →
        ∀ below ∈ inner.leaves, below.isPrimary = true) ∧ rest.demandsAt drawn = false := by
  rw [demandsAt, nodes, List.any_cons, Bool.or_eq_false_iff]
  cases drawn.any column.displayName.matchesText <;> simp [Node.demands, demandsAt]

/-! ## Tables that need nothing -/

/-- Where all columns of a row are keys, nothing is lacking. -/
theorem lacking_of_keys {complete : Column → Shape → Entries Json → Entries Json}
    (h : ∀ column ∈ shape.leaves, column.isPrimary = true) :
    shape.lacking complete payload = [] := by
  induction shape generalizing payload with
  | nil => rfl
  | leaf column rest ih =>
    obtain ⟨hcolumn, hrest⟩ := List.forall_mem_cons.1 h
    simp [lacking, Column.lackedBy, hcolumn, ih hrest]
  | branch column placed inner rest ihInner ihRest =>
    obtain ⟨hinner, hrest⟩ := List.forall_mem_append.1 h
    rw [lacking, ihRest hrest, List.append_nil]
    cases column.givenIn payload with
    | link value => rfl
    | row nested => exact ihInner hinner

/-- Where nothing is given, every column of a row that is no key is lacking. -/
theorem keys_of_unsupplied (h : shape.unsupplied [] = []) :
    ∀ column ∈ shape.leaves, column.isPrimary = true := by
  unfold unsupplied at h
  induction shape with
  | nil => exact fun _ hcolumn => (List.not_mem_nil hcolumn).elim
  | leaf column rest ih =>
    obtain ⟨hown, hrest⟩ := List.append_eq_nil_iff.1 h
    have hlacked : column.lackedBy [] = false := by simpa using hown
    have hprimary := Column.isPrimary_of_not_lackedBy column.displayName.valueIn?_nil hlacked
    exact List.forall_mem_cons.2 ⟨hprimary, ih hrest⟩
  | branch column placed inner rest ihInner ihRest =>
    obtain ⟨hinner, hrest⟩ := List.append_eq_nil_iff.1 h
    rw [Column.givenIn_of_none column.displayName.valueIn?_nil] at hinner
    exact List.forall_mem_append.2 ⟨ihInner hinner, ihRest hrest⟩

/-- Where all columns of a row are keys, nothing is needed at any node. -/
theorem demandsAt_of_keys (h : ∀ column ∈ shape.leaves, column.isPrimary = true) :
    shape.demandsAt drawn = false := by
  induction shape with
  | nil => rfl
  | leaf column rest ih =>
    obtain ⟨hcolumn, hrest⟩ := List.forall_mem_cons.1 h
    exact demandsAt_leaf.2 ⟨fun _ => hcolumn, ih hrest⟩
  | branch column placed inner rest _ ih =>
    obtain ⟨hinner, hrest⟩ := List.forall_mem_append.1 h
    exact demandsAt_branch.2 ⟨fun _ => hinner, ih hrest⟩

/-- Where all columns of a row are keys, nothing can be excused. -/
theorem excuses_of_keys (h : ∀ column ∈ shape.leaves, column.isPrimary = true) :
    shape.excuses = false := by
  induction shape with
  | nil => rfl
  | leaf column rest ih => exact ih (List.forall_mem_cons.1 h).2
  | branch column placed inner rest ihInner ihRest =>
    obtain ⟨hinner, hrest⟩ := List.forall_mem_append.1 h
    rw [excuses, demandsAt_of_keys hinner, ihInner hinner, ihRest hrest]
    rfl

/-! ## What packing misses is lacking -/

/-- Packing misses only what the payload does not supply. -/
theorem missing_completed_sublist :
    (shape.missing (payload.completed .null drawn)).Sublist (shape.unsupplied payload) := by
  unfold missing unsupplied
  induction shape generalizing payload drawn with
  | nil => exact List.Sublist.slnil
  | leaf column rest ih =>
    refine List.Sublist.append ?_ ih
    rw [column.lackedBy_completed]
    cases column.displayName.takesDrawn payload drawn with
    | true => exact List.nil_sublist _
    | false => exact List.Sublist.refl _
  | branch column placed inner rest ihInner ihRest =>
    refine List.Sublist.append ?_ ihRest
    rw [column.givenIn_completed]
    cases column.displayName.takesDrawn payload drawn with
    | true => exact List.nil_sublist _
    | false =>
      cases hgiven : column.givenIn payload with
      | link value => exact List.nil_sublist _
      | row nested => exact ihInner

/-- Where no identifier stands for something that is needed, packing misses all that the
payload does not supply. -/
theorem missing_completed (hdrawn : shape.demandsAt drawn = false)
    (hexcuses : shape.excuses = false) :
    shape.missing (payload.completed .null drawn) = shape.unsupplied payload := by
  unfold missing unsupplied
  induction shape generalizing payload drawn with
  | nil => rfl
  | leaf column rest ih =>
    obtain ⟨hown, hrest⟩ := demandsAt_leaf.1 hdrawn
    rw [lacking, lacking, ih hrest hexcuses, column.lackedBy_completed]
    cases htakes : column.displayName.takesDrawn payload drawn with
    | true =>
      have hprimary := hown (Name.any_matchesText_of_takesDrawn htakes)
      simp [Column.lackedBy, hprimary]
    | false => rfl
  | branch column placed inner rest ihInner ihRest =>
    obtain ⟨hown, hrest⟩ := demandsAt_branch.1 hdrawn
    rw [excuses, Bool.or_eq_false_iff, Bool.or_eq_false_iff] at hexcuses
    obtain ⟨⟨htarget, hinner⟩, hlater⟩ := hexcuses
    rw [lacking, lacking, ihRest hrest hlater, column.givenIn_completed]
    cases htakes : column.displayName.takesDrawn payload drawn with
    | true =>
      -- The identifier is read as a link, and nothing is needed below.
      have hkeys := hown (Name.any_matchesText_of_takesDrawn htakes)
      cases column.givenIn payload with
      | link value => rfl
      | row nested => simp [lacking_of_keys hkeys]
    | false =>
      cases column.givenIn payload with
      | link value => rfl
      | row nested =>
        have hfree : inner.demandsAt (column.drawnUnder? inner nested) = false := by
          rcases column.drawnUnder?_eq inner nested with hnone | htargetName
          · rw [hnone]
            exact inner.demandsAt_none
          · rw [htargetName]
            exact htarget
        exact congrArg (· ++ _) (ihInner hfree hinner)

/-! ## A payload that has everything but what identifiers stand for -/

/-- A payload with a value for every column, except for those that a name finds, and in each
row below except for the referenced column. -/
def full (skip : Option String) : Shape → Entries Json
  | nil => []
  | leaf column rest =>
    (if skip.any column.displayName.matchesText then []
      else [(column.displayName.primary, .null)]) ++ rest.full skip
  | branch column _ inner rest =>
    (if skip.any column.displayName.matchesText then []
      else [(column.displayName.primary, .obj (inner.full (column.targetName? inner)))]) ++
    rest.full skip

/-- What the full payload has at a node. -/
def fullAt : Node → Json
  | (_, none) => .null
  | (column, some (_, inner)) => .obj (inner.full (column.targetName? inner))

/-- The columns of a table read the full payload. -/
def ReadsFull (skip : Option String) (payload : Entries Json) (shape : Shape) : Prop :=
  ∀ node ∈ shape.nodes, node.1.displayName.valueIn? payload =
    if skip.any node.1.displayName.matchesText then none else some (fullAt node)

/-- The full payload has its values node by node. -/
theorem full_eq (skip : Option String) (shape : Shape) :
    shape.full skip = (shape.nodes.filter fun node =>
      !skip.any node.1.displayName.matchesText).map fun node =>
        (node.1.displayName.primary, fullAt node) := by
  induction shape with
  | nil => rfl
  | leaf column rest ih =>
    rw [full, nodes, List.filter_cons, ih]
    cases skip.any column.displayName.matchesText <;> rfl
  | branch column placed inner rest _ ih =>
    rw [full, nodes, List.filter_cons, ih]
    cases skip.any column.displayName.matchesText <;> rfl

theorem keys_full_sublist (skip : Option String) (shape : Shape) :
    (shape.full skip).keys.Sublist shape.names := by
  rw [full_eq, names, columns_eq_nodes, Entries.keys, List.map_map, List.map_map]
  exact List.filter_sublist.map _

/-- Where no text names two columns, each column reads its own value. -/
theorem readsFull_full (hown : shape.UnsharedHere) (skip : Option String) :
    shape.ReadsFull skip (shape.full skip) := by
  intro node hnode
  have hkeys := keys_full_sublist skip shape
  rw [valueIn?_of_names hown hkeys.subset (mem_columns_of_node hnode)]
  split
  · next hskip =>
    rw [Entries.get?_eq_none_iff, full_eq]
    intro hkey
    obtain ⟨entry, hentry, hprimary⟩ := List.mem_map.1 hkey
    obtain ⟨other, hother, rfl⟩ := List.mem_map.1 hentry
    obtain ⟨hother, hkept⟩ := List.mem_filter.1 hother
    have hmatches : other.1.displayName.matchesText node.1.displayName.primary = true :=
      hprimary ▸ other.1.displayName.matchesText_primary
    have hsame : other.1 = node.1 :=
      hown.eq_of_matches (mem_columns_of_node hother) (mem_columns_of_node hnode) hmatches
        node.1.displayName.matchesText_primary
    rw [hsame, hskip] at hkept
    cases hkept
  · next hskip =>
    refine Entries.get?_of_mem (hown.nodup_names.sublist hkeys) ?_
    rw [full_eq]
    exact List.mem_map_of_mem (List.mem_filter.2 ⟨hnode, by simpa using hskip⟩)

/-- The full payload of a row below has everything but the referenced column, which takes the
identifier. -/
theorem drawnUnder?_full {column : Column} {inner : Shape} (hown : inner.UnsharedHere) :
    column.drawnUnder? inner (inner.full (column.targetName? inner)) =
      column.targetName? inner := by
  unfold Column.drawnUnder?
  cases htarget : column.relation.bind fun target => inner.column? target.column with
  | none => simp [Column.targetName?, htarget]
  | some target =>
    have hname : column.targetName? inner = some target.displayName.primary := by
      simp [Column.targetName?, htarget]
    obtain ⟨ref, -, hfound⟩ := Option.bind_eq_some_iff.1 htarget
    have hcolumn : target ∈ inner.columns := List.mem_of_find?_eq_some hfound
    rw [columns_eq_nodes] at hcolumn
    obtain ⟨node, hnode, rfl⟩ := List.mem_map.1 hcolumn
    have hnone := readsFull_full hown (column.targetName? inner) node hnode
    rw [hname, Option.any_some, Name.matchesText_primary, if_pos rfl] at hnone
    simp [hname, hnone]

/-- A payload gives something for every column but those that a name finds, and in each row
below for every column but the referenced one. -/
inductive Full : Option String → Entries Json → Shape → Prop
  | nil {skip payload} : Full skip payload nil
  | value {skip payload column rest} (hskip : skip.any column.displayName.matchesText = false)
      (hvalue : column.displayName.valueIn? payload = some .null)
      (hrest : Full skip payload rest) : Full skip payload (leaf column rest)
  | noValue {skip payload column rest} (hskip : skip.any column.displayName.matchesText = true)
      (hnone : column.displayName.valueIn? payload = none) (hrest : Full skip payload rest) :
      Full skip payload (leaf column rest)
  | row {skip payload column placed inner rest nested}
      (hskip : skip.any column.displayName.matchesText = false)
      (hgiven : column.givenIn payload = .row nested) (hknows : inner.Knows nested)
      (hdrawn : column.drawnUnder? inner nested = column.targetName? inner)
      (hinner : Full (column.targetName? inner) nested inner) (hrest : Full skip payload rest) :
      Full skip payload (branch column placed inner rest)
  | noRow {skip payload column placed inner rest}
      (hskip : skip.any column.displayName.matchesText = true)
      (hnone : column.displayName.valueIn? payload = none) (hrest : Full skip payload rest) :
      Full skip payload (branch column placed inner rest)

/-- What reads as the full payload gives everything that it gives. -/
theorem ReadsFull.full {skip : Option String} (h : shape.ReadsFull skip payload)
    (hbelow : ∀ place ∈ shape.places, place.2.UnsharedHere) : shape.Full skip payload := by
  induction shape generalizing payload skip with
  | nil => exact .nil
  | leaf column rest ih =>
    obtain ⟨hvalue, hrest⟩ := List.forall_mem_cons.1 h
    cases hskip : skip.any column.displayName.matchesText with
    | true => exact .noValue hskip (hvalue.trans (if_pos hskip)) (ih hrest hbelow)
    | false => exact .value hskip (hvalue.trans (by simp [hskip, fullAt])) (ih hrest hbelow)
  | branch column placed inner rest ihInner ihRest =>
    obtain ⟨hvalue, hrest⟩ := List.forall_mem_cons.1 h
    obtain ⟨hinner, hlater⟩ := List.forall_mem_append.1 hbelow
    obtain ⟨hown, hinner⟩ := List.forall_mem_cons.1 hinner
    cases hskip : skip.any column.displayName.matchesText with
    | true => exact .noRow hskip (hvalue.trans (if_pos hskip)) (ihRest hrest hlater)
    | false =>
      have hvalue : column.displayName.valueIn? payload =
          some (.obj (inner.full (column.targetName? inner))) :=
        hvalue.trans (by simp [hskip, fullAt])
      exact .row hskip (Column.givenIn_of_object hvalue)
        (knows_of_names (keys_full_sublist _ inner).subset) (drawnUnder?_full hown)
        (ihInner (readsFull_full hown _) hinner) (ihRest hrest hlater)

/-- Where nothing is said, no key is unknown and no row is linked. -/
theorem unfolds_nil (shape : Shape) : shape.KnowsBelow [] ∧ shape.Unlinked [] := by
  induction shape with
  | nil => exact ⟨trivial, trivial⟩
  | leaf _ _ ih => exact ih
  | branch column placed inner rest ihInner ihRest =>
    rw [KnowsBelow, Unlinked, Column.givenIn_of_none column.displayName.valueIn?_nil]
    exact ⟨⟨⟨knows_of_names (List.nil_subset _), ihInner.1⟩, ihRest.1⟩, ihInner.2, ihRest.2⟩

namespace Full

variable {skip : Option String}

/-- All keys below are known and no row is linked. -/
theorem unfolds (h : shape.Full skip payload) :
    shape.KnowsBelow payload ∧ shape.Unlinked payload := by
  induction h with
  | nil => exact ⟨trivial, trivial⟩
  | value _ _ _ ih => exact ih
  | noValue _ _ _ ih => exact ih
  | row _ hgiven hknows _ _ _ ihInner ihRest =>
    rw [KnowsBelow, Unlinked, hgiven]
    exact ⟨⟨⟨hknows, ihInner.1⟩, ihRest.1⟩, ihInner.2, ihRest.2⟩
  | @noRow _ _ _ _ inner _ _ hnone _ ih =>
    obtain ⟨hknows, hunlinked⟩ := inner.unfolds_nil
    rw [KnowsBelow, Unlinked, Column.givenIn_of_none hnone]
    exact ⟨⟨⟨knows_of_names (List.nil_subset _), hknows⟩, ih.1⟩, hunlinked, ih.2⟩

/-- Packing misses nothing. -/
theorem missing (h : shape.Full skip payload) :
    shape.missing (payload.completed .null skip) = [] := by
  unfold Shape.missing
  induction h with
  | nil => rfl
  | @value skip payload column _ hskip hvalue _ ih =>
    rw [lacking, ih, column.lackedBy_completed, Column.lackedBy, hvalue]
    simp
  | @noValue skip payload column _ hskip hnone _ ih =>
    rw [lacking, ih, column.lackedBy_completed, Name.takesDrawn_of_none hskip hnone]
    rfl
  | @row skip payload column _ inner _ nested hskip hgiven _ hdrawn _ _ ihInner ihRest =>
    have htakes : column.displayName.takesDrawn payload skip = false := by
      rw [← Bool.not_eq_true]
      intro htakes
      rw [Name.any_matchesText_of_takesDrawn htakes] at hskip
      cases hskip
    rw [lacking, ihRest, column.givenIn_completed, htakes, if_neg Bool.false_ne_true, hgiven]
    -- The object below lacks the referenced column alone, and there the identifier is written.
    simpa [hdrawn] using ihInner
  | @noRow skip payload column _ _ _ hskip hnone _ ih =>
    rw [lacking, ih, column.givenIn_completed, Name.takesDrawn_of_none hskip hnone, if_pos rfl]
    rfl

/-- If all names are supplied, no identifier stands for something that is needed. -/
theorem excuses (h : shape.Full skip payload) (hsupplied : shape.unsupplied payload = []) :
    shape.demandsAt skip = false ∧ shape.excuses = false := by
  unfold unsupplied at hsupplied
  induction h with
  | nil => exact ⟨rfl, rfl⟩
  | value hskip _ _ ih =>
    obtain ⟨hdemands, hexcuses⟩ := ih (List.append_eq_nil_iff.1 hsupplied).2
    refine ⟨demandsAt_leaf.2 ⟨fun hmatches => ?_, hdemands⟩, hexcuses⟩
    exact absurd (hskip.symm.trans hmatches) Bool.false_ne_true
  | @noValue _ payload column _ _ hnone _ ih =>
    obtain ⟨hown, hrest⟩ := List.append_eq_nil_iff.1 hsupplied
    obtain ⟨hdemands, hexcuses⟩ := ih hrest
    have hlacked : column.lackedBy payload = false := by simpa using hown
    have hprimary := Column.isPrimary_of_not_lackedBy hnone hlacked
    exact ⟨demandsAt_leaf.2 ⟨fun _ => hprimary, hdemands⟩, hexcuses⟩
  | row hskip hgiven _ _ _ _ ihInner ihRest =>
    obtain ⟨hinner, hrest⟩ := List.append_eq_nil_iff.1 hsupplied
    rw [hgiven] at hinner
    obtain ⟨htarget, hbelow⟩ := ihInner hinner
    obtain ⟨hdemands, hlater⟩ := ihRest hrest
    refine ⟨demandsAt_branch.2 ⟨fun hmatches => ?_, hdemands⟩, ?_⟩
    · exact absurd (hskip.symm.trans hmatches) Bool.false_ne_true
    · rw [Shape.excuses, htarget, hbelow, hlater]
      rfl
  | noRow _ hnone _ ih =>
    obtain ⟨hinner, hrest⟩ := List.append_eq_nil_iff.1 hsupplied
    rw [Column.givenIn_of_none hnone] at hinner
    -- Nothing is given for the row below, so all its columns are keys.
    have hkeys := keys_of_unsupplied hinner
    obtain ⟨hdemands, hlater⟩ := ih hrest
    refine ⟨demandsAt_branch.2 ⟨fun _ => hkeys, hdemands⟩, ?_⟩
    rw [Shape.excuses, demandsAt_of_keys hkeys, excuses_of_keys hkeys, hlater]
    rfl

end Full

end Shape

end TableApi
