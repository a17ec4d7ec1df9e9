import TableApi.Proofs.Renaming.Replies
import Mathlib.Data.List.Perm.Basic

/-!
# Renaming a payload that uses aliases

A client may leave columns out, give them in any order and under any of their names. Where
no text names two columns of one table (`Shape.Unshared`) and no object of the payload
names a column twice (`Shape.namesOnce`), renaming such a payload to a pack and back
changes nothing but spelling and order: the result restates the payload
(`Shape.Restates`), entry by entry, under primary display names. It is renamed to the same
pack again, so primary names are a normal form: `rename_round_trip`.

The payload is taken apart along the columns. The entries that name the first column are
at most one, and the others name later columns and are all that these read
(`Name.entriesIn_othersIn`).
-/

namespace TableApi

/-! ## Names that are not shared -/

/-- No text names two columns of the table. -/
def Shape.UnsharedHere (shape : Shape) : Prop :=
  shape.columns.Pairwise fun column other =>
    column.displayName.overlaps other.displayName = false

instance (shape : Shape) : Decidable shape.UnsharedHere :=
  inferInstanceAs (Decidable (List.Pairwise _ _))

/-- No text names two columns of one table, neither in the table nor below it. -/
structure Shape.Unshared (shape : Shape) : Prop where
  own : shape.UnsharedHere
  below : ∀ place ∈ shape.places, place.2.UnsharedHere

instance (shape : Shape) : Decidable shape.Unshared :=
  decidable_of_iff (shape.UnsharedHere ∧ ∀ place ∈ shape.places, place.2.UnsharedHere)
    ⟨fun h => ⟨h.1, h.2⟩, fun h => ⟨h.own, h.below⟩⟩

namespace Shape.UnsharedHere

variable {shape rest inner : Shape} {column : Column} {placed : Placed}

theorem of_leaf (h : (Shape.leaf column rest).UnsharedHere) :
    (∀ other ∈ rest.columns, column.displayName.overlaps other.displayName = false) ∧
      rest.UnsharedHere :=
  List.pairwise_cons.1 h

theorem of_branch (h : (Shape.branch column placed inner rest).UnsharedHere) :
    (∀ other ∈ rest.columns, column.displayName.overlaps other.displayName = false) ∧
      rest.UnsharedHere :=
  List.pairwise_cons.1 h

/-- A text names at most one column. -/
theorem eq_of_matches (h : shape.UnsharedHere) {first second : Column}
    (hfirst : first ∈ shape.columns) (hsecond : second ∈ shape.columns) {text : String}
    (htext : first.displayName.matchesText text = true)
    (htext' : second.displayName.matchesText text = true) : first = second :=
  Name.eq_of_matches h hfirst hsecond htext htext'

theorem nodup_names (h : shape.UnsharedHere) : shape.names.Nodup := by
  rw [names, List.nodup_iff_pairwise_ne, List.pairwise_map]
  refine List.Pairwise.imp ?_ h
  intro column other hapart hsame
  have hmatches := Name.not_matchesText_of_apart hapart column.displayName.matchesText_primary
  rw [hsame, Name.matchesText_primary] at hmatches
  cases hmatches

end Shape.UnsharedHere

theorem Shape.Unshared.namesApart {shape : Shape} (h : shape.Unshared) : shape.NamesApart :=
  ⟨h.own.nodup_names, fun place hplace => (h.below place hplace).nodup_names⟩

/-! ## The entries that name a column -/

/-- The entries of a payload under one of a name's texts. -/
def Name.entriesIn (name : Name) (payload : Entries Json) : Entries Json :=
  payload.filter fun entry => name.matchesText entry.1

/-- The entries of a payload under other texts. -/
def Name.othersIn (name : Name) (payload : Entries Json) : Entries Json :=
  payload.filter fun entry => !name.matchesText entry.1

/-- No object of a payload names a column twice: not the payload, and no object that it
gives for a column with a branch. -/
def Shape.namesOnce : Shape → Entries Json → Bool
  | nil, _ => true
  | leaf column rest, payload =>
    decide ((column.displayName.entriesIn payload).length ≤ 1) && rest.namesOnce payload
  | branch column _ inner rest, payload =>
    decide ((column.displayName.entriesIn payload).length ≤ 1) &&
    (match column.givenIn payload with
      | .link _ => true
      | .row nested => inner.namesOnce nested) &&
    rest.namesOnce payload

/-- Entries of other keys do not change what is found. -/
theorem Entries.get?_filter {α : Type} {entries : Entries α} {keep : String → Bool}
    {key : String} (hkey : keep key = true) :
    Entries.get? (entries.filter fun entry => keep entry.1) key = entries.get? key := by
  induction entries with
  | nil => rfl
  | cons entry rest ih =>
    obtain ⟨own, value⟩ := entry
    rw [List.filter_cons]
    by_cases hown : own = key
    · rw [if_pos (by rwa [hown]), get?_cons, get?_cons, if_pos hown, if_pos hown]
    · rw [get?_cons, if_neg hown, ← ih]
      split
      · rw [get?_cons, if_neg hown]
      · rfl

namespace Name

variable {name other : Name} {payload : Entries Json}

/-- A name reads the entries under its texts and no others. -/
theorem valueIn?_entriesIn (name : Name) (payload : Entries Json) :
    name.valueIn? (name.entriesIn payload) = name.valueIn? payload := by
  have hread : ∀ text ∈ name.primary :: name.aliases,
      Entries.get? (name.entriesIn payload) text = payload.get? text := by
    intro text htext
    exact Entries.get?_filter ((name.matchesText_iff text).2 (List.mem_cons.1 htext))
  rw [valueIn?_eq, valueIn?_eq]
  generalize name.primary :: name.aliases = texts at hread
  induction texts with
  | nil => rfl
  | cons text rest ih =>
    rw [List.forall_mem_cons] at hread
    rw [List.findSome?_cons, List.findSome?_cons, hread.1, ih hread.2]

theorem valueIn?_of_entriesIn_nil (h : name.entriesIn payload = []) :
    name.valueIn? payload = none := by
  rw [← valueIn?_entriesIn, h, valueIn?_nil]

/-- The one entry under a name's texts is what the name reads. -/
theorem valueIn?_of_entriesIn {entry : String × Json} (h : name.entriesIn payload = [entry]) :
    name.valueIn? payload = some entry.2 := by
  have hmatches : name.matchesText entry.1 = true := by
    have hmem : entry ∈ name.entriesIn payload := h ▸ List.mem_singleton_self entry
    exact (List.mem_filter.1 hmem).2
  have htext : entry.1 ∈ name.primary :: name.aliases :=
    List.mem_cons.2 ((name.matchesText_iff entry.1).1 hmatches)
  rw [← valueIn?_entriesIn, h, valueIn?_eq]
  generalize name.primary :: name.aliases = texts at htext
  induction texts with
  | nil => cases htext
  | cons text rest ih =>
    rw [List.findSome?_cons, Entries.get?_cons]
    by_cases heq : entry.1 = text
    · rw [if_pos heq]
    · rw [if_neg heq]
      exact ih ((List.mem_cons.1 htext).resolve_left heq)

/-- Without the entries of one name another reads the same. -/
theorem entriesIn_othersIn (hapart : name.overlaps other = false) (payload : Entries Json) :
    other.entriesIn (name.othersIn payload) = other.entriesIn payload := by
  rw [entriesIn, othersIn, List.filter_filter]
  refine List.filter_congr fun entry _ => ?_
  by_cases hother : other.matchesText entry.1 = true
  · rw [overlaps_comm] at hapart
    rw [hother, not_matchesText_of_apart hapart hother]
    rfl
  · rw [Bool.eq_false_iff.2 hother, Bool.false_and]

theorem perm_entriesIn (name : Name) (payload : Entries Json) :
    payload.Perm (name.entriesIn payload ++ name.othersIn payload) :=
  (List.filter_append_perm _ _).symm

/-- A name that at most one entry is for reads that entry, or there is none. -/
theorem entriesIn_of_few (hfew : (name.entriesIn payload).length ≤ 1) :
    (name.entriesIn payload = [] ∧ name.valueIn? payload = none) ∨
    ∃ key value, name.entriesIn payload = [(key, value)] ∧ name.matchesText key = true ∧
      name.valueIn? payload = some value := by
  rcases hentries : name.entriesIn payload with _ | ⟨entry, _ | ⟨other, rest⟩⟩
  · exact .inl ⟨rfl, valueIn?_of_entriesIn_nil hentries⟩
  · have hmem : entry ∈ name.entriesIn payload := hentries ▸ List.mem_cons_self
    exact .inr ⟨entry.1, entry.2, rfl, (List.mem_filter.1 hmem).2, valueIn?_of_entriesIn hentries⟩
  · rw [hentries] at hfew
    simp at hfew

/-- Where a name reads nothing, all entries are under other texts. -/
theorem perm_of_none (hfew : (name.entriesIn payload).length ≤ 1)
    (hnone : name.valueIn? payload = none) : payload.Perm (name.othersIn payload) := by
  have hperm := name.perm_entriesIn payload
  rcases entriesIn_of_few hfew with ⟨hentries, -⟩ | ⟨key, value, -, -, hvalue⟩
  · rwa [hentries] at hperm
  · rw [hvalue] at hnone
    cases hnone

/-- Where a name reads a value, one entry is under its texts. -/
theorem perm_of_value (hfew : (name.entriesIn payload).length ≤ 1) {value : Json}
    (hvalue : name.valueIn? payload = some value) :
    ∃ key, name.matchesText key = true ∧
      payload.Perm ((key, value) :: name.othersIn payload) := by
  have hperm := name.perm_entriesIn payload
  rcases entriesIn_of_few hfew with ⟨-, hnone⟩ | ⟨key, found, hentries, hkey, hfound⟩
  · rw [hvalue] at hnone
    cases hnone
  · obtain rfl : found = value := Option.some.inj (hfound.symm.trans hvalue)
    rw [hentries] at hperm
    exact ⟨key, hkey, hperm⟩

end Name

/-! ## What renaming reads -/

namespace Shape

variable {shape inner rest : Shape} {column : Column} {placed : Placed}
  {payload other pack : Entries Json}

/-- The keys of a payload each name a column of the table. -/
def Knows (shape : Shape) (payload : Entries Json) : Prop :=
  ∀ key ∈ payload.keys, ∃ column ∈ shape.columns, column.displayName.matchesText key = true

instance (shape : Shape) (payload : Entries Json) : Decidable (shape.Knows payload) :=
  inferInstanceAs (Decidable (∀ key ∈ payload.keys, ∃ column ∈ shape.columns, _ = true))

/-- The check of keys is passed when all of them are known. -/
theorem checkKeys_ok_iff : shape.checkKeys payload = .ok () ↔ shape.Knows payload := by
  have hunknown : ∀ key, (shape.byDisplay? key).isNone = true ↔
      ¬ ∃ column ∈ shape.columns, column.displayName.matchesText key = true := by
    intro key
    rw [byDisplay?, Option.isNone_iff_eq_none, List.find?_eq_none]
    push Not
    rfl
  unfold checkKeys
  split
  · next key hfound =>
    have hkey := (hunknown key).1 (by simpa using List.find?_some hfound)
    constructor
    · intro h
      cases h
    · intro h
      exact absurd (h key (List.mem_of_find?_eq_some hfound)) hkey
  · next hnone =>
    rw [List.find?_eq_none] at hnone
    refine ⟨fun _ key hkey => ?_, fun _ => rfl⟩
    by_contra hcolumn
    exact hnone key hkey ((hunknown key).2 hcolumn)

/-- Renaming a table that begins with a plain column. -/
theorem packOf_leaf (h : (leaf column rest).packOf payload = .ok pack) :
    (column.displayName.valueIn? payload = none ∧ rest.packOf payload = .ok pack) ∨
    ∃ value others, column.displayName.valueIn? payload = some value ∧
      rest.packOf payload = .ok others ∧ pack = (column.qualifiedName, value) :: others := by
  rw [packOf] at h
  obtain ⟨others, hothers, h⟩ := ok_of_bind h
  split at h
  · next hvalue =>
    cases h
    exact .inl ⟨hvalue, hothers⟩
  · next value hvalue =>
    cases h
    exact .inr ⟨value, others, hvalue, hothers, rfl⟩

/-- Renaming a table that begins with a column with a branch. -/
theorem packOf_branch (h : (branch column placed inner rest).packOf payload = .ok pack) :
    (column.displayName.valueIn? payload = none ∧ rest.packOf payload = .ok pack) ∨
    (∃ value others, column.displayName.valueIn? payload = some value ∧ value.members? = none ∧
      rest.packOf payload = .ok others ∧ pack = (column.qualifiedName, value) :: others) ∨
    ∃ nested below others, column.displayName.valueIn? payload = some (.obj nested) ∧
      inner.checkKeys nested = .ok () ∧ inner.packOf nested = .ok below ∧
      rest.packOf payload = .ok others ∧ pack = (column.branchKey, .obj below) :: others := by
  rw [packOf] at h
  split at h
  · next hvalue => exact .inl ⟨hvalue, h⟩
  · next nested hvalue =>
    obtain ⟨_, hknown, h⟩ := ok_of_bind h
    obtain ⟨below, hbelow, h⟩ := ok_of_bind h
    obtain ⟨others, hothers, h⟩ := ok_of_bind h
    cases h
    exact .inr (.inr ⟨nested, below, others, hvalue, hknown, hbelow, hothers, rfl⟩)
  · next value hobject hvalue =>
    obtain ⟨others, hothers, h⟩ := ok_of_bind h
    cases h
    have hplain : value.members? = none := by
      cases value with
      | obj members => exact absurd rfl (hobject members)
      | _ => rfl
    exact .inr (.inl ⟨value, others, hvalue, hplain, hothers, rfl⟩)

/-- A plain value for a column with a branch is renamed like that of a plain column. -/
theorem packOf_link {value : Json} (hvalue : column.displayName.valueIn? payload = some value)
    (hplain : value.members? = none) : (branch column placed inner rest).packOf payload =
      (do
        let others ← rest.packOf payload
        .ok ((column.qualifiedName, value) :: others)) := by
  rw [packOf, hvalue]
  cases value with
  | obj members => cases hplain
  | _ => rfl

/-- Renaming depends on the values that the columns read. -/
theorem packOf_congr (h : ∀ column ∈ shape.columns,
    column.displayName.valueIn? payload = column.displayName.valueIn? other) :
    shape.packOf payload = shape.packOf other := by
  induction shape with
  | nil => rfl
  | leaf column rest ih =>
    rw [columns, List.forall_mem_cons] at h
    rw [packOf, packOf, h.1, ih h.2]
  | branch column placed inner rest _ ih =>
    rw [columns, List.forall_mem_cons] at h
    rw [packOf, packOf, h.1, ih h.2]

theorem namesOnce_congr (h : ∀ column ∈ shape.columns,
    column.displayName.entriesIn payload = column.displayName.entriesIn other) :
    shape.namesOnce payload = shape.namesOnce other := by
  induction shape with
  | nil => rfl
  | leaf column rest ih =>
    rw [columns, List.forall_mem_cons] at h
    rw [namesOnce, namesOnce, h.1, ih h.2]
  | branch column placed inner rest _ ih =>
    rw [columns, List.forall_mem_cons] at h
    have hgiven : column.givenIn payload = column.givenIn other := by
      refine Column.givenIn_congr ?_
      rw [← Name.valueIn?_entriesIn, h.1, Name.valueIn?_entriesIn]
    rw [namesOnce, namesOnce, h.1, hgiven, ih h.2]

/-! ## A payload restated -/

/-- An entry restates what is said under one of the names of a column: it stands under the
column's primary name and has the same value, or for a column with a branch an object that
restates the object that is said, whatever its order. -/
def RestatesEntry : Shape → String × Json → String × Json → Prop
  | nil, _, _ => False
  | leaf column rest, entry, said =>
    (column.displayName.matchesText said.1 = true ∧
      entry = (column.displayName.primary, said.2)) ∨
    rest.RestatesEntry entry said
  | branch column _ inner rest, entry, said =>
    (column.displayName.matchesText said.1 = true ∧ entry.1 = column.displayName.primary ∧
      match said.2 with
      | .obj nested => ∃ below arranged, entry.2 = .obj below ∧ nested.Perm arranged ∧
          List.Forall₂ inner.RestatesEntry below arranged
      | value => entry.2 = value) ∨
    rest.RestatesEntry entry said

/-- A payload restates another, entry by entry, whatever their order. -/
def Restates (shape : Shape) (payload said : Entries Json) : Prop :=
  ∃ arranged, said.Perm arranged ∧ List.Forall₂ shape.RestatesEntry payload arranged

/-- Restating what the later columns say, when no entry is for the first one. -/
theorem Restates.skip {said others : Entries Json}
    (hlater : ∀ {entry stated}, rest.RestatesEntry entry stated → shape.RestatesEntry entry stated)
    (hperm : said.Perm others) (h : rest.Restates payload others) : shape.Restates payload said := by
  obtain ⟨arranged, harranged, hentries⟩ := h
  exact ⟨arranged, hperm.trans harranged, hentries.imp fun _ _ => hlater⟩

/-- Restating the entry for the first column, and then what the later columns say. -/
theorem Restates.cons {said others : Entries Json} {entry stated : String × Json}
    (hlater : ∀ {entry stated}, rest.RestatesEntry entry stated → shape.RestatesEntry entry stated)
    (hentry : shape.RestatesEntry entry stated) (hperm : said.Perm (stated :: others))
    (h : rest.Restates payload others) : shape.Restates (entry :: payload) said := by
  obtain ⟨arranged, harranged, hentries⟩ := h
  exact ⟨stated :: arranged, hperm.trans (harranged.cons _),
    .cons hentry (hentries.imp fun _ _ => hlater)⟩

/-- Keys that are known to a table but do not name its first column are known without
it. -/
theorem Knows.othersIn (hknows : shape.Knows payload)
    (hcolumns : shape.columns = column :: rest.columns) :
    rest.Knows (column.displayName.othersIn payload) := by
  intro key hkey
  obtain ⟨entry, hentry, rfl⟩ := List.mem_map.1 hkey
  obtain ⟨hentry, hother⟩ := List.mem_filter.1 hentry
  obtain ⟨found, hfound, hmatches⟩ := hknows entry.1 (List.mem_map_of_mem hentry)
  rw [hcolumns] at hfound
  rcases List.mem_cons.1 hfound with rfl | hfound
  · rw [hmatches] at hother
    cases hother
  · exact ⟨found, hfound, hmatches⟩

/-- What later columns read is not changed by the entries that name the first one. -/
theorem reads_othersIn (hapart : ∀ other ∈ rest.columns,
    column.displayName.overlaps other.displayName = false) (payload : Entries Json) :
    rest.packOf (column.displayName.othersIn payload) = rest.packOf payload ∧
      rest.namesOnce (column.displayName.othersIn payload) = rest.namesOnce payload := by
  have hentries : ∀ other ∈ rest.columns,
      other.displayName.entriesIn (column.displayName.othersIn payload) =
        other.displayName.entriesIn payload :=
    fun other hother => Name.entriesIn_othersIn (hapart other hother) payload
  refine ⟨packOf_congr fun other hother => ?_, namesOnce_congr hentries⟩
  rw [← Name.valueIn?_entriesIn, hentries other hother, Name.valueIn?_entriesIn]

/-- **Renaming restates.** A payload that names every column at most once is renamed to the
pack of a payload that restates it. -/
theorem restates_of_packOf (hown : shape.UnsharedHere)
    (hbelow : ∀ place ∈ shape.places, place.2.UnsharedHere) {said : Entries Json}
    (honce : shape.namesOnce said = true) (hknows : shape.Knows said)
    (hpack : shape.packOf said = .ok pack) :
    ∃ payload, shape.Relabels payload pack ∧ shape.Restates payload said := by
  induction shape generalizing said pack with
  | nil =>
    cases hpack
    cases said with
    | nil => exact ⟨[], .nil, [], .refl _, .nil⟩
    | cons entry rest =>
      obtain ⟨column, hcolumn, -⟩ := hknows entry.1 List.mem_cons_self
      cases hcolumn
  | leaf column rest ih =>
    obtain ⟨hapart, hrest⟩ := hown.of_leaf
    obtain ⟨hsame, hsameOnce⟩ := reads_othersIn hapart said
    simp only [namesOnce, Bool.and_eq_true, decide_eq_true_eq] at honce
    obtain ⟨hfew, honce⟩ := honce
    have hothers : ∀ {tail}, rest.packOf said = .ok tail → ∃ payload,
        rest.Relabels payload tail ∧
          rest.Restates payload (column.displayName.othersIn said) := fun htail =>
      ih hrest hbelow (hsameOnce.trans honce) (hknows.othersIn rfl) (hsame.trans htail)
    rcases packOf_leaf hpack with ⟨hnone, htail⟩ | ⟨value, tail, hvalue, htail, rfl⟩
    · obtain ⟨payload, hrelabels, hrestates⟩ := hothers htail
      exact ⟨payload, .noLeaf hrelabels, hrestates.skip .inr (Name.perm_of_none hfew hnone)⟩
    · obtain ⟨payload, hrelabels, hrestates⟩ := hothers htail
      obtain ⟨key, hkey, hperm⟩ := Name.perm_of_value hfew hvalue
      exact ⟨_, .leaf value hrelabels, hrestates.cons .inr (.inl ⟨hkey, rfl⟩) hperm⟩
  | branch column placed inner rest ihInner ihRest =>
    obtain ⟨hapart, hrest⟩ := hown.of_branch
    obtain ⟨hsame, hsameOnce⟩ := reads_othersIn hapart said
    simp only [places, List.cons_append, List.forall_mem_cons, List.forall_mem_append] at hbelow
    obtain ⟨hinner, hbelowInner, hbelowRest⟩ := hbelow
    simp only [namesOnce, Bool.and_eq_true, decide_eq_true_eq] at honce
    obtain ⟨⟨hfew, honceInner⟩, honce⟩ := honce
    have hothers : ∀ {tail}, rest.packOf said = .ok tail → ∃ payload,
        rest.Relabels payload tail ∧
          rest.Restates payload (column.displayName.othersIn said) := fun htail =>
      ihRest hrest hbelowRest (hsameOnce.trans honce) (hknows.othersIn rfl) (hsame.trans htail)
    rcases packOf_branch hpack with ⟨hnone, htail⟩ | ⟨value, tail, hvalue, hplain, htail, rfl⟩ |
      ⟨nested, below, tail, hvalue, hinnerKnown, hbelow, htail, rfl⟩
    · obtain ⟨payload, hrelabels, hrestates⟩ := hothers htail
      exact ⟨payload, .noBranch hrelabels, hrestates.skip .inr (Name.perm_of_none hfew hnone)⟩
    · obtain ⟨payload, hrelabels, hrestates⟩ := hothers htail
      obtain ⟨key, hkey, hperm⟩ := Name.perm_of_value hfew hvalue
      refine ⟨_, .link hplain hrelabels, hrestates.cons .inr (.inl ⟨hkey, rfl, ?_⟩) hperm⟩
      cases value with
      | obj members => cases hplain
      | _ => rfl
    · obtain ⟨payload, hrelabels, hrestates⟩ := hothers htail
      obtain ⟨key, hkey, hperm⟩ := Name.perm_of_value hfew hvalue
      rw [Column.givenIn_of_object hvalue] at honceInner
      obtain ⟨inside, hinside, arranged, harranged, hentries⟩ :=
        ihInner hinner hbelowInner honceInner (checkKeys_ok_iff.1 hinnerKnown) hbelow
      have hentry : (Shape.branch column placed inner rest).RestatesEntry
          (column.displayName.primary, .obj inside) (key, .obj nested) :=
        .inl ⟨hkey, rfl, inside, arranged, rfl, harranged, hentries⟩
      exact ⟨_, .row hinside hrelabels, hrestates.cons .inr hentry hperm⟩

/-! ## Primary names are a normal form -/

/-- Keys that are primary names of columns are known. -/
theorem knows_of_names (h : payload.keys ⊆ shape.names) : shape.Knows payload := by
  intro key hkey
  obtain ⟨column, hcolumn, rfl⟩ := List.mem_map.1 (h hkey)
  exact ⟨column, hcolumn, column.displayName.matchesText_primary⟩

/-- The keys of a payload under primary names are known. -/
theorem Relabels.checkKeys (h : shape.Relabels payload pack) : shape.checkKeys payload = .ok () :=
  checkKeys_ok_iff.2 (knows_of_names h.keys_sublist.subset)

/-- In a payload whose keys are primary names each column reads what stands under its
own. -/
theorem valueIn?_of_names (hown : shape.UnsharedHere) (hkeys : payload.keys ⊆ shape.names)
    {column : Column} (hcolumn : column ∈ shape.columns) :
    column.displayName.valueIn? payload = payload.get? column.displayName.primary := by
  cases hprimary : payload.get? column.displayName.primary with
  | some value => exact Name.valueIn?_of_get? hprimary
  | none =>
    rw [Name.valueIn?_eq, List.findSome?_eq_none_iff]
    intro text htext
    rw [Entries.get?_eq_none_iff]
    intro hmem
    obtain ⟨other, hother, rfl⟩ := List.mem_map.1 (hkeys hmem)
    have hsame : column = other :=
      hown.eq_of_matches hcolumn hother ((Name.matchesText_iff _ _).2 (List.mem_cons.1 htext))
        other.displayName.matchesText_primary
    rw [Entries.get?_eq_none_iff, hsame] at hprimary
    exact hprimary hmem

/-- What later columns read does not change when an entry of the first one stands in
front. -/
theorem reads_tail (hown : (Shape.leaf column rest).names.Nodup) {value : Json}
    {tail whole : Entries Json}
    (hwhole : ∀ other ∈ rest.columns, other.displayName.valueIn? whole =
      Entries.get? ((column.displayName.primary, value) :: tail) other.displayName.primary) :
    ∀ other ∈ rest.columns,
      other.displayName.valueIn? whole = tail.get? other.displayName.primary := by
  intro other hother
  have hne : column.displayName.primary ≠ other.displayName.primary := by
    intro hsame
    have hmem : column.displayName.primary ∈ rest.names := by
      rw [hsame]
      exact List.mem_map_of_mem hother
    exact (List.nodup_cons.1 hown).1 hmem
  rw [hwhole other hother, Entries.get?_cons, if_neg hne]

/-- A column that a payload under primary names leaves out reads nothing. -/
theorem Relabels.reads_none (h : rest.Relabels payload pack)
    (hown : (Shape.leaf column rest).names.Nodup) :
    payload.get? column.displayName.primary = none := by
  rw [Entries.get?_eq_none_iff]
  intro hmem
  exact (List.nodup_cons.1 hown).1 (h.keys_sublist.subset hmem)

/-- Renaming a payload under primary names gives its pack, whatever is left out. -/
theorem Relabels.packOf (h : shape.Relabels payload pack) (hown : shape.UnsharedHere)
    (hbelow : ∀ place ∈ shape.places, place.2.UnsharedHere) {whole : Entries Json}
    (hwhole : ∀ column ∈ shape.columns,
      column.displayName.valueIn? whole = payload.get? column.displayName.primary) :
    shape.packOf whole = .ok pack := by
  induction h generalizing whole with
  | nil => rfl
  | noLeaf hrest ih =>
    rw [columns, List.forall_mem_cons] at hwhole
    have hnone := hwhole.1.trans (hrest.reads_none hown.nodup_names)
    rw [Shape.packOf, ih hown.of_leaf.2 hbelow hwhole.2, hnone]
    rfl
  | leaf value hrest ih =>
    rw [columns, List.forall_mem_cons] at hwhole
    obtain ⟨hvalue, hothers⟩ := hwhole
    rw [Entries.get?_cons, if_pos rfl] at hvalue
    rw [Shape.packOf, ih hown.of_leaf.2 hbelow (reads_tail hown.nodup_names hothers), hvalue]
    rfl
  | noBranch hrest ih =>
    rw [columns, List.forall_mem_cons] at hwhole
    simp only [places, List.cons_append, List.forall_mem_cons, List.forall_mem_append] at hbelow
    have hnone := hwhole.1.trans (hrest.reads_none hown.nodup_names)
    rw [Shape.packOf, hnone]
    exact ih hown.of_branch.2 hbelow.2.2 hwhole.2
  | link hplain hrest ih =>
    rw [columns, List.forall_mem_cons] at hwhole
    simp only [places, List.cons_append, List.forall_mem_cons, List.forall_mem_append] at hbelow
    obtain ⟨hvalue, hothers⟩ := hwhole
    rw [Entries.get?_cons, if_pos rfl] at hvalue
    rw [Shape.packOf_link hvalue hplain,
      ih hown.of_branch.2 hbelow.2.2 (reads_tail hown.nodup_names hothers)]
    rfl
  | @row column placed inner rest payload pack nested below hinner hrest ihInner ihRest =>
    rw [columns, List.forall_mem_cons] at hwhole
    simp only [places, List.cons_append, List.forall_mem_cons, List.forall_mem_append] at hbelow
    obtain ⟨hinnerOwn, hbelowInner, hbelowRest⟩ := hbelow
    obtain ⟨hvalue, hothers⟩ := hwhole
    rw [Entries.get?_cons, if_pos rfl] at hvalue
    have hnested : inner.packOf nested = .ok below :=
      ihInner hinnerOwn hbelowInner fun other hother =>
        valueIn?_of_names hinnerOwn hinner.keys_sublist.subset hother
    have htail := ihRest hown.of_branch.2 hbelowRest (reads_tail hown.nodup_names hothers)
    rw [Shape.packOf, hvalue]
    simp only [hinner.checkKeys, hnested, htail]
    rfl

end Shape

namespace Resource

variable {schema : Schema} {root : Table} {resource : Resource}

/-- **Primary names are a normal form.** Where no text names two columns of one table, a
payload that is accepted and names every column at most once is renamed to a pack, and the
pack to a payload that restates the first under primary names, with nothing added or left
out. Renaming this one gives the same pack. -/
theorem rename_round_trip (hcompile : compile schema root = .ok resource)
    (hunshared : resource.shape.Unshared) {said pack : Entries Json}
    (honce : resource.shape.namesOnce said = true) (hpack : resource.packOf said = .ok pack) :
    ∃ payload, resource.payloadOf pack = .ok payload ∧ resource.shape.Restates payload said ∧
      resource.packOf payload = .ok pack := by
  obtain ⟨_, hknown, hpack⟩ := ok_of_bind hpack
  obtain ⟨payload, hrelabels, hrestates⟩ := Shape.restates_of_packOf hunshared.own
    hunshared.below honce (Shape.checkKeys_ok_iff.1 hknown) hpack
  refine ⟨payload, payloadOf_of_relabels (keyed hcompile) hunshared.namesApart hrelabels,
    hrestates, ?_⟩
  rw [packOf, hrelabels.checkKeys]
  exact hrelabels.packOf hunshared.own hunshared.below fun column hcolumn =>
    Shape.valueIn?_of_names hunshared.own hrelabels.keys_sublist.subset hcolumn

end Resource

/-! ## An order by its aliases -/

/-- An order that is said of a buyer in a town, with most columns left out. -/
def orderByAliases : Entries Json :=
  [("buyer", .obj [("customer_id_address_id", .obj [("customer_id_address_id_town", .str "Oslo")]),
      ("customer_id_id", .int 3)]),
    ("id", .int 7)]

/-- The order under primary names. -/
def orderByNames : Entries Json :=
  [("id", .int 7),
    ("customer_id", .obj [("customer_id_id", .int 3),
      ("customer_id_address_id", .obj [("customer_id_address_id_city", .str "Oslo")])])]

/-- The order comes back in the order of its columns, and the buyer is a customer again. -/
theorem order_normalised :
    Resource.compile aliasedShop aliasedTable = .ok aliasedOrder ∧
      aliasedOrder.shape.Unshared ∧ aliasedOrder.shape.namesOnce orderByAliases = true ∧
      ∃ pack, aliasedOrder.packOf orderByAliases = .ok pack ∧
        aliasedOrder.payloadOf pack = .ok orderByNames ∧
        aliasedOrder.shape.Restates orderByNames orderByAliases ∧
        aliasedOrder.packOf orderByNames = .ok pack := by
  have hcompile : Resource.compile aliasedShop aliasedTable = .ok aliasedOrder := eq_ok_get _
  have hunshared : aliasedOrder.shape.Unshared := by decide +kernel
  have honce : aliasedOrder.shape.namesOnce orderByAliases = true := by decide +kernel
  let pack : Entries Json := [("shop.orders.id", .int 7),
    ("shop.orders.customer_id_branch", .obj [("shop.customers.id", .int 3),
      ("shop.customers.address_id_branch", .obj [("shop.addresses.city", .str "Oslo")])])]
  have hpack : aliasedOrder.packOf orderByAliases = .ok pack := by decide +kernel
  have hnames : aliasedOrder.payloadOf pack = .ok orderByNames := by decide +kernel
  obtain ⟨payload, hback, hrestates, hagain⟩ :=
    Resource.rename_round_trip hcompile hunshared honce hpack
  obtain rfl : payload = orderByNames := Except.ok.inj (hback.symm.trans hnames)
  exact ⟨hcompile, hunshared, honce, pack, hpack, hnames, hrestates, hagain⟩

end TableApi
