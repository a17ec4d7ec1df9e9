import TableApi.Resource.Shape
import Mathlib.Data.List.Nodup

/-!
# Nodes, keys and places of a shape

A shape is walked in three ways. Its *nodes* are the columns of one table, each
with the branch it opens; its *keys* are the keys that a pack of the table may
use; its *places* are the tables below, each with its own shape, in the order of
a depth-first walk.

`Slot.keyed_shape` carries a property from the entries that mounting writes to the
tree that is read off them: no key of a pack means two things. It holds although
entries may overwrite each other, because an overwritten entry is gone for good.
`Slot.mem_places_link` says where a place of the tree comes from.
-/

namespace TableApi

/-- A key with its branch ending is longer than the key. -/
theorem branchKey_ne (key : String) : branchKey key ≠ key := by
  intro h
  have hlength := congrArg String.length h
  rw [branchKey, String.length_append] at hlength
  exact absurd hlength (by simp)

/-- Different keys open different branches. -/
theorem branchKey_inj {key other : String} (h : branchKey key = branchKey other) :
    key = other :=
  (String.append_left_inj "_branch").1 h

namespace Shape

/-- The columns of a table, each with the branch it opens. -/
def nodes : Shape → List (Column × Option (Placed × Shape))
  | nil => []
  | leaf column rest => (column, none) :: rest.nodes
  | branch column placed inner rest => (column, some (placed, inner)) :: rest.nodes

/-- The keys that a pack of a table may use: one for a plain column, two for one
that opens a branch. -/
def keys : Shape → List String
  | nil => []
  | leaf column rest => column.qualifiedName :: rest.keys
  | branch column _ _ rest => column.qualifiedName :: column.branchKey :: rest.keys

/-- The tables below a table, each with its shape. -/
def places : Shape → List (Placed × Shape)
  | nil => []
  | leaf _ rest => rest.places
  | branch _ placed inner rest => (placed, inner) :: inner.places ++ rest.places

/-- No key of a pack means two things, neither in the table nor below it. -/
def Keyed : Shape → Prop
  | nil => True
  | leaf column rest => column.qualifiedName ∉ rest.keys ∧ rest.Keyed
  | branch column _ inner rest =>
    column.qualifiedName ∉ rest.keys ∧ column.branchKey ∉ rest.keys ∧ inner.Keyed ∧ rest.Keyed

theorem mem_places_of_node {shape : Shape} {column : Column} {opened : Placed × Shape}
    (h : (column, some opened) ∈ shape.nodes) : opened ∈ shape.places := by
  induction shape with
  | nil => simp [nodes] at h
  | leaf other rest ih => exact ih (by simpa [nodes] using h)
  | branch other found below rest _ ih =>
    rcases List.mem_cons.1 h with heq | h
    · cases heq
      exact List.mem_cons_self
    · exact List.mem_append_right _ (ih h)

theorem places_subset {shape inner : Shape} {placed : Placed}
    (h : (placed, inner) ∈ shape.places) : inner.places ⊆ shape.places := by
  induction shape with
  | nil => simp [places] at h
  | leaf column rest ih => exact ih h
  | branch column found below rest ihBelow ihRest =>
    intro place hplace
    rw [places, List.cons_append, List.mem_cons, List.mem_append] at h ⊢
    rcases h with heq | h | h
    · cases heq
      exact .inr (.inl hplace)
    · exact .inr (.inl (ihBelow h hplace))
    · exact .inr (.inr (ihRest h hplace))

end Shape

namespace Slot

/-- A slot stands where it belongs: a column under its qualified name, a branch
with entries whose tree is keyed. -/
def Sound : String × Slot → Prop
  | (key, column c) => key = c.qualifiedName
  | (_, branch _ entries) => (shape entries).Keyed

/-- The places that a slot adds to a tree: those of the branch, its head first. -/
def placesOf : Slot → List (Placed × Shape)
  | column _ => []
  | branch placed entries => (placed, shape entries) :: (shape entries).places

/-- What a look-up among branches finds is a branch among the entries. -/
theorem mem_of_get?_branches {entries : Entries Slot} {key : String} {placed : Placed}
    {inner : Shape} (h : (branches entries).get? key = some (placed, inner)) :
    ∃ below, (key, branch placed below) ∈ entries ∧ inner = shape below := by
  have hmem := Entries.mem_of_get? h
  rw [branches_eq_filterMap, List.mem_filterMap] at hmem
  obtain ⟨⟨k, slot⟩, hentry, hopened⟩ := hmem
  cases slot with
  | column c => simp [opened?] at hopened
  | branch found below =>
    rw [opened?_branch] at hopened
    simp only [Option.map_some, Option.some.injEq, Prod.mk.injEq] at hopened
    obtain ⟨rfl, rfl, rfl⟩ := hopened
    exact ⟨below, hentry, rfl⟩

/-- A key of the tree is the key of a column among the entries, or the branch key
of one with a branch. -/
theorem mem_keys_link {found : Entries (Placed × Shape)} {entries : Entries Slot}
    (hsound : ∀ entry ∈ entries, Sound entry) {key : String}
    (h : key ∈ (link found entries).keys) :
    (∃ c, (key, column c) ∈ entries) ∨
      ∃ own c, (own, column c) ∈ entries ∧ key = branchKey own ∧ key ∈ found.keys := by
  induction entries with
  | nil => simp [link, Shape.keys] at h
  | cons entry rest ih =>
    obtain ⟨own, slot⟩ := entry
    have hrest : key ∈ (link found rest).keys →
        (∃ c, (key, column c) ∈ (own, slot) :: rest) ∨
          ∃ own' c, (own', column c) ∈ (own, slot) :: rest ∧ key = branchKey own' ∧
            key ∈ found.keys := by
      intro hmem
      rcases ih (fun e he => hsound e (List.mem_cons_of_mem _ he)) hmem with
        ⟨c, hc⟩ | ⟨own', c, hc, heq, hfound⟩
      · exact .inl ⟨c, List.mem_cons_of_mem _ hc⟩
      · exact .inr ⟨own', c, List.mem_cons_of_mem _ hc, heq, hfound⟩
    cases slot with
    | branch placed below => exact hrest (by simpa [link] using h)
    | column c =>
      obtain rfl : own = c.qualifiedName := hsound _ List.mem_cons_self
      cases hget : found.get? (branchKey c.qualifiedName) with
      | none =>
        simp only [link, hget, Shape.keys, List.mem_cons] at h
        rcases h with rfl | h
        · exact .inl ⟨c, List.mem_cons_self⟩
        · exact hrest h
      | some pair =>
        simp only [link, hget, Shape.keys, List.mem_cons] at h
        rcases h with rfl | rfl | h
        · exact .inl ⟨c, List.mem_cons_self⟩
        · refine .inr ⟨_, c, List.mem_cons_self, rfl, ?_⟩
          exact List.mem_map.2 ⟨_, Entries.mem_of_get? hget, rfl⟩
        · exact hrest h

/-- Entries without a key that stands twice, each where it belongs, make a keyed
tree. -/
theorem keyed_shape {entries : Entries Slot} (hkeys : entries.keys.Nodup)
    (hsound : ∀ entry ∈ entries, Sound entry) : (shape entries).Keyed := by
  -- A branch key is the key of a branch, and no column stands under that.
  have hbranch : ∀ key c, (key, column c) ∈ entries → key ∉ (branches entries).keys := by
    intro key c hc hmem
    have hfound := (Entries.has_iff _ _).2 hmem
    rw [Entries.has, Option.isSome_iff_exists] at hfound
    obtain ⟨⟨placed, inner⟩, hget⟩ := hfound
    obtain ⟨below, hbelow, -⟩ := mem_of_get?_branches hget
    have := (Entries.get?_of_mem hkeys hc).symm.trans (Entries.get?_of_mem hkeys hbelow)
    cases this
  suffices h : ∀ rest : Entries Slot, rest.Sublist entries → (link (branches entries) rest).Keyed from
    h entries (List.Sublist.refl _)
  intro rest hsub
  induction rest with
  | nil => exact True.intro
  | cons entry rest ih =>
    obtain ⟨key, slot⟩ := entry
    have hrest := ih ((List.sublist_cons_self _ _).trans hsub)
    cases slot with
    | branch placed below => exact hrest
    | column c =>
      have hmem : (key, column c) ∈ entries := hsub.subset List.mem_cons_self
      obtain rfl : key = c.qualifiedName := hsound _ hmem
      have hnew : c.qualifiedName ∉ Entries.keys rest := by
        have hnodup := (hsub.map Prod.fst).nodup hkeys
        exact (List.nodup_cons.1 hnodup).1
      have hsoundRest : ∀ e ∈ rest, Sound e := fun e he =>
        hsound e (hsub.subset (List.mem_cons_of_mem _ he))
      have hown : c.qualifiedName ∉ (link (branches entries) rest).keys := by
        intro h
        rcases mem_keys_link hsoundRest h with ⟨d, hd⟩ | ⟨own, d, hd, heq, hfound⟩
        · exact hnew (List.mem_map.2 ⟨_, hd, rfl⟩)
        · exact hbranch _ c hmem hfound
      cases hget : (branches entries).get? (branchKey c.qualifiedName) with
      | none =>
        rw [link, hget]
        exact ⟨hown, hrest⟩
      | some pair =>
        obtain ⟨placed, inner⟩ := pair
        rw [link, hget]
        refine ⟨hown, fun h => ?_, ?_, hrest⟩
        · rcases mem_keys_link hsoundRest h with ⟨d, hd⟩ | ⟨own, d, hd, heq, hfound⟩
          · have hd' := hsub.subset (List.mem_cons_of_mem _ hd)
            exact hbranch _ d hd' (List.mem_map.2 ⟨_, Entries.mem_of_get? hget, rfl⟩)
          · exact hnew (branchKey_inj heq ▸ List.mem_map.2 ⟨_, hd, rfl⟩)
        · obtain ⟨below, hbelow, rfl⟩ := mem_of_get?_branches hget
          exact hsound _ hbelow

/-- A place of the tree comes from a branch that stands under the branch key of a
column. -/
theorem mem_places_link {entries rest : Entries Slot} {place : Placed × Shape}
    (h : place ∈ (link (branches entries) rest).places) :
    ∃ key c placed below, (key, column c) ∈ rest ∧
      (branchKey key, branch placed below) ∈ entries ∧ place ∈ placesOf (branch placed below) := by
  induction rest with
  | nil => simp [link, Shape.places] at h
  | cons entry rest ih =>
    obtain ⟨key, slot⟩ := entry
    have hrest : place ∈ (link (branches entries) rest).places →
        ∃ key' c placed below, (key', column c) ∈ (key, slot) :: rest ∧
          (branchKey key', branch placed below) ∈ entries ∧
            place ∈ placesOf (branch placed below) := by
      intro hmem
      obtain ⟨key', c, placed, below, hc, hb, hp⟩ := ih hmem
      exact ⟨key', c, placed, below, List.mem_cons_of_mem _ hc, hb, hp⟩
    cases slot with
    | branch placed below => exact hrest (by simpa [link] using h)
    | column c =>
      cases hget : (branches entries).get? (branchKey key) with
      | none =>
        rw [link, hget] at h
        exact hrest h
      | some pair =>
        obtain ⟨placed, inner⟩ := pair
        obtain ⟨below, hbelow, rfl⟩ := mem_of_get?_branches hget
        rw [link, hget, Shape.places, List.mem_append] at h
        rcases h with h | h
        · exact ⟨key, c, placed, below, List.mem_cons_self, hbelow, h⟩
        · exact hrest h

end Slot

end TableApi
