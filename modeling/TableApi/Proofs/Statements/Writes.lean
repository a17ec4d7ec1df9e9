import TableApi.Proofs.Deleting.Held
import TableApi.Proofs.Statements.Selections

/-!
# Packs that differ in values

What an INSERT or a DELETE says follows from its table and the names of its columns. Two
packs of a shape that have rows below the same columns (`Shape.HoldsAlike`) are therefore
inserted by statements that differ in values alone, and so they are deleted.
-/

namespace TableApi

open Sql.Phrase (outline outline_joined)

/-- Rows to be inserted that differ in values alone. -/
structure Insertion.Alike (insertion other : Insertion) : Prop where
  table : insertion.table = other.table
  names : insertion.cells.map Prod.fst = other.cells.map Prod.fst

/-- Rows to be deleted that differ in the values of their keys alone. -/
structure Deletion.Alike (deletion other : Deletion) : Prop where
  table : deletion.table = other.table
  names : deletion.key.map Prod.fst = other.key.map Prod.fst

/-- Without its values a list of phrases, one for each cell, follows from the names. -/
theorem outline_cells {phrase : String × Json → Sql.Phrase} {cells others : List (String × Json)}
    (hblank : ∀ cell, outline (phrase cell) = outline (phrase (cell.1, .null)))
    (hnames : cells.map Prod.fst = others.map Prod.fst) :
    (cells.map phrase).map outline = (others.map phrase).map outline := by
  have hform : ∀ cells : List (String × Json), (cells.map phrase).map outline =
      (cells.map Prod.fst).map fun name => outline (phrase (name, .null)) := by
    intro cells
    simp only [List.map_map]
    exact List.map_congr_left fun cell _ => hblank cell
  rw [hform, hform, hnames]

theorem Insertion.Alike.sameText {insertion other : Insertion} (h : insertion.Alike other) :
    insertion.statement.SameText other.statement := by
  refine Sql.Phrase.sameText_of_outline ?_
  simp only [phrase, Sql.Phrase.outline_append, outline_joined, h.table]
  rw [outline_cells (fun _ => rfl) h.names, outline_cells (fun _ => rfl) h.names]

theorem Deletion.Alike.sameText {deletion other : Deletion} (h : deletion.Alike other) :
    deletion.statement.SameText other.statement := by
  refine Sql.Phrase.sameText_of_outline ?_
  simp only [phrase, Sql.Phrase.outline_append, outline_joined, h.table]
  rw [outline_cells (fun _ => rfl) h.names]

/-! ## Packs with rows in the same places -/

/-- Two packs have rows below the same columns of a table, and so have these. -/
inductive Shape.HoldsAlike : Entries Json → Entries Json → Shape → Prop
  | nil {pack other} : HoldsAlike pack other .nil
  | leaf {pack other column rest} (hrest : HoldsAlike pack other rest) :
      HoldsAlike pack other (.leaf column rest)
  | link {pack other column placed inner rest} (hnone : pack.get? column.branchKey = none)
      (hnone' : other.get? column.branchKey = none) (hrest : HoldsAlike pack other rest) :
      HoldsAlike pack other (.branch column placed inner rest)
  | row {pack other column placed inner rest below below'}
      (hrow : pack.get? column.branchKey = some (.obj below))
      (hrow' : other.get? column.branchKey = some (.obj below'))
      (hinner : HoldsAlike below below' inner) (hrest : HoldsAlike pack other rest) :
      HoldsAlike pack other (.branch column placed inner rest)

namespace Shape.HoldsAlike

variable {shape : Shape} {pack other : Entries Json}

/-- The rows below are inserted alike. -/
theorem inserts (h : shape.HoldsAlike pack other) {below below' : List Insertion}
    {cells cells' : List (String × Json)} (hbelow : shape.inserts pack = .ok (below, cells))
    (hbelow' : shape.inserts other = .ok (below', cells')) :
    List.Forall₂ Insertion.Alike below below' := by
  induction h generalizing below below' cells cells' with
  | nil =>
    cases hbelow
    cases hbelow'
    exact .nil
  | leaf _ ih =>
    obtain ⟨_, _, -, hrest, -⟩ := Shape.inserts_leaf hbelow
    obtain ⟨_, _, -, hrest', -⟩ := Shape.inserts_leaf hbelow'
    exact ih hrest hrest'
  | link hnone hnone' _ ih =>
    obtain ⟨first, _, behind, _, hfirst, -, hrest, rfl, -⟩ := Shape.inserts_branch hbelow
    obtain ⟨first', _, behind', _, hfirst', -, hrest', rfl, -⟩ := Shape.inserts_branch hbelow'
    obtain rfl : first = [] := by
      rcases hfirst with ⟨-, rfl⟩ | ⟨nested, _, _, hsome, -⟩
      · rfl
      · simp [hnone] at hsome
    obtain rfl : first' = [] := by
      rcases hfirst' with ⟨-, rfl⟩ | ⟨nested, _, _, hsome, -⟩
      · rfl
      · simp [hnone'] at hsome
    exact ih hrest hrest'
  | @row _ _ _ placed _ _ _ _ hrow hrow' _ _ ihInner ihRest =>
    obtain ⟨first, _, behind, _, hfirst, -, hrest, rfl, -⟩ := Shape.inserts_branch hbelow
    obtain ⟨first', _, behind', _, hfirst', -, hrest', rfl, -⟩ := Shape.inserts_branch hbelow'
    refine List.rel_append ?_ (ihRest hrest hrest')
    rcases hfirst with ⟨hnone, -⟩ | ⟨nested, inside, own, hsome, hinside, rfl⟩
    · simp [hrow] at hnone
    rcases hfirst' with ⟨hnone, -⟩ | ⟨nested', inside', own', hsome', hinside', rfl⟩
    · simp [hrow'] at hnone
    obtain rfl := Json.obj.inj (Option.some.inj (hrow.symm.trans hsome))
    obtain rfl := Json.obj.inj (Option.some.inj (hrow'.symm.trans hsome'))
    have hown : Insertion.Alike ⟨placed.table, own⟩ ⟨placed.table, own'⟩ :=
      ⟨rfl, (Shape.names_cells hinside).trans (Shape.names_cells hinside').symm⟩
    exact List.rel_append (ihInner hinside hinside') (.cons hown .nil)

/-- A row is deleted by the same columns whatever its values are. -/
theorem deletion {table : Table} {found found' : Deletion}
    (h : shape.deletion table pack = .ok found) (h' : shape.deletion table other = .ok found') :
    found.Alike found' := by
  obtain ⟨htable, -, hkey⟩ := Shape.deletion_ok h
  obtain ⟨htable', -, hkey'⟩ := Shape.deletion_ok h'
  exact ⟨htable.trans htable'.symm,
    (Shape.names_keyCells hkey).trans (Shape.names_keyCells hkey').symm⟩

/-- The rows below are deleted alike. -/
theorem deletesBelow (h : shape.HoldsAlike pack other) {batch batch' : List Deletion}
    (hbatch : shape.deletesBelow pack = .ok batch)
    (hbatch' : shape.deletesBelow other = .ok batch') :
    List.Forall₂ Deletion.Alike batch batch' := by
  induction h generalizing batch batch' with
  | nil =>
    cases hbatch
    cases hbatch'
    exact .nil
  | leaf _ ih => exact ih hbatch hbatch'
  | link hnone hnone' _ ih =>
    rw [Shape.deletesBelow, hnone] at hbatch
    rw [Shape.deletesBelow, hnone'] at hbatch'
    exact ih hbatch hbatch'
  | row hrow hrow' _ _ ihInner ihRest =>
    rw [Shape.deletesBelow, hrow] at hbatch
    rw [Shape.deletesBelow, hrow'] at hbatch'
    obtain ⟨nested, hnested, hbatch⟩ := ok_of_bind hbatch
    obtain ⟨first, hfirst, hbatch⟩ := ok_of_bind hbatch
    obtain ⟨below, hbelow, hbatch⟩ := ok_of_bind hbatch
    obtain ⟨others, hothers, hbatch⟩ := ok_of_bind hbatch
    obtain ⟨nested', hnested', hbatch'⟩ := ok_of_bind hbatch'
    obtain ⟨first', hfirst', hbatch'⟩ := ok_of_bind hbatch'
    obtain ⟨below', hbelow', hbatch'⟩ := ok_of_bind hbatch'
    obtain ⟨others', hothers', hbatch'⟩ := ok_of_bind hbatch'
    cases hbatch
    cases hbatch'
    cases hnested
    cases hnested'
    exact List.rel_append (.cons (deletion hfirst hfirst') (ihInner hbelow hbelow'))
      (ihRest hothers hothers')

end Shape.HoldsAlike

namespace Resource

variable {resource : Resource} {pack other : Entries Json}

/-- Packs with rows in the same places are inserted by the same statements, but for
values. -/
theorem inserts_alike (h : resource.shape.HoldsAlike pack other) {batch batch' : List Insertion}
    (hbatch : resource.inserts pack = .ok batch) (hbatch' : resource.inserts other = .ok batch') :
    List.Forall₂ Insertion.Alike batch batch' := by
  obtain ⟨⟨below, cells⟩, hbelow, hbatch⟩ := ok_of_bind hbatch
  obtain ⟨⟨below', cells'⟩, hbelow', hbatch'⟩ := ok_of_bind hbatch'
  cases hbatch
  cases hbatch'
  have hroot : Insertion.Alike ⟨resource.root.table, cells⟩ ⟨resource.root.table, cells'⟩ :=
    ⟨rfl, (Shape.names_cells hbelow).trans (Shape.names_cells hbelow').symm⟩
  exact List.rel_append (h.inserts hbelow hbelow') (.cons hroot .nil)

/-- Packs with rows in the same places are deleted by the same statements, but for
values. -/
theorem deletes_alike (h : resource.shape.HoldsAlike pack other) {batch batch' : List Deletion}
    (hbatch : resource.deletes pack = .ok batch) (hbatch' : resource.deletes other = .ok batch') :
    List.Forall₂ Deletion.Alike batch batch' := by
  obtain ⟨first, hfirst, hbatch⟩ := ok_of_bind hbatch
  obtain ⟨below, hbelow, hbatch⟩ := ok_of_bind hbatch
  obtain ⟨first', hfirst', hbatch'⟩ := ok_of_bind hbatch'
  obtain ⟨below', hbelow', hbatch'⟩ := ok_of_bind hbatch'
  cases hbatch
  cases hbatch'
  exact .cons (Shape.HoldsAlike.deletion hfirst hfirst') (h.deletesBelow hbelow hbelow')

end Resource

end TableApi
