import TableApi.Proofs.Mounting

/-!
# The primary key of a mounted table

Mounting writes entries one after another, and a later one replaces an earlier one
of the same key. A branch is written under the name of its column and `_branch`,
which may be the name of another column: that column is then lost
(`Schema.shadows`). `mem_keyColumns_mountColumns` says which primary-key columns are
left.
-/

namespace TableApi

/-! ## What is written over -/

/-- Whether a column's relation is live. -/
def Schema.isLive (schema : Schema) (column : Column) : Bool :=
  match schema.liveTarget? column with
  | .ok (some _) => true
  | _ => false

/-- What columns write when they are mounted, in order: each itself, and a branch if
its relation is live. -/
def Schema.written (schema : Schema) : List Column → List (String × Option Column)
  | [] => []
  | column :: rest =>
    ((column.qualifiedName, some column) ::
      if schema.isLive column then [(column.branchKey, none)] else []) ++ schema.written rest

/-- Whether something else is written under a name behind every primary-key column of
that name: another column of the name, or a branch. -/
def Schema.shadows (schema : Schema) (name : String) : List Column → Bool
  | [] => false
  | column :: rest =>
    ((column.name == name && !column.isPrimary) ||
        (schema.isLive column && column.name ++ "_branch" == name)) &&
      !(rest.any fun other => other.name == name && other.isPrimary) ||
    schema.shadows name rest

def Slot.column? : Slot → Option Column
  | .column c => some c
  | .branch _ _ => none

theorem Entries.get?_map {α β : Type} (f : α → β) (entries : Entries α) (key : String) :
    Entries.get? (entries.map fun entry => (entry.1, f entry.2)) key =
      (entries.get? key).map f := by
  induction entries with
  | nil => rfl
  | cons entry rest ih =>
    obtain ⟨k, v⟩ := entry
    rw [List.map_cons, Entries.get?_cons, Entries.get?_cons, ih]
    split <;> rfl

namespace Schema

variable {schema : Schema}

/-- Mounting writes what the columns write. -/
theorem map_entries_mountColumns
    {mountBelow : Nat → String → Table → Except SchemaFault Mounted} {owner lead : String}
    {columns : List Column} {next : Nat} {grown : Grown}
    (h : schema.mountColumns mountBelow owner lead next columns = .ok grown) :
    grown.entries.map (fun entry => (entry.1, entry.2.column?)) =
      (schema.written columns).map fun entry =>
        (entry.1, entry.2.map fun column => column.mounted owner lead) := by
  induction columns generalizing next grown with
  | nil =>
    cases h
    rfl
  | cons source rest ih =>
    rcases mountColumns_cons h with ⟨hlive, others, hothers, rfl⟩ |
      ⟨table, referenced, child, others, hlive, -, hothers, rfl⟩
    · have hplain : schema.isLive source = false := by
        show (match schema.liveTarget? (source.mounted owner lead) with
          | .ok (some _) => true
          | _ => false) = false
        rw [hlive]
      rw [written, hplain]
      simp only [List.map_cons, List.map_append, ih hothers]
      rfl
    · have hopen : schema.isLive source = true := by
        show (match schema.liveTarget? (source.mounted owner lead) with
          | .ok (some _) => true
          | _ => false) = true
        rw [hlive]
      rw [written, hopen]
      simp only [List.map_cons, List.map_append, ih hothers]
      rfl

/-- A column is written under its own qualified name. -/
theorem mem_written {columns : List Column} {key : String} {column : Column}
    (h : (key, some column) ∈ schema.written columns) :
    column ∈ columns ∧ key = column.qualifiedName := by
  induction columns with
  | nil => cases h
  | cons first rest ih =>
    rw [written, List.cons_append] at h
    rcases List.mem_cons.1 h with heq | h
    · cases heq
      exact ⟨List.mem_cons_self, rfl⟩
    rcases List.mem_append.1 h with h | h
    · split at h
      · cases List.mem_singleton.1 h
      · cases h
    · exact ⟨List.mem_cons_of_mem _ (ih h).1, (ih h).2⟩

/-- Whether what is last written under a key is a primary-key column. -/
def lastPrimary? (schema : Schema) (columns : List Column) (key : String) : Option Bool :=
  (Entries.get? (schema.written columns).reverse key).map fun found =>
    found.any Column.isPrimary

theorem lastPrimary?_cons (column : Column) (rest : List Column) (key : String) :
    schema.lastPrimary? (column :: rest) key =
      (schema.lastPrimary? rest key).or
        (if schema.isLive column ∧ column.branchKey = key then some false
        else if column.qualifiedName = key then some column.isPrimary else none) := by
  unfold lastPrimary?
  rw [written, List.reverse_append, Entries.get?_append, Option.map_or]
  congr 1
  cases hlive : schema.isLive column with
  | false =>
    simp only [Bool.false_eq_true, if_false, false_and, List.reverse_singleton, Entries.get?]
    split <;> rfl
  | true =>
    simp only [if_true, true_and, List.reverse_cons, List.reverse_nil, List.nil_append,
      List.singleton_append, Entries.get?]
    split
    · rfl
    · split <;> rfl

/-- What is last written under a name is something else than a primary-key column
when the name is shadowed, and a primary-key column when there is one and it is not. -/
theorem lastPrimary?_iff {lead : String} {columns : List Column}
    (hnames : ∀ column ∈ columns, column.qualifiedName = lead ++ column.name) (name : String) :
    (schema.lastPrimary? columns (lead ++ name) = some false ↔
      schema.shadows name columns = true) ∧
    (schema.lastPrimary? columns (lead ++ name) = some true ↔
      (columns.any fun column => column.name == name && column.isPrimary) = true ∧
        schema.shadows name columns = false) := by
  induction columns with
  | nil => simp [lastPrimary?, written, shadows]
  | cons column rest ih =>
    obtain ⟨hfalse, htrue⟩ := ih fun c hc => hnames c (List.mem_cons_of_mem _ hc)
    have hqualified : column.qualifiedName = lead ++ name ↔ column.name = name := by
      rw [hnames column List.mem_cons_self]
      exact String.append_right_inj lead
    have hbranch : column.branchKey = lead ++ name ↔ column.name ++ "_branch" = name := by
      rw [Column.branchKey, branchKey, hnames column List.mem_cons_self, String.append_assoc]
      exact String.append_right_inj lead
    simp only [lastPrimary?_cons, hqualified, hbranch, shadows, List.any_cons]
    cases hlast : schema.lastPrimary? rest (lead ++ name) with
    | some primary =>
      -- The rest has the last word, and so it has on being shadowed.
      rw [hlast] at hfalse htrue
      cases primary with
      | false =>
        have hshadows := hfalse.1 rfl
        simp [hshadows]
      | true =>
        obtain ⟨hany, hshadows⟩ := htrue.1 rfl
        simp [hany, hshadows]
    | none =>
      rw [hlast] at hfalse htrue
      have hshadows : schema.shadows name rest = false := by
        rw [← Bool.not_eq_true]
        exact fun h => by cases hfalse.2 h
      have hany : (rest.any fun column => column.name == name && column.isPrimary) = false := by
        rw [← Bool.not_eq_true]
        exact fun h => by cases htrue.2 ⟨h, hshadows⟩
      have hapart : column.name ++ "_branch" = name → column.name ≠ name :=
        fun h heq => branchKey_ne column.name (h.trans heq.symm)
      rw [hany, hshadows]
      by_cases hname : column.name = name
      · have hne : ¬ (schema.isLive column = true ∧ column.name ++ "_branch" = name) :=
          fun h => hapart h.2 hname
        cases hprimary : column.isPrimary <;>
          simp_all
      · cases hlive : schema.isLive column <;> simp [hname]

end Schema

/-! ## The key columns of a mounted table -/

theorem Slot.mem_columns_shape {entries : Entries Slot} {c : Column} :
    c ∈ (shape entries).columns ↔ ∃ key, (key, column c) ∈ entries := by
  rw [shape, columns_link, List.mem_filterMap]
  constructor
  · rintro ⟨⟨key, slot⟩, hmem, hslot⟩
    cases slot with
    | column d =>
      cases hslot
      exact ⟨key, hmem⟩
    | branch placed below => cases hslot
  · rintro ⟨key, hmem⟩
    exact ⟨_, hmem, rfl⟩

namespace Shape

theorem qualifiedName_mem_keys {shape : Shape} {column : Column} (h : column ∈ shape.columns) :
    column.qualifiedName ∈ shape.keys := by
  induction shape with
  | nil => cases h
  | leaf other rest ih =>
    rcases List.mem_cons.1 h with rfl | h
    · exact List.mem_cons_self
    · exact List.mem_cons_of_mem _ (ih h)
  | branch other placed inner rest _ ih =>
    rcases List.mem_cons.1 h with rfl | h
    · exact List.mem_cons_self
    · exact List.mem_cons_of_mem _ (List.mem_cons_of_mem _ (ih h))

theorem Keyed.nodup_qualifiedNames {shape : Shape} (h : shape.Keyed) :
    (shape.columns.map Column.qualifiedName).Nodup := by
  have hnew : ∀ {rest : Shape} {column : Column}, column.qualifiedName ∉ rest.keys →
      column.qualifiedName ∉ rest.columns.map Column.qualifiedName := by
    intro rest column hkeys hmem
    obtain ⟨other, hother, heq⟩ := List.mem_map.1 hmem
    exact hkeys (heq ▸ qualifiedName_mem_keys hother)
  induction shape with
  | nil => exact List.nodup_nil
  | leaf column rest ih => exact List.nodup_cons.2 ⟨hnew h.1, ih h.2⟩
  | branch column placed inner rest _ ih => exact List.nodup_cons.2 ⟨hnew h.1, ih h.2.2.2⟩

end Shape

namespace Schema

variable {schema : Schema} {mountBelow : Nat → String → Table → Except SchemaFault Mounted}
  {owner lead front : String} {columns : List Column} {next : Nat} {grown : Grown}

/-- What is found under a key of a mounted table was the last thing written there. -/
theorem get?_entries_mountColumns
    (h : schema.mountColumns mountBelow owner lead next columns = .ok grown) (key : String) :
    (Entries.get? (Entries.ofList grown.entries) key).map Slot.column? =
      (Entries.get? (schema.written columns).reverse key).map fun found =>
        found.map fun column => column.mounted owner lead := by
  rw [Entries.get?_ofList, ← Entries.get?_map, ← Entries.get?_map, List.map_reverse,
    List.map_reverse, map_entries_mountColumns h]

/-- A column of a mounted table is one that was last written under its key. -/
theorem mem_columns_mountColumns
    (h : schema.mountColumns mountBelow owner lead next columns = .ok grown) {column : Column} :
    column ∈ (Slot.shape (Entries.ofList grown.entries)).columns ↔
      ∃ source, Entries.get? (schema.written columns).reverse source.qualifiedName =
        some (some source) ∧ column = source.mounted owner lead := by
  rw [Slot.mem_columns_shape]
  constructor
  · rintro ⟨key, hmem⟩
    have hget := get?_entries_mountColumns h key
    rw [Entries.get?_of_mem (Entries.nodup_keys_ofList _) hmem] at hget
    obtain ⟨found, hfound, heq⟩ := Option.map_eq_some_iff.1 hget.symm
    obtain ⟨source, rfl, rfl⟩ := Option.map_eq_some_iff.1 heq
    have hkey := (mem_written (List.mem_reverse.1 (Entries.mem_of_get? hfound))).2
    exact ⟨source, hkey ▸ hfound, rfl⟩
  · rintro ⟨source, hfound, rfl⟩
    have hget := get?_entries_mountColumns h source.qualifiedName
    rw [hfound] at hget
    obtain ⟨slot, hslot, heq⟩ := Option.map_eq_some_iff.1 hget
    cases slot with
    | column c =>
      cases heq
      exact ⟨_, Entries.mem_of_get? hslot⟩
    | branch placed below => cases heq

/-- The primary key of a mounted table, by the names of its columns. -/
theorem mem_keyColumns_mountColumns
    (h : schema.mountColumns mountBelow owner lead next columns = .ok grown)
    (hnames : ∀ column ∈ columns, column.qualifiedName = front ++ column.name) {name : String} :
    name ∈ (Slot.shape (Entries.ofList grown.entries)).keyColumns.map Column.name ↔
      schema.lastPrimary? columns (front ++ name) = some true := by
  rw [List.mem_map]
  constructor
  · rintro ⟨column, hcolumn, rfl⟩
    obtain ⟨hmem, hprimary⟩ := List.mem_filter.1 hcolumn
    obtain ⟨source, hfound, rfl⟩ := (mem_columns_mountColumns h).1 hmem
    have hsource := (mem_written (List.mem_reverse.1 (Entries.mem_of_get? hfound))).1
    have hkey : front ++ (source.mounted owner lead).name = source.qualifiedName :=
      (hnames source hsource).symm
    rw [hkey, lastPrimary?, hfound]
    exact congrArg some hprimary
  · intro hlast
    obtain ⟨found, hfound, hprimary⟩ := Option.map_eq_some_iff.1 hlast
    cases found with
    | none => cases hprimary
    | some source =>
      obtain ⟨hsource, hkey⟩ := mem_written (List.mem_reverse.1 (Entries.mem_of_get? hfound))
      have hname : name = source.name := by
        rw [hnames source hsource] at hkey
        exact (String.append_right_inj front).1 hkey
      refine ⟨source.mounted owner lead, List.mem_filter.2 ⟨?_, hprimary⟩, hname.symm⟩
      exact (mem_columns_mountColumns h).2 ⟨source, hkey ▸ hfound, rfl⟩

end Schema

end TableApi
