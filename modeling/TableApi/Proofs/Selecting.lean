import TableApi.Proofs.JoinTree

/-!
# What a SELECT answers

A resource lists its tables behind FROM and its joins behind WHERE. A database answers
with the cross product of the tables, filtered by the joins (`Resource.selected`).

The joins lead from the root to each table once, so the answer can be built without
the product: from a row of the root follow each foreign key to the rows that match it
(`Expansion.choices`). `Expansion.filter_product` proves the two equal; it is the one
place that looks at aliases. From it `selects_each_once` reads off that every row of
the root is answered exactly once, if every foreign key has exactly one row to lead to.
-/

namespace TableApi

/-! ## Tables with rows -/

/-- A row of a table: values under the names of its columns. -/
abbrev Record : Type := Entries Json

/-- A column without a value is null. -/
def Record.value (record : Record) (column : String) : Json :=
  (Entries.get? record column).getD .null

/-- The rows of every table, under the names of its database and of the table. -/
structure Store where
  rows : String → String → List Record

/-- The rows of a table do not depend on the alias under which it is mounted. -/
def Store.of (store : Store) (table : Table) : List Record :=
  store.rows table.database table.name

/-- Equality as the database has it: null equals nothing. -/
def Json.sqlEqual (a b : Json) : Bool :=
  a ≠ .null ∧ a = b

/-- The rows of a table that hold a value in a column. -/
def Store.matching (store : Store) (table : Table) (column : String) (value : Json) :
    List Record :=
  (store.of table).filter fun record => value.sqlEqual (record.value column)

/-- One row for each alias. -/
abbrev Choice : Type := Entries Record

/-- The value of a column of the row under an alias. -/
def Choice.value (choice : Choice) (label column : String) : Json :=
  ((Entries.get? choice label).map fun record => record.value column).getD .null

def Join.holds (join : Join) (choice : Choice) : Bool :=
  (choice.value join.leftAlias join.leftColumn).sqlEqual
    (choice.value join.rightAlias join.rightColumn)

/-- The cross product of tables: a row of each, under the alias of the table. -/
def Store.product (store : Store) : List Table → List Choice
  | [] => [[]]
  | table :: rest => (store.of table).flatMap fun record =>
    (store.product rest).map ((table.storageAlias.getD "", record) :: ·)

/-- What the database answers to the SELECT of a resource. -/
def Resource.selected (resource : Resource) (store : Store) : List Choice :=
  (store.product resource.tables).filter fun choice =>
    resource.joins.all fun join => join.holds choice

theorem tableAlias_inj {i j : Nat} : tableAlias i = tableAlias j ↔ i = j := by
  constructor
  · intro h
    have htext : (i + 1).repr = (j + 1).repr := (String.append_right_inj "t").1 h
    have hdigits : Nat.toDigits 10 (i + 1) = Nat.toDigits 10 (j + 1) := by
      rw [← Nat.toList_repr, ← Nat.toList_repr, htext]
    have hread : i + 1 = j + 1 := by
      rw [← Nat.ofDigitChars_ten_toDigits (n := i + 1), hdigits, Nat.ofDigitChars_ten_toDigits]
    omega
  · exact congrArg tableAlias

theorem Json.not_sqlEqual_null (a : Json) : Json.null.sqlEqual a = false := by
  simp [sqlEqual]

theorem Json.sqlEqual_of_ne_null {a b : Json} (h : a ≠ .null) : a.sqlEqual b = decide (b = a) := by
  simp [sqlEqual, h, eq_comm]

namespace Store

variable {store : Store}

theorem matching_null (table : Table) (column : String) :
    store.matching table column .null = [] := by
  simp [matching, Json.not_sqlEqual_null]

theorem mem_of_matching {table : Table} {column : String} {value : Json} {record : Record}
    (h : record ∈ store.matching table column value) : record ∈ store.of table :=
  (List.mem_filter.1 h).1

/-- The product holds exactly the choices of one row per table. -/
theorem mem_product {tables : List Table} {choice : Choice} :
    choice ∈ store.product tables ↔
      List.Forall₂ (fun table entry => entry.1 = table.storageAlias.getD "" ∧
        entry.2 ∈ store.of table) tables choice := by
  induction tables generalizing choice with
  | nil => simp [product]
  | cons table rest ih =>
    simp only [product, List.mem_flatMap, List.mem_map]
    constructor
    · rintro ⟨record, hrecord, others, hothers, rfl⟩
      exact .cons ⟨rfl, hrecord⟩ (ih.1 hothers)
    · rintro (_ | ⟨⟨halias, hrecord⟩, hothers⟩)
      next entry others =>
      refine ⟨entry.2, hrecord, others, ih.2 hothers, ?_⟩
      rw [← halias]

theorem keys_of_mem_product {tables : List Table} {choice : Choice}
    (h : choice ∈ store.product tables) :
    choice.keys = tables.map fun table => table.storageAlias.getD "" := by
  have hrows := mem_product.1 h
  clear h
  induction hrows with
  | nil => rfl
  | cons hentry _ ih =>
    rw [Entries.keys_cons, hentry.1, ih]
    rfl

/-- A row of tables in two parts is a row of the first and a row of the second. -/
theorem product_append (first second : List Table) :
    store.product (first ++ second) = (store.product first).flatMap fun choice =>
      (store.product second).map (choice ++ ·) := by
  induction first with
  | nil => simp [product]
  | cons table rest ih =>
    simp only [List.cons_append, product, ih, List.map_flatMap, List.flatMap_assoc,
      List.flatMap_map, List.map_map]
    rfl

end Store

/-- A join that finds both rows finds the same among more. -/
theorem Join.holds_append {join : Join} {choice : Choice} (others : Choice)
    (hleft : join.leftAlias ∈ choice.keys) (hright : join.rightAlias ∈ choice.keys) :
    join.holds (choice ++ others) = join.holds choice := by
  have hfound : ∀ label ∈ choice.keys,
      Entries.get? (choice ++ others) label = Entries.get? choice label := by
    intro label hmem
    have hsome : (Entries.get? choice label).isSome := (Entries.has_iff _ _).2 hmem
    obtain ⟨record, hrecord⟩ := Option.isSome_iff_exists.1 hsome
    rw [Entries.get?_append, hrecord, Option.some_or]
  rw [holds, Choice.value, Choice.value, hfound _ hleft, hfound _ hright]
  rfl

/-- Going on from those that pass a test is going on from all and stopping at the
others. -/
theorem flatMap_filter_eq {α β : Type} (l : List α) (p : α → Bool) (f : α → List β) :
    (l.filter p).flatMap f = l.flatMap fun a => if p a then f a else [] := by
  induction l with
  | nil => rfl
  | cons a rest ih => cases h : p a <;> simp [h, ih]

/-- A test of a product in two parts, of which the second part does not matter where the
first fails. -/
theorem Store.filter_product_append {store : Store} {first second : List Table}
    {test : Choice → Bool} {early : Choice → Bool} {late : List Choice}
    (h : ∀ choice ∈ store.product first,
      ((store.product second).filter fun others => test (choice ++ others)) =
        if early choice then late else []) :
    (store.product (first ++ second)).filter test =
      ((store.product first).filter early).flatMap fun choice => late.map (choice ++ ·) := by
  rw [product_append, List.filter_flatMap, flatMap_filter_eq]
  refine List.flatMap_congr fun choice hchoice => ?_
  rw [List.filter_map]
  show (List.filter (fun others => test (choice ++ others)) _).map _ = _
  rw [h choice hchoice]
  cases early choice <;> rfl

/-! ## Following foreign keys -/

namespace Expansion

/-- The choices below a row: each foreign key is followed to every row that it
matches. -/
def choices (store : Store) (next : Nat) (record : Record) : Expansion → List Choice
  | nil => [[]]
  | plain _ rest => rest.choices store next record
  | follow source table referenced inner rest =>
    (store.matching table referenced (record.value source.name)).flatMap fun found =>
      (inner.choices store (next + 1) found).flatMap fun below =>
        (rest.choices store (next + 1 + inner.size) record).map fun others =>
          (tableAlias next, found) :: below ++ others

/-- The tables that foreign keys lead to, as they are mounted. -/
def tables (owner next : Nat) (expansion : Expansion) : List Table :=
  (expansion.hops owner next).map fun hop => hop.placed.table

def joins (owner next : Nat) (expansion : Expansion) : List Join :=
  (expansion.hops owner next).map Hop.join

/-- The aliases of the tables that foreign keys lead to. -/
def labels (next : Nat) (expansion : Expansion) : List String :=
  (List.range' next expansion.size).map tableAlias

variable {store : Store} {expansion : Expansion} {owner next : Nat}

theorem keys_of_mem_product {choice : Choice}
    (h : choice ∈ store.product (expansion.tables owner next)) :
    choice.keys = expansion.labels next := by
  rw [Store.keys_of_mem_product h, labels, ← indices_hops expansion owner next, tables,
    List.map_map, List.map_map]
  rfl

theorem tableAlias_mem_labels {index : Nat} :
    tableAlias index ∈ expansion.labels next ↔ next ≤ index ∧ index < next + expansion.size := by
  rw [labels, List.mem_map]
  simp only [List.mem_range'_1, tableAlias_inj, exists_eq_right]

/-- A join equates columns of the first table and of those that foreign keys lead to. -/
theorem aliases_of_mem_joins {join : Join} (h : join ∈ expansion.joins owner next) :
    join.leftAlias ∈ tableAlias owner :: expansion.labels next ∧
      join.rightAlias ∈ expansion.labels next := by
  obtain ⟨hop, hhop, rfl⟩ := List.mem_map.1 h
  clear h
  refine ⟨?_, tableAlias_mem_labels.2 (index_of_mem_hops expansion owner next hhop)⟩
  show tableAlias hop.owner ∈ _
  induction expansion generalizing owner next with
  | nil => cases hhop
  | plain source rest ih => exact ih hhop
  | follow source table referenced inner rest ihInner ihRest =>
    rw [hops, List.cons_append, List.mem_cons, List.mem_append] at hhop
    rcases hhop with rfl | hhop | hhop
    · exact List.mem_cons_self
    · refine List.mem_cons_of_mem _ ?_
      rw [tableAlias_mem_labels, size]
      rcases List.mem_cons.1 (ihInner hhop) with heq | hmem
      · have := tableAlias_inj.1 heq
        omega
      · have := tableAlias_mem_labels.1 hmem
        omega
    · rcases List.mem_cons.1 (ihRest hhop) with heq | hmem
      · exact List.mem_cons.2 (.inl heq)
      · refine List.mem_cons_of_mem _ ?_
        rw [tableAlias_mem_labels, size]
        have := tableAlias_mem_labels.1 hmem
        omega

theorem tables_follow {source : Column} {table : Table} {referenced : String}
    {inner rest : Expansion} :
    (follow source table referenced inner rest).tables owner next =
      (table.placedAt next).table :: (inner.tables next (next + 1) ++
        rest.tables owner (next + 1 + inner.size)) := by
  rw [tables, hops, List.map_append, List.map_cons]
  rfl

theorem joins_follow {source : Column} {table : Table} {referenced : String}
    {inner rest : Expansion} :
    (follow source table referenced inner rest).joins owner next =
      ⟨tableAlias owner, source.name, tableAlias next, referenced⟩ ::
        (inner.joins next (next + 1) ++ rest.joins owner (next + 1 + inner.size)) := by
  rw [joins, hops, List.map_append, List.map_cons]
  rfl

/-- A choice that gets a row under a new alias: what was found in it still is, and the
aliases behind the new one are still free. -/
theorem fresh_append {env : Choice} (found : Record)
    (hfresh : ∀ index, next ≤ index → tableAlias index ∉ env.keys) :
    Entries.get? (env ++ [(tableAlias next, found)]) (tableAlias next) = some found ∧
      ∀ index, next + 1 ≤ index →
        tableAlias index ∉ Entries.keys (env ++ [(tableAlias next, found)]) := by
  have hnext : Entries.get? env (tableAlias next) = none :=
    (Entries.get?_eq_none_iff _ _).2 (hfresh next (Nat.le_refl next))
  constructor
  · rw [Entries.get?_append, hnext, Option.none_or, Entries.get?_cons, if_pos rfl]
  · intro index hindex hmem
    rw [Entries.keys, List.map_append, List.mem_append] at hmem
    rcases hmem with hmem | hmem
    · exact hfresh index (by omega) hmem
    · have heq : index = next := tableAlias_inj.1 (List.mem_singleton.1 hmem)
      omega

/-- The joins below a row find both of their rows without those of other foreign keys. -/
theorem holds_below {inner : Expansion} {found : Record} {env below : Choice}
    (hfound : Entries.get? env (tableAlias next) = some found)
    (hkeys : below.keys = inner.labels (next + 1)) (others : Choice) :
    ∀ join ∈ inner.joins next (next + 1),
      join.holds (env ++ (below ++ others)) = join.holds (env ++ below) := by
  intro join hjoin
  obtain ⟨hleft, hright⟩ := aliases_of_mem_joins hjoin
  rw [← hkeys] at hleft hright
  have hmem : ∀ label ∈ tableAlias next :: Entries.keys below,
      label ∈ Entries.keys (env ++ below) := by
    intro label hlabel
    rw [Entries.keys, List.map_append, List.mem_append]
    rcases List.mem_cons.1 hlabel with rfl | hlabel
    · exact .inl (List.mem_map_of_mem (Entries.mem_of_get? hfound))
    · exact .inr hlabel
  rw [← List.append_assoc]
  exact Join.holds_append others (hmem _ hleft) (hmem _ (List.mem_cons_of_mem _ hright))

/-- Behind a row and one that it leads to, the tables below the latter and those of the
other foreign keys are filtered one after the other. -/
theorem filter_product_append {inner rest : Expansion} {found : Record} {env : Choice}
    {late : List Choice} (hfound : Entries.get? env (tableAlias next) = some found)
    (hlate : ∀ below : Choice, below.keys = inner.labels (next + 1) →
      ((store.product (rest.tables owner (next + 1 + inner.size))).filter fun others =>
        (rest.joins owner (next + 1 + inner.size)).all fun join =>
          join.holds (env ++ below ++ others)) = late) :
    ((store.product (inner.tables next (next + 1) ++
        rest.tables owner (next + 1 + inner.size))).filter fun choice =>
          (inner.joins next (next + 1) ++ rest.joins owner (next + 1 + inner.size)).all
            fun join => join.holds (env ++ choice)) =
      ((store.product (inner.tables next (next + 1))).filter fun below =>
        (inner.joins next (next + 1)).all fun join => join.holds (env ++ below)).flatMap
          fun below => late.map (below ++ ·) := by
  refine Store.filter_product_append fun below hbelow => ?_
  have hkeys := keys_of_mem_product hbelow
  have htest : ∀ others : Choice,
      ((inner.joins next (next + 1) ++ rest.joins owner (next + 1 + inner.size)).all fun join =>
        join.holds (env ++ (below ++ others))) =
      (((inner.joins next (next + 1)).all fun join => join.holds (env ++ below)) &&
        (rest.joins owner (next + 1 + inner.size)).all fun join =>
          join.holds (env ++ below ++ others)) := by
    intro others
    have hearly : ((inner.joins next (next + 1)).all fun join =>
        join.holds (env ++ (below ++ others))) =
          (inner.joins next (next + 1)).all fun join => join.holds (env ++ below) := by
      rw [Bool.eq_iff_iff, List.all_eq_true, List.all_eq_true]
      exact forall₂_congr fun join hjoin => by rw [holds_below hfound hkeys others join hjoin]
    rw [List.all_append, List.append_assoc, hearly]
  simp only [htest]
  cases ((inner.joins next (next + 1)).all fun join => join.holds (env ++ below)) with
  | false => simp
  | true => simpa only [Bool.true_and, if_true] using hlate below hkeys

/-- **Following is filtering.** Behind a row of the first table, the choices that satisfy
the joins are those that follow its foreign keys. -/
theorem filter_product {record : Record} {env : Choice}
    (howner : Entries.get? env (tableAlias owner) = some record)
    (hfresh : ∀ index, next ≤ index → tableAlias index ∉ env.keys) :
    ((store.product (expansion.tables owner next)).filter fun choice =>
        (expansion.joins owner next).all fun join => join.holds (env ++ choice)) =
      expansion.choices store next record := by
  -- `env` holds the rows chosen so far; each row that is found is added to it.
  induction expansion generalizing owner next record env with
  | nil => rfl
  | plain source rest ih => exact ih howner hfresh
  | follow source table referenced inner rest ihInner ihRest =>
    rw [tables_follow, joins_follow, choices, Store.product, List.filter_flatMap, Store.matching,
      flatMap_filter_eq]
    refine List.flatMap_congr fun found _ => ?_
    obtain ⟨hfound, hfresh'⟩ := fresh_append found hfresh
    have howner' : Entries.get? (env ++ [(tableAlias next, found)]) (tableAlias owner) =
        some record := by rw [Entries.get?_append, howner, Option.some_or]
    have hmoved : ∀ choice : Choice, env ++ (tableAlias next, found) :: choice =
        env ++ [(tableAlias next, found)] ++ choice := by simp
    generalize env ++ [(tableAlias next, found)] = env' at hfound hfresh' howner' hmoved
    have hown : ∀ choice : Choice,
        (⟨tableAlias owner, source.name, tableAlias next, referenced⟩ : Join).holds
            (env' ++ choice) = (record.value source.name).sqlEqual (found.value referenced) := by
      intro choice
      simp only [Join.holds, Choice.value, Entries.get?_append, howner', hfound, Option.some_or]
      rfl
    have hlate : ∀ below : Choice, below.keys = inner.labels (next + 1) →
        ((store.product (rest.tables owner (next + 1 + inner.size))).filter fun others =>
          (rest.joins owner (next + 1 + inner.size)).all fun join =>
            join.holds (env' ++ below ++ others)) =
          rest.choices store (next + 1 + inner.size) record := by
      intro below hkeys
      refine ihRest (by rw [Entries.get?_append, howner', Option.some_or]) ?_
      intro index hindex hmem
      rw [Entries.keys, List.map_append, List.mem_append] at hmem
      rcases hmem with hmem | hmem
      · exact hfresh' index (by omega) hmem
      · have hlabel : tableAlias index ∈ inner.labels (next + 1) := hkeys ▸ hmem
        have hsmall := tableAlias_mem_labels.1 hlabel
        omega
    rw [List.filter_map]
    show List.map _ (List.filter (fun choice : Choice => List.all (_ :: _) fun join : Join =>
      join.holds (env ++ (tableAlias next, found) :: choice)) _) = _
    simp only [hmoved, List.all_cons, hown]
    cases (record.value source.name).sqlEqual (found.value referenced) with
    | false => simp
    | true =>
      simp only [Bool.true_and, if_true]
      rw [filter_product_append hfound hlate, ihInner hfound hfresh', List.map_flatMap]
      simp only [List.map_map]
      rfl

/-- Every foreign key leads from a row to exactly one, and so on from there. -/
def Unbroken (store : Store) (record : Record) : Expansion → Prop
  | nil => True
  | plain _ rest => rest.Unbroken store record
  | follow source table referenced inner rest =>
    (∃ found, store.matching table referenced (record.value source.name) = [found] ∧
      inner.Unbroken store found) ∧ rest.Unbroken store record

/-- Behind a row from which every foreign key leads to one there is one choice. -/
theorem choices_of_unbroken {record : Record} (h : expansion.Unbroken store record) :
    ∃ choice, expansion.choices store next record = [choice] := by
  induction expansion generalizing next record with
  | nil => exact ⟨[], rfl⟩
  | plain source rest ih => exact ih h
  | follow source table referenced inner rest ihInner ihRest =>
    obtain ⟨⟨found, hfound, hinner⟩, hrest⟩ := h
    obtain ⟨below, hbelow⟩ := ihInner hinner
    obtain ⟨others, hothers⟩ := ihRest hrest
    refine ⟨(tableAlias next, found) :: below ++ others, ?_⟩
    rw [choices, hfound, List.flatMap_singleton, hbelow, List.flatMap_singleton, hothers]
    rfl

/-- Behind a row whose first foreign key leads to one row there are choices when there are
some behind that row and some for the other foreign keys. -/
theorem choices_follow_ne_nil {source : Column} {table : Table} {referenced : String}
    {inner rest : Expansion} {record found : Record}
    (hfound : store.matching table referenced (record.value source.name) = [found]) :
    (follow source table referenced inner rest).choices store next record ≠ [] ↔
      inner.choices store (next + 1) found ≠ [] ∧
        rest.choices store (next + 1 + inner.size) record ≠ [] := by
  rw [choices, hfound, List.flatMap_singleton]
  cases inner.choices store (next + 1) found with
  | nil => simp
  | cons below others => cases rest.choices store (next + 1 + inner.size) record <;> simp

/-- The choices that begin with a row of the root. -/
def answers (store : Store) (expansion : Expansion) (record : Record) : List Choice :=
  (expansion.choices store 1 record).map ((tableAlias 0, record) :: ·)

theorem get?_root (record : Record) (choice : Choice) :
    Entries.get? ((tableAlias 0, record) :: choice) (tableAlias 0) = some record := by
  rw [Entries.get?_cons, if_pos rfl]

theorem root_of_mem_answers {record : Record} {choice : Choice}
    (h : choice ∈ expansion.answers store record) :
    Entries.get? choice (tableAlias 0) = some record := by
  obtain ⟨others, -, rfl⟩ := List.mem_map.1 h
  exact get?_root record others

theorem answers_of_unbroken {record : Record} (h : expansion.Unbroken store record) :
    ∃ choice, expansion.answers store record = [choice] := by
  obtain ⟨others, hothers⟩ : ∃ others, expansion.choices store 1 record = [others] :=
    choices_of_unbroken h
  exact ⟨(tableAlias 0, record) :: others, by rw [answers, hothers, List.map_singleton]⟩

end Expansion

/-! ## What is answered -/

namespace Resource

variable {schema : Schema} {root : Table} {resource : Resource} {expansion : Expansion}
  {store : Store}

theorem tables_cons (h : resource.toMounted = expansion.mounted root 0 []) :
    resource.tables = (root.placedAt 0).table :: expansion.tables 0 1 :=
  tables_eq h

theorem joins_expansion (h : resource.toMounted = expansion.mounted root 0 []) :
    resource.joins = expansion.joins 0 1 :=
  joins_eq h

/-- What the database answers is found by following foreign keys from each row of the
root. -/
theorem selected_eq (h : resource.toMounted = expansion.mounted root 0 []) :
    resource.selected store = (store.of root).flatMap (expansion.answers store) := by
  rw [selected, tables_cons h, joins_expansion h, Store.product, List.filter_flatMap]
  refine List.flatMap_congr fun record _ => ?_
  have hfresh : ∀ index, 1 ≤ index → tableAlias index ∉ Entries.keys [(tableAlias 0, record)] := by
    intro index hindex hmem
    have hzero : index = 0 := tableAlias_inj.1 (List.mem_singleton.1 hmem)
    omega
  rw [Expansion.answers, ← Expansion.filter_product (Expansion.get?_root _ _) hfresh,
    List.filter_map]
  rfl

/-- What is answered is one row for each table, such that every join holds. -/
theorem mem_selected_iff {choice : Choice} :
    choice ∈ resource.selected store ↔
      List.Forall₂ (fun table entry => entry.1 = table.storageAlias.getD "" ∧
        entry.2 ∈ store.of table) resource.tables choice ∧
      ∀ join ∈ resource.joins, join.holds choice = true := by
  rw [selected, List.mem_filter, Store.mem_product, List.all_eq_true]

/-- A row of the root is answered when the database extends it by rows of the other
tables. -/
def Answered (resource : Resource) (store : Store) (record : Record) : Prop :=
  ∃ choice ∈ resource.selected store, Entries.get? choice (tableAlias 0) = some record

/-- A row of the root is answered exactly when there are choices behind it. -/
theorem answered_iff_choices (h : resource.toMounted = expansion.mounted root 0 [])
    {record : Record} (hrecord : record ∈ store.of root) :
    resource.Answered store record ↔ expansion.choices store 1 record ≠ [] := by
  rw [Answered, selected_eq h]
  constructor
  · rintro ⟨choice, hchoice, hthis⟩
    obtain ⟨other, -, hanswer⟩ := List.mem_flatMap.1 hchoice
    obtain rfl : other = record := by
      rw [Expansion.root_of_mem_answers hanswer] at hthis
      exact Option.some.inj hthis
    obtain ⟨others, hmem, -⟩ := List.mem_map.1 hanswer
    exact List.ne_nil_of_mem hmem
  · intro hchoices
    obtain ⟨others, hmem⟩ := List.exists_mem_of_ne_nil _ hchoices
    refine ⟨(tableAlias 0, record) :: others, List.mem_flatMap.2 ⟨record, hrecord, ?_⟩,
      Expansion.get?_root _ _⟩
    exact List.mem_map_of_mem hmem

/-- Each row of a table has in the column of each join a value, and exactly one row of
the table that the join leads to has it in the column that is referenced. -/
def Matched (resource : Resource) (store : Store) : Prop :=
  ∀ join ∈ resource.joins, ∀ left ∈ resource.tables, ∀ right ∈ resource.tables,
    left.storageAlias = some join.leftAlias → right.storageAlias = some join.rightAlias →
      ∀ record ∈ store.of left, record.value join.leftColumn ≠ .null ∧
        ((store.of right).countP fun found =>
          found.value join.rightColumn = record.value join.leftColumn) = 1

instance : Decidable (resource.Matched store) :=
  inferInstanceAs (Decidable (∀ join ∈ resource.joins, _))

/-- Where every join has its match, no row breaks off. -/
theorem Matched.unbroken (hmatched : resource.Matched store) {owner next : Nat} {table : Table}
    (howner : (table.placedAt owner).table ∈ resource.tables)
    (htables : expansion.tables owner next ⊆ resource.tables)
    (hjoins : expansion.joins owner next ⊆ resource.joins) {record : Record}
    (hrecord : record ∈ store.of table) : expansion.Unbroken store record := by
  induction expansion generalizing owner next table record with
  | nil => exact True.intro
  | plain source rest ih => exact ih howner htables hjoins hrecord
  | follow source target referenced inner rest ihInner ihRest =>
    rw [Expansion.tables_follow, List.cons_subset, List.append_subset] at htables
    rw [Expansion.joins_follow, List.cons_subset, List.append_subset] at hjoins
    obtain ⟨htarget, hinnerTables, hrestTables⟩ := htables
    obtain ⟨hjoin, hinnerJoins, hrestJoins⟩ := hjoins
    obtain ⟨hvalue, hcount⟩ := hmatched _ hjoin _ howner _ htarget rfl rfl record hrecord
    have hone : (store.matching target referenced (record.value source.name)).length = 1 := by
      rw [Store.matching, ← List.countP_eq_length_filter]
      simp only [Json.sqlEqual_of_ne_null hvalue]
      exact hcount
    obtain ⟨found, hfound⟩ := List.length_eq_one_iff.1 hone
    have hmem : found ∈ store.of target :=
      Store.mem_of_matching (hfound ▸ List.mem_singleton.2 rfl)
    exact ⟨⟨found, hfound, ihInner htarget hinnerTables hinnerJoins hmem⟩,
      ihRest howner hrestTables hrestJoins hrecord⟩

/-- **A SELECT answers each row of the root once.** Where every row of a table has for
each join exactly one row that matches it, the rows of the root are what the database
answers, each extended by one row of every other table in exactly one way. -/
theorem selects_each_once (hcompile : compile schema root = .ok resource)
    (hmatched : resource.Matched store) :
    (resource.selected store).map (fun choice => Entries.get? choice (tableAlias 0)) =
        (store.of root).map some ∧
      ∀ record ∈ store.of root, ∃! choice, choice ∈ resource.selected store ∧
        Entries.get? choice (tableAlias 0) = some record := by
  obtain ⟨expansion, -, hmounted, -⟩ := mounted_of_compile hcompile
  have htables := tables_cons hmounted
  have hjoins : expansion.joins 0 1 ⊆ resource.joins := by
    rw [joins_expansion hmounted]
    exact List.Subset.refl _
  have hone : ∀ record ∈ store.of root, ∃ choice, expansion.answers store record = [choice] := by
    intro record hrecord
    refine Expansion.answers_of_unbroken (hmatched.unbroken ?_ ?_ hjoins hrecord)
    · rw [htables]
      exact List.mem_cons_self
    · rw [htables]
      exact List.subset_cons_self _ _
  rw [selected_eq hmounted]
  constructor
  · rw [List.map_flatMap, List.map_eq_flatMap]
    refine List.flatMap_congr fun record hrecord => ?_
    obtain ⟨choice, hchoice⟩ := hone record hrecord
    have hroot := Expansion.root_of_mem_answers (hchoice ▸ List.mem_singleton.2 rfl)
    rw [hchoice, List.map_singleton, hroot]
  · intro record hrecord
    obtain ⟨choice, hchoice⟩ := hone record hrecord
    have hmem : choice ∈ expansion.answers store record := hchoice ▸ List.mem_singleton.2 rfl
    refine ⟨choice, ⟨List.mem_flatMap.2 ⟨record, hrecord, hmem⟩,
      Expansion.root_of_mem_answers hmem⟩, ?_⟩
    rintro other ⟨hother, hthis⟩
    obtain ⟨record', -, hother⟩ := List.mem_flatMap.1 hother
    obtain rfl : record' = record := by
      rw [Expansion.root_of_mem_answers hother] at hthis
      exact Option.some.inj hthis
    rw [hchoice] at hother
    exact List.mem_singleton.1 hother

end Resource

/-- Two orders of one customer, one of them shipped to where the customer lives. -/
def addressedRows : Store where
  rows
    | "shop", "addresses" => [[("id", .int 1), ("city", .str "Ulm")], [("id", .int 2)]]
    | "shop", "customers" => [[("id", .int 5), ("address_id", .int 1)]]
    | "shop", "orders" => [
      [("id", .int 8), ("customer_id", .int 5), ("shipping_id", .int 1)],
      [("id", .int 9), ("customer_id", .int 5), ("shipping_id", .int 2)]]
    | _, _ => []

/-- Both orders are answered once, although one address is found twice. -/
theorem orders_each_once :
    Resource.compile (addressedShop.toSchema [] []) addressedTable = .ok addressedOrder ∧
      addressedOrder.Matched addressedRows ∧
      (addressedOrder.selected addressedRows).map (fun choice => Entries.get? choice "t1") =
        (addressedRows.of addressedTable).map some := by
  have hcompile : Resource.compile (addressedShop.toSchema [] []) addressedTable =
      .ok addressedOrder := eq_ok_get _
  have hmatched : addressedOrder.Matched addressedRows := by decide +kernel
  exact ⟨hcompile, hmatched, (Resource.selects_each_once hcompile hmatched).1⟩

end TableApi
