import TableApi.Proofs.Packing.Supplied
import Mathlib.Data.List.Perm.Basic

/-!
# Names that mean one column

A filter and an order name a column of the row by its display name or by an alias, and the
first column of that name is taken. Nothing hangs on which comes first: a resource is
compiled only if no text names the columns at two places of its row, and it is refused as
ambiguous in no other case (`Resource.names_unambiguous`).

The scan goes from column to later column (`sharedName?`). That names overlap is mutual, so
no pair is missed (`sharedName?_eq_none_iff`), and the name that is reported is the primary
name of the earlier column of a pair (`shareName_of_sharedName?`).
-/

namespace TableApi

/-- A text names the columns at two places of a list. -/
def ShareName (columns : List Column) (first second : Nat) : Prop :=
  ∃ column other text, columns[first]? = some column ∧ columns[second]? = some other ∧
    column.displayName.matchesText text = true ∧ other.displayName.matchesText text = true

/-! ## The scan for a shared name -/

/-- No name is found exactly when no column shares one with a later column. -/
theorem sharedName?_eq_none_iff {columns : List Column} :
    sharedName? columns = none ↔ columns.Pairwise fun column other =>
      column.displayName.overlaps other.displayName = false := by
  refine ⟨pairwise_of_sharedName?, fun h => ?_⟩
  induction h with
  | nil => rfl
  | cons hapart _ ih =>
    rw [sharedName?, if_neg, ih]
    simpa using hapart

/-- A name that is found is the primary name of a column that shares one with a later
column. -/
theorem shareName_of_sharedName? {columns : List Column} {shared : String}
    (h : sharedName? columns = some shared) :
    ∃ first second column, first < second ∧ ShareName columns first second ∧
      columns[first]? = some column ∧ column.displayName.primary = shared := by
  induction columns with
  | nil => cases h
  | cons column rest ih =>
    rw [sharedName?] at h
    split at h
    · next hany =>
      obtain ⟨other, hother, hoverlap⟩ := List.any_eq_true.1 hany
      obtain ⟨text, hcolumn, hlater⟩ := (Name.overlaps_iff _ _).1 hoverlap
      obtain ⟨place, hplace⟩ := List.mem_iff_getElem?.1 hother
      exact ⟨0, place + 1, column, Nat.succ_pos place,
        ⟨column, other, text, rfl, hplace, hcolumn, hlater⟩, rfl, Option.some.inj h⟩
    · obtain ⟨first, second, found, hlt, ⟨one, other, text, hone, hother, hnamed⟩, hfound⟩ := ih h
      exact ⟨first + 1, second + 1, found, Nat.succ_lt_succ hlt,
        ⟨one, other, text, hone, hother, hnamed⟩, hfound⟩

/-- Where no column shares a name with a later one, a text names the columns of at most one
place. -/
theorem eq_of_shareName {columns : List Column} (h : columns.Pairwise fun column other =>
      column.displayName.overlaps other.displayName = false)
    {first second : Nat} (hshare : ShareName columns first second) : first = second := by
  obtain ⟨column, other, text, hcolumn, hother, hnamed, hnamed'⟩ := hshare
  obtain ⟨hfirst, rfl⟩ := List.getElem?_eq_some_iff.1 hcolumn
  obtain ⟨hsecond, rfl⟩ := List.getElem?_eq_some_iff.1 hother
  rw [List.pairwise_iff_getElem] at h
  rcases Nat.lt_trichotomy first second with hlt | heq | hlt
  · rw [Name.not_matchesText_of_apart (h first second hfirst hsecond hlt) hnamed] at hnamed'
    cases hnamed'
  · exact heq
  · rw [Name.not_matchesText_of_apart (h second first hsecond hfirst hlt) hnamed'] at hnamed
    cases hnamed

/-- What a text finds among such columns does not depend on their order. -/
theorem find?_of_perm {columns others : List Column} (h : columns.Pairwise fun column other =>
      column.displayName.overlaps other.displayName = false)
    (hperm : others.Perm columns) (name : String) :
    others.find? (fun column => column.displayName.matchesText name) =
      columns.find? fun column => column.displayName.matchesText name := by
  have hothers : others.Pairwise fun column other =>
      column.displayName.overlaps other.displayName = false :=
    (hperm.pairwise_iff fun {_ _} hapart => (Name.overlaps_comm _ _).trans hapart).2 h
  ext column
  rw [Name.find?_eq_some_iff h, Name.find?_eq_some_iff hothers, hperm.mem_iff]

namespace Resource

variable {schema : Schema} {root : Table} {mounted : Mounted}

/-- A mounted table that has columns makes a resource unless two of them share a name. -/
theorem ofMounted_eq (hcolumns : (Resource.mk mounted).columns ≠ []) :
    ofMounted mounted = match sharedName? (Resource.mk mounted).columns with
      | some shared => .error (.ambiguousName mounted.root.table.resourceName shared)
      | none => .ok ⟨mounted⟩ := by
  have hsome : (Resource.mk mounted).shape.leaves.isEmpty = false :=
    Bool.eq_false_iff.2 fun hempty => hcolumns (List.isEmpty_iff.1 hempty)
  rw [ofMounted, hsome]
  rfl

/-- Such a table is refused as ambiguous exactly for the name that the scan finds. -/
theorem compile_eq_ambiguous_iff (hroot : (schema.table? root.qualifiedName).isSome = true)
    (hmounted : schema.mountTable (maxHops + 1) [] 0 "" root = .ok mounted)
    (hcolumns : (Resource.mk mounted).columns ≠ []) (name shared : String) :
    compile schema root = .error (.ambiguousName name shared) ↔
      name = root.resourceName ∧ sharedName? (Resource.mk mounted).columns = some shared := by
  obtain ⟨-, -, _, _, -, -, rfl⟩ := Schema.mountTable_ok hmounted
  have hfound : (schema.table? root.qualifiedName).isNone = false := by
    rw [← Option.not_isSome, hroot]
    rfl
  rw [compile, hfound, hmounted]
  show ofMounted _ = _ ↔ _
  rw [ofMounted_eq hcolumns]
  cases sharedName? (Resource.columns _) with
  | none => simp
  | some found => simp [Table.resourceName, eq_comm]

/-- **Names mean one column.** In a compiled resource a text names the column of at most one
place, so that it finds a column exactly if it is a name of it, in whatever order the columns
stand. A root that can be mounted and has columns is refused as ambiguous exactly if some
text names the columns of two places, and what is reported is the primary name of one of two
such columns. -/
theorem names_unambiguous (schema : Schema) (root : Table) :
    (∀ resource, compile schema root = .ok resource →
      (∀ first second, ShareName resource.columns first second → first = second) ∧
      (∀ name column, resource.column? name = some column ↔
        column ∈ resource.columns ∧ column.displayName.matchesText name = true) ∧
      ∀ columns : List Column, columns.Perm resource.columns → ∀ name,
        columns.find? (fun column => column.displayName.matchesText name) =
          resource.column? name) ∧
    (∀ mounted, (schema.table? root.qualifiedName).isSome = true →
      schema.mountTable (maxHops + 1) [] 0 "" root = .ok mounted →
      (Resource.mk mounted).columns ≠ [] →
      ((∃ name shared, compile schema root = .error (.ambiguousName name shared)) ↔
        ∃ first second, first ≠ second ∧ ShareName (Resource.mk mounted).columns first second) ∧
      ∀ name shared, compile schema root = .error (.ambiguousName name shared) →
        name = root.resourceName ∧
          ∃ first second column, first ≠ second ∧
            ShareName (Resource.mk mounted).columns first second ∧
            (Resource.mk mounted).columns[first]? = some column ∧
            column.displayName.primary = shared) := by
  constructor
  · intro resource hcompile
    have hapart := leaves_apart hcompile
    exact ⟨fun _ _ hshare => eq_of_shareName hapart hshare,
      fun _ _ => Name.find?_eq_some_iff hapart,
      fun _ hperm name => find?_of_perm hapart hperm name⟩
  · intro mounted hroot hmounted hcolumns
    have hreport := compile_eq_ambiguous_iff hroot hmounted hcolumns
    refine ⟨⟨?_, ?_⟩, ?_⟩
    · rintro ⟨name, shared, hrefused⟩
      obtain ⟨-, hscan⟩ := (hreport name shared).1 hrefused
      obtain ⟨first, second, _, hlt, hshare, -⟩ := shareName_of_sharedName? hscan
      exact ⟨first, second, Nat.ne_of_lt hlt, hshare⟩
    · rintro ⟨first, second, hne, hshare⟩
      cases hscan : sharedName? (Resource.mk mounted).columns with
      | none => exact absurd (eq_of_shareName (sharedName?_eq_none_iff.1 hscan) hshare) hne
      | some shared => exact ⟨root.resourceName, shared, (hreport _ _).2 ⟨rfl, hscan⟩⟩
    · intro name shared hrefused
      obtain ⟨hname, hscan⟩ := (hreport name shared).1 hrefused
      obtain ⟨first, second, column, hlt, hshare, hcolumn, hprimary⟩ :=
        shareName_of_sharedName? hscan
      exact ⟨hname, first, second, column, Nat.ne_of_lt hlt, hshare, hcolumn, hprimary⟩

end Resource

/-! ## Two names for a customer -/

/-- An order refers to a customer, who has a name, and keeps the name of the customer at the
time of the order in a column of its own. -/
def renamingShop : Catalog where
  databases := ["shop"]
  tables := [("shop", "customers"), ("shop", "orders")]
  columns := [
    ⟨"shop", "customers", "id", "int(11)", false, "PRI", false⟩,
    ⟨"shop", "customers", "name", "varchar(64)", false, "", false⟩,
    ⟨"shop", "orders", "id", "int(11)", false, "PRI", false⟩,
    ⟨"shop", "orders", "customer_id", "int(11)", false, "MUL", false⟩,
    ⟨"shop", "orders", "customer_id_name", "varchar(64)", false, "", false⟩]
  links := [⟨⟨"shop", "orders", "customer_id"⟩, ⟨"shop", "customers", "id"⟩⟩]

def renamingSchema : Schema :=
  renamingShop.toSchema [] []

def renamingCustomers : Table :=
  (renamingSchema.table? "shop.customers").getD default

def renamingOrders : Table :=
  (renamingSchema.table? "shop.orders").getD default

def renamingMounted : Mounted :=
  (renamingSchema.mountTable (maxHops + 1) [] 0 "" renamingOrders).toOption.get
    (by decide +kernel)

/-- What `name` finds among customers does not depend on the order of their columns. Orders
are refused, since the name of the customer is named at two places of their rows. -/
theorem customer_names_confused :
    (∃ resource, Resource.compile renamingSchema renamingCustomers = .ok resource ∧
      resource.columns.reverse.find? (fun column => column.displayName.matchesText "name") =
        resource.column? "name") ∧
    (renamingSchema.table? renamingOrders.qualifiedName).isSome = true ∧
    renamingSchema.mountTable (maxHops + 1) [] 0 "" renamingOrders = .ok renamingMounted ∧
    (Resource.mk renamingMounted).columns.map (fun column => column.displayName.primary) =
      ["id", "customer_id_id", "customer_id_name", "customer_id_name"] ∧
    ∃ name shared, Resource.compile renamingSchema renamingOrders =
        .error (.ambiguousName name shared) ∧
      name = "shop_orders" ∧ ∃ first second column, first ≠ second ∧
        ShareName (Resource.mk renamingMounted).columns first second ∧
        (Resource.mk renamingMounted).columns[first]? = some column ∧
        column.displayName.primary = shared := by
  have hcompile : Resource.compile renamingSchema renamingCustomers = .ok _ :=
    eq_ok_get (by decide +kernel)
  have hroot : (renamingSchema.table? renamingOrders.qualifiedName).isSome = true := by
    decide +kernel
  have hmounted : renamingSchema.mountTable (maxHops + 1) [] 0 "" renamingOrders =
      .ok renamingMounted := eq_ok_get _
  have hnames : (Resource.mk renamingMounted).columns.map
      (fun column => column.displayName.primary) =
        ["id", "customer_id_id", "customer_id_name", "customer_id_name"] := by
    decide +kernel
  have hcolumns : (Resource.mk renamingMounted).columns ≠ [] := fun hnone => by
    rw [hnone] at hnames
    cases hnames
  have hshare : ShareName (Resource.mk renamingMounted).columns 2 3 := by
    have hplaces : ∃ column other, (Resource.mk renamingMounted).columns[2]? = some column ∧
        (Resource.mk renamingMounted).columns[3]? = some other ∧
        column.displayName.matchesText "customer_id_name" = true ∧
        other.displayName.matchesText "customer_id_name" = true := by
      refine ⟨_, _, List.getElem?_eq_getElem ?_, List.getElem?_eq_getElem ?_, ?_, ?_⟩ <;>
        decide +kernel
    obtain ⟨column, other, hplaces⟩ := hplaces
    exact ⟨column, other, "customer_id_name", hplaces⟩
  obtain ⟨hrefused, hreport⟩ := (Resource.names_unambiguous renamingSchema renamingOrders).2
    renamingMounted hroot hmounted hcolumns
  obtain ⟨name, shared, hfault⟩ := hrefused.2 ⟨2, 3, by decide, hshare⟩
  refine ⟨⟨_, hcompile, ?_⟩, hroot, hmounted, hnames, name, shared, hfault, hreport _ _ hfault⟩
  exact ((Resource.names_unambiguous renamingSchema renamingCustomers).1 _ hcompile).2.2 _
    (List.reverse_perm _) "name"

end TableApi
