import TableApi.Proofs.Introspection.Kept

/-!
# Aliases mean one thing

Settings are checked on paths: the aliases of a column are compared behind the path of its
table, all others as they stand. A schema has its names elsewhere, on the tables and columns
that the same paths lead to. Where no name holds a dot, the two agree: a subject's entry
answers to every name of the table or column, behind its scope. So in a schema under accepted
settings no two tables that are subjects share a name, and no two columns of one table
(`Settings.accepted_unambiguous`).
-/

namespace TableApi

/-! ## Paths and their words -/

namespace Text

/-- The words between the dots make the text again. -/
theorem intercalate_split (text : String) : ".".intercalate (split '.' text) = text := by
  have hwords : (split '.' text).map String.toList = text.toList.splitOn '.' := by
    simp [split, Function.comp_def]
  rw [← String.toList_inj, String.toList_intercalate, hwords]
  exact List.intercalate_splitOn '.'

/-- Words without dots are found between the dots again. -/
theorem split_intercalate {words : List String} (hne : words ≠ [])
    (hwords : ∀ word ∈ words, '.' ∉ word.toList) : split '.' (".".intercalate words) = words := by
  have hchars : ∀ word ∈ words.map String.toList, '.' ∉ word := by
    simpa using hwords
  have hdot : ".".toList = ['.'] := rfl
  rw [split, String.toList_intercalate, hdot, List.splitOn_intercalate '.' hchars (by simpa using hne),
    List.map_map]
  simp [Function.comp_def]

end Text

namespace Settings

/-- A word of a path: letters, digits, `_` and `$`, at least one of them. -/
structure IsWord (word : String) : Prop where
  nonempty : word ≠ ""
  chars : ∀ c ∈ word.toList, c.isAlphanum = true ∨ c = '_' ∨ c = '$'

/-- A path is one to three words between dots. -/
theorem isPath_iff {text : String} :
    isPath text = true ↔ ∃ words : List String, words ≠ [] ∧ words.length ≤ 3 ∧
      (∀ word ∈ words, IsWord word) ∧ text = ".".intercalate words := by
  have hword : ∀ word : String, (!word.toList.isEmpty && word.toList.all isWordChar) = true ↔
      IsWord word := by
    intro word
    simp only [isWordChar, Bool.and_eq_true, Bool.not_eq_true', List.isEmpty_eq_false_iff, ne_eq,
      String.toList_eq_nil_iff, List.all_eq_true, Bool.or_eq_true, beq_iff_eq, or_assoc]
    exact ⟨fun h => ⟨h.1, h.2⟩, fun h => ⟨h.nonempty, h.chars⟩⟩
  have hpath : isPath text = true ↔
      (Text.split '.' text).length ≤ 3 ∧ ∀ word ∈ Text.split '.' text, IsWord word := by
    simp only [isPath, Text.split, Bool.and_eq_true, decide_eq_true_iff, List.length_map,
      List.forall_mem_map, ← hword, String.toList_ofList, List.all_eq_true]
  rw [hpath]
  constructor
  · rintro ⟨hlength, hwords⟩
    refine ⟨Text.split '.' text, ?_, hlength, hwords, (Text.intercalate_split text).symm⟩
    exact mt List.map_eq_nil_iff.1 (List.splitOn_ne_nil '.' text.toList)
  · rintro ⟨words, hne, hlength, hwords, rfl⟩
    -- A dot is no character of a word, so the words are found again.
    have hdots : ∀ word ∈ words, '.' ∉ word.toList := by
      intro word hword hdot
      have hchar := (hwords word hword).chars '.' hdot
      revert hchar
      decide
    rw [Text.split_intercalate hne hdots]
    exact ⟨hlength, hwords⟩

/-! ## What is accepted -/

theorem subjects_of_checkPolicies {policies : List AccessPolicy} {seen : List String}
    (h : checkPolicies seen policies = .ok ()) :
    (∀ policy ∈ policies, isPath policy.subject = true ∧ policy.subject ∉ seen) ∧
      (policies.map AccessPolicy.subject).Nodup := by
  induction policies generalizing seen with
  | nil => simp
  | cons policy rest ih =>
    rw [checkPolicies] at h
    split at h
    · cases h
    · next hpath =>
      split at h
      · cases h
      · next hnew =>
        obtain ⟨hrest, hnodup⟩ := ih h
        have hfirst : isPath policy.subject = true ∧ policy.subject ∉ seen := by
          simpa using And.intro hpath hnew
        have hlater : ∀ other ∈ rest, other.subject ∉ seen ∧ other.subject ≠ policy.subject := by
          intro other hother
          simpa using (hrest other hother).2
        refine ⟨?_, ?_⟩
        · rintro other (_ | ⟨_, hother⟩)
          · exact hfirst
          · exact ⟨(hrest other hother).1, (hlater other hother).1⟩
        · rw [List.map_cons, List.nodup_cons, List.mem_map]
          refine ⟨?_, hnodup⟩
          rintro ⟨other, hother, heq⟩
          exact (hlater other hother).2 heq

theorem isPath_of_checkAliases {names : List Name} {entries : Entries (List String)}
    (h : checkAliases names entries = .ok ()) : ∀ entry ∈ entries, isPath entry.1 = true := by
  induction entries generalizing names with
  | nil => simp
  | cons entry rest ih =>
    rw [checkAliases] at h
    split at h
    · cases h
    · next hpath =>
      simp only at h
      split at h
      · cases h
      · exact List.forall_mem_cons.2 ⟨by simpa using hpath, ih h⟩

theorem checkPolicies_of_validate {settings : Settings} (h : settings.validate = .ok ()) :
    checkPolicies [] settings.policies = .ok () := by
  unfold validate at h
  simp only at h
  split at h
  · cases h
  · obtain ⟨_, -, h⟩ := ok_of_bind h
    obtain ⟨_, -, h⟩ := ok_of_bind h
    obtain ⟨⟨⟩, hpolicies, -⟩ := ok_of_bind h
    exact hpolicies

end Settings

/-! ## The names of columns -/

/-- A column has only aliases that are listed for its path. -/
def Column.NamedBy (aliases : Entries (List String)) (database table : String) (column : Column) :
    Prop :=
  ∀ alt ∈ column.displayName.aliases, ∃ entry ∈ aliases,
    Text.split '.' entry.1 = [database, table, column.name] ∧ alt ∈ entry.2

namespace Catalog

variable {catalog : Catalog} {policies : List AccessPolicy} {aliases : Entries (List String)}

theorem not_aliased_toTable? {database name : String} {table : Table}
    (h : catalog.toTable? policies database name = some table) {column : Column}
    (hcolumn : column ∈ table.columns) : column.displayName.aliases = [] := by
  unfold toTable? at h
  simp only at h
  split at h
  · cases h
  · cases h
    obtain ⟨row, -, hrow⟩ := List.mem_filterMap.1 hcolumn
    unfold toColumn? at hrow
    simp only at hrow
    split at hrow
    · cases hrow
    · cases hrow
      rfl

/-- The columns of an introspected schema are named by the aliases it is made with. -/
theorem columns_namedBy_toSchema (catalog : Catalog) (policies : List AccessPolicy)
    (aliases : Entries (List String)) :
    (catalog.toSchema policies aliases).Holds fun database table =>
      ∀ column ∈ table.columns, column.NamedBy aliases database table.name := by
  refine toSchema_induction (motive := fun schema => schema.Holds fun database table =>
    ∀ column ∈ table.columns, column.NamedBy aliases database table.name) catalog policies ?_ ?_ ?_
  · refine holds_bare catalog policies fun htable column hcolumn alt halt => ?_
    rw [not_aliased_toTable? htable hcolumn] at halt
    cases halt
  · intro schema entry h
    unfold Schema.link
    split
    · exact h
    · refine h.updateTable fun table hnamed _ column hcolumn => ?_
      rcases mem_updateFirst hcolumn with hcolumn | ⟨old, hold, -, rfl⟩
      · exact hnamed column hcolumn
      · exact hnamed old hold
  · intro schema entry hentry h
    unfold Schema.addAliases
    split
    · exact h.updateTable fun table hnamed _ => hnamed
    · next database name target hwords =>
      refine h.updateTable fun table hnamed hname column hcolumn => ?_
      rcases mem_updateFirst hcolumn with hcolumn | ⟨old, hold, htarget, rfl⟩
      · exact hnamed column hcolumn
      · intro alt halt
        rcases (Name.mem_aliases_addAliases _ _ _).1 halt with hadded | hlisted
        · rw [beq_iff_eq] at htarget
          exact ⟨entry, hentry, by rw [hwords, hname, htarget], hadded⟩
        · exact hnamed old hold alt hlisted
    · exact h

end Catalog

/-! ## Subjects and the names they stand for -/

namespace Settings

variable {aliases : Entries (List String)} {database : String}

/-- Whether a path is the subject of aliases. -/
def Aliased (aliases : Entries (List String)) (path : String) : Prop :=
  path ∈ aliases.keys

/-- Every text of a name, behind a scope, is one that the entry of a path answers to. -/
def Covers (aliases : Entries (List String)) (path scope : String) (name : Name) : Prop :=
  ∀ text, name.matchesText text = true →
    ∃ entry ∈ aliases, entry.1 = path ∧ (aliasName entry).matchesText (scope ++ text) = true

/-- A subject is covered if its path is its primary name behind the scope, and its aliases
are covered. -/
theorem covers_of_aliases {path scope : String} {name : Name} (hsubject : Aliased aliases path)
    (hprimary : scope ++ name.primary = path) (haliases : ∀ alt ∈ name.aliases,
      ∃ entry ∈ aliases, entry.1 = path ∧ (aliasName entry).matchesText (scope ++ alt) = true) :
    Covers aliases path scope name := by
  intro text htext
  rcases (Name.matchesText_iff _ _).1 htext with rfl | halt
  · obtain ⟨entry, hentry, rfl⟩ := List.mem_map.1 hsubject
    refine ⟨entry, hentry, rfl, ?_⟩
    rw [hprimary, aliasName, Name.withAliases, Name.matchesText_addAliases]
    exact .inr (Name.matchesText_primary ⟨entry.1, []⟩)
  · exact haliases text halt

/-- Under accepted settings no text is a name of two subjects of one scope. -/
theorem Covers.apart {settings : Settings} (h : settings.validate = .ok ())
    {path path' scope : String} {name other : Name} (hname : Covers settings.aliases path scope name)
    (hother : Covers settings.aliases path' scope other) (hne : path ≠ path') (text : String) :
    ¬ (name.matchesText text = true ∧ other.matchesText text = true) := by
  rintro ⟨htext, htext'⟩
  obtain ⟨entry, hentry, rfl, hanswers⟩ := hname text htext
  obtain ⟨entry', hentry', rfl, hanswers'⟩ := hother text htext'
  rw [Name.eq_of_matches (pairwise_of_validate h) hentry hentry' hanswers hanswers'] at hne
  exact hne rfl

/-- The aliases of a column are compared behind the path of its table. -/
theorem matchesText_aliasName_column {entry : String × List String} {table column : String}
    (hwords : Text.split '.' entry.1 = [database, table, column]) {alt : String}
    (halt : alt ∈ entry.2) :
    (aliasName entry).matchesText (database ++ "." ++ table ++ "." ++ alt) = true := by
  have hscope : ∀ text, inScope entry.1 text = database ++ "." ++ table ++ "." ++ text := by
    intro text
    unfold inScope
    rw [hwords]
  rw [aliasName, Name.withAliases, Name.matchesText_addAliases]
  exact .inl (List.mem_map.2 ⟨alt, halt, hscope alt⟩)

theorem covers_table {table : Table} (hnamed : table.NamedBy aliases database)
    (hsubject : Aliased aliases table.qualifiedName) :
    Covers aliases table.qualifiedName "" table.displayName := by
  refine covers_of_aliases hsubject (by rw [String.empty_append, hnamed.primary]) fun alt halt => ?_
  obtain ⟨entry, hentry, hwords, hlisted⟩ := hnamed.listed alt halt
  refine ⟨entry, hentry, ?_, ?_⟩
  · rw [hnamed.path, ← Text.intercalate_split entry.1, hwords]
    rfl
  · rw [String.empty_append]
    exact matchesText_aliasName hwords hlisted

theorem covers_column {table : String} {column : Column}
    (hnamed : column.NamedBy aliases database table)
    (hprimary : column.displayName.primary = column.name)
    (hpath : column.qualifiedName = database ++ "." ++ table ++ "." ++ column.name)
    (hsubject : Aliased aliases column.qualifiedName) :
    Covers aliases column.qualifiedName (database ++ "." ++ table ++ ".") column.displayName := by
  refine covers_of_aliases hsubject (by rw [hprimary, hpath]) fun alt halt => ?_
  obtain ⟨entry, hentry, hwords, hlisted⟩ := hnamed alt halt
  refine ⟨entry, hentry, ?_, matchesText_aliasName_column hwords hlisted⟩
  rw [hpath, ← Text.intercalate_split entry.1, hwords]
  rfl

end Settings

/-- A database without a dot in its name and a table are told by their path. -/
theorem owner_of_path {database database' name name' : String} (hplain : '.' ∉ database.toList)
    (hplain' : '.' ∉ database'.toList)
    (h : database ++ "." ++ name = database' ++ "." ++ name') :
    (database, name) = (database', name') := by
  have hcut : Text.cutFirst '.' (database ++ "." ++ name) = some (database, name) :=
    Text.cutFirst_append hplain
  have hcut' : Text.cutFirst '.' (database' ++ "." ++ name') = some (database', name') :=
    Text.cutFirst_append hplain'
  rw [h, hcut'] at hcut
  exact (Option.some.inj hcut).symm

namespace Settings

variable {settings : Settings} {catalog : Catalog} {policies : List AccessPolicy}

theorem tables_apart (h : settings.validate = .ok ())
    (hplain : ∀ name ∈ catalog.databases, '.' ∉ name.toList) {table other : Table}
    (htable : table ∈ (catalog.toSchema policies settings.aliases).tables)
    (hother : other ∈ (catalog.toSchema policies settings.aliases).tables)
    (hsubject : Aliased settings.aliases table.qualifiedName)
    (hsubject' : Aliased settings.aliases other.qualifiedName)
    (hne : (table.database, table.name) ≠ (other.database, other.name)) (text : String) :
    ¬ (table.displayName.matchesText text = true ∧ other.displayName.matchesText text = true) := by
  obtain ⟨database, hdatabase, htable⟩ := List.mem_flatMap.1 htable
  obtain ⟨database', hdatabase', hother⟩ := List.mem_flatMap.1 hother
  have hnamed := Catalog.namedBy_toSchema catalog policies settings.aliases database hdatabase table
    htable
  have hnamed' := Catalog.namedBy_toSchema catalog policies settings.aliases database' hdatabase'
    other hother
  refine (covers_table hnamed hsubject).apart h (covers_table hnamed' hsubject') ?_ text
  rw [hnamed.path, hnamed'.path]
  -- Without dots in the names of databases, different tables have different paths.
  intro hpath
  rw [hnamed.owner, hnamed'.owner] at hne
  exact hne (owner_of_path (Catalog.plain_of_mem hplain hdatabase)
    (Catalog.plain_of_mem hplain hdatabase') hpath)

theorem columns_apart (h : settings.validate = .ok ()) {table : Table}
    (htable : table ∈ (catalog.toSchema policies settings.aliases).tables) {column other : Column}
    (hcolumn : column ∈ table.columns) (hother : other ∈ table.columns)
    (hsubject : Aliased settings.aliases column.qualifiedName)
    (hsubject' : Aliased settings.aliases other.qualifiedName) (hne : column.name ≠ other.name)
    (text : String) :
    ¬ (column.displayName.matchesText text = true ∧ other.displayName.matchesText text = true) := by
  obtain ⟨database, hdatabase, htable⟩ := List.mem_flatMap.1 htable
  have hnamed := Catalog.columns_namedBy_toSchema catalog policies settings.aliases database
    hdatabase table htable
  have hkeeps := Catalog.keeps_toSchema catalog policies settings.aliases
  obtain ⟨hprimary, hpath⟩ := hkeeps.column_path hdatabase htable hcolumn
  obtain ⟨hprimary', hpath'⟩ := hkeeps.column_path hdatabase htable hother
  refine (covers_column (hnamed column hcolumn) hprimary hpath hsubject).apart h
    (covers_column (hnamed other hother) hprimary' hpath' hsubject') ?_ text
  rw [hpath, hpath']
  simpa using hne

/-- **Accepted settings are unambiguous.** Of the subjects of aliases, no two tables of the
schema share a name, nor do two columns of one table. Subjects are paths of one to three
words, and none has two policies. -/
theorem accepted_unambiguous (h : settings.validate = .ok ())
    (hplain : ∀ name ∈ catalog.databases, '.' ∉ name.toList) :
    (∀ table ∈ (catalog.toSchema policies settings.aliases).tables,
      ∀ other ∈ (catalog.toSchema policies settings.aliases).tables,
        Aliased settings.aliases table.qualifiedName → Aliased settings.aliases other.qualifiedName →
          (table.database, table.name) ≠ (other.database, other.name) →
            ∀ text, ¬ (table.displayName.matchesText text = true ∧
              other.displayName.matchesText text = true)) ∧
      (∀ table ∈ (catalog.toSchema policies settings.aliases).tables,
        ∀ column ∈ table.columns, ∀ other ∈ table.columns,
          Aliased settings.aliases column.qualifiedName →
            Aliased settings.aliases other.qualifiedName → column.name ≠ other.name →
              ∀ text, ¬ (column.displayName.matchesText text = true ∧
                other.displayName.matchesText text = true)) ∧
      (∀ subject ∈ settings.policies.map AccessPolicy.subject ++ settings.aliases.keys,
        ∃ words : List String, words ≠ [] ∧ words.length ≤ 3 ∧ (∀ word ∈ words, IsWord word) ∧
          subject = ".".intercalate words) ∧
      (settings.policies.map AccessPolicy.subject).Nodup := by
  obtain ⟨hpolicies, hnodup⟩ := subjects_of_checkPolicies (checkPolicies_of_validate h)
  have hkeys := isPath_of_checkAliases (checkAliases_of_validate h)
  refine ⟨?_, ?_, ?_, hnodup⟩
  · intro table htable other hother hsubject hsubject' hne
    exact tables_apart h hplain htable hother hsubject hsubject' hne
  · intro table htable column hcolumn other hother hsubject hsubject' hne
    exact columns_apart h htable hcolumn hother hsubject hsubject' hne
  · intro subject hsubject
    rw [← isPath_iff]
    rcases List.mem_append.1 hsubject with hlisted | hlisted
    · obtain ⟨policy, hpolicy, rfl⟩ := List.mem_map.1 hlisted
      exact (hpolicies policy hpolicy).1
    · obtain ⟨entry, hentry, rfl⟩ := List.mem_map.1 hlisted
      exact hkeys entry hentry

end Settings

/-! ## A shop with buyers -/

/-- Orders and invoices, each with a customer and a clerk. -/
def tradingShop : Catalog where
  databases := ["shop"]
  tables := [("shop", "orders"), ("shop", "invoices")]
  columns := [
    ⟨"shop", "orders", "customer_id", "int(11)", false, "PRI", false⟩,
    ⟨"shop", "orders", "clerk_id", "int(11)", false, "", false⟩,
    ⟨"shop", "invoices", "customer_id", "int(11)", false, "PRI", false⟩]

/-- A buyer is the customer of an order, and that of an invoice. -/
def tradingSettings : Settings where
  connection := { provider := "mysql", host := some "localhost", username := some "api" }
  policies := [.openTo "shop", .openTo "shop.orders.clerk_id"]
  aliases := [("shop.invoices", ["bills"]), ("shop.invoices.customer_id", ["buyer"]),
    ("shop.orders", ["sales"]), ("shop.orders.clerk_id", ["seller"]),
    ("shop.orders.customer_id", ["buyer"])]

def tradingSchema : Schema :=
  tradingShop.toSchema tradingSettings.policies tradingSettings.aliases

/-- One alias names columns of two tables, but no two columns of one. -/
theorem buyers_told_apart :
    tradingSettings.validate = .ok () ∧ (∀ name ∈ tradingShop.databases, '.' ∉ name.toList) ∧
      (tradingSchema.tables.map fun table => (table.displayName,
        table.columns.map (·.displayName))) =
        [(⟨"shop.orders", ["sales"]⟩, [⟨"customer_id", ["buyer"]⟩, ⟨"clerk_id", ["seller"]⟩]),
          (⟨"shop.invoices", ["bills"]⟩, [⟨"customer_id", ["buyer"]⟩])] ∧
      ∀ table ∈ tradingSchema.tables, ∀ column ∈ table.columns, ∀ other ∈ table.columns,
        column.name ≠ other.name →
          ∀ text, ¬ (column.displayName.matchesText text = true ∧
            other.displayName.matchesText text = true) := by
  have hvalid : tradingSettings.validate = .ok () := by decide +kernel
  have hplain : ∀ name ∈ tradingShop.databases, '.' ∉ name.toList := by decide +kernel
  have hsubjects : ∀ table ∈ tradingSchema.tables, ∀ column ∈ table.columns,
      column.qualifiedName ∈ tradingSettings.aliases.keys := by decide +kernel
  obtain ⟨-, hcolumns, -, -⟩ :=
    @Settings.accepted_unambiguous _ _ tradingSettings.policies hvalid hplain
  refine ⟨hvalid, hplain, by decide +kernel, ?_⟩
  intro table htable column hcolumn other hother hne
  exact hcolumns table htable column hcolumn other hother (hsubjects table htable column hcolumn)
    (hsubjects table htable other hother) hne

end TableApi
