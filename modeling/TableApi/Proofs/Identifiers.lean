import TableApi.Proofs.Deleting.KeyColumns
import TableApi.Proofs.Parameters

/-!
# Generated identifiers in requests

The type tag of a primary key is read twice. A generator goes by the word that the tag
begins with, and makes integers for an integer type and texts for any other. A parameter
goes by the words that occur anywhere in the tag. An identifier that was generated can be
asked for exactly when the two readings agree (`Resource.generated_ids_found_iff`).

They need not agree: a key of type `tinyint` is filled with integers, but read as a truth
value (`small_flags_refused`).
-/

namespace TableApi

/-- An identifier as it is written in a request. -/
def Json.idText? : Json → Option String
  | int n => some n.repr
  | str s => some s
  | _ => none

namespace IdGenerator

/-- The words that the type tags of integers begin with. -/
def integerTypes : List String :=
  ["tinyint", "smallint", "mediumint", "int", "integer", "bigint"]

/-- Whether a type tag begins with the word of an integer type. -/
def isInteger (typeTag : String) : Bool :=
  integerTypes.contains (baseType (Text.lower (Text.trim typeTag)))

/-- The identifiers of an integer type are integers that every wide type holds. -/
theorem forType_of_isInteger {typeTag : String} (h : isInteger typeTag = true) :
    ∃ top, forType typeTag = .upTo top ∧ 1 ≤ top ∧ top ≤ wideMax := by
  simp only [isInteger, integerTypes, List.contains_iff_mem, List.mem_cons, List.not_mem_nil,
    or_false] at h
  unfold forType
  rcases h with h | h | h | h | h | h <;> simp only [h] <;>
    cases Text.holds "unsigned" (Text.lower (Text.trim typeTag)) <;>
    exact ⟨_, rfl, by decide, by decide⟩

/-- All other identifiers are the digits of a UUID, or the first of them. -/
theorem forType_of_not_isInteger {typeTag : String} (h : isInteger typeTag = false) :
    forType typeTag = .uuid ∨ ∃ length, forType typeTag = .shortUuid length := by
  simp only [isInteger, integerTypes, List.contains_eq_mem, List.mem_cons, List.not_mem_nil,
    or_false, decide_eq_false_iff_not, not_or] at h
  obtain ⟨htiny, hsmall, hmedium, hint, hinteger, hbig⟩ := h
  unfold forType
  simp only [htiny, hsmall, hmedium, hint, hinteger, hbig, or_self, if_false]
  split
  · split
    · split
      · exact .inr ⟨_, rfl⟩
      · exact .inl rfl
    · exact .inl rfl
  · exact .inl rfl

/-- The word of an integer type makes `int` occur in the tag. -/
theorem holds_int_of_isInteger {typeTag : String} (h : isInteger typeTag = true) :
    Text.holds "int" (Text.lower typeTag) = true := by
  have hword : ∀ word ∈ integerTypes, Text.holds "int" word = true := by decide +kernel
  rw [isInteger, List.contains_iff_mem] at h
  have hbase := hword _ h
  rw [Text.holds_iff] at hbase ⊢
  have hfront : (baseType (Text.lower (Text.trim typeTag))).toList <:+:
      (Text.lower (Text.trim typeTag)).toList := by
    rw [baseType, String.toList_ofList]
    exact (List.takeWhile_prefix _).isInfix
  have htrim : (Text.lower (Text.trim typeTag)).toList <:+: (Text.lower typeTag).toList := by
    rw [Text.toList_lower, Text.toList_trim, Text.toList_lower]
    exact (Text.trimChars_infix _).map _
  exact (hbase.trans hfront).trans htrim

end IdGenerator

/-! ## Two readings of a type tag -/

/-- Whether the words of a type tag by which parameters are read fit the word by which
identifiers are made: for integers none in front of `int`, and for texts one that says so,
or none. -/
def Column.readsIds (column : Column) : Bool :=
  let tag := Text.lower column.typeTag
  if IdGenerator.isInteger column.typeTag then
    !(["char", "text", "tinyint"].any fun word => Text.holds word tag)
  else
    (["char", "text"].any fun word => Text.holds word tag) ||
      !(["tinyint", "int", "float", "real"].any fun word => Text.holds word tag)

namespace Column

variable {column : Column}

theorem readsIds_of_isInteger (h : IdGenerator.isInteger column.typeTag = true) :
    column.readsIds = true ↔ ParamKind.ofColumn column = .integer := by
  have hint := IdGenerator.holds_int_of_isInteger h
  unfold readsIds ParamKind.ofColumn
  rw [if_pos h]
  simp only [List.any_cons, List.any_nil, hint]
  generalize Text.lower column.typeTag = tag
  generalize Text.holds "char" tag = char, Text.holds "text" tag = text,
    Text.holds "tinyint" tag = tinyint, Text.holds "float" tag = float,
    Text.holds "real" tag = real
  decide +revert

theorem readsIds_of_not_isInteger (h : IdGenerator.isInteger column.typeTag = false) :
    column.readsIds = true ↔
      ParamKind.ofColumn column = .text ∨ ParamKind.ofColumn column = .untyped := by
  unfold readsIds ParamKind.ofColumn
  rw [if_neg (Bool.eq_false_iff.1 h)]
  simp only [List.any_cons, List.any_nil]
  generalize Text.lower column.typeTag = tag
  generalize Text.holds "char" tag = char, Text.holds "text" tag = text,
    Text.holds "tinyint" tag = tinyint, Text.holds "int" tag = int,
    Text.holds "float" tag = float, Text.holds "real" tag = real
  decide +revert

end Column

namespace ParamKind

variable {kind : ParamKind} {raw : String}

/-- Only a parameter of the integer kind is read as an integer. -/
theorem eq_integer_of_value? {n : Int} (h : kind.value? raw = some (.int n)) : kind = .integer := by
  cases kind with
  | integer => rfl
  | text => cases h
  | untyped => cases h
  | boolean =>
    unfold value? at h
    dsimp only at h
    split at h
    · cases h
    · split at h <;> cases h
  | float =>
    obtain ⟨_, -, h⟩ := Option.map_eq_some_iff.1 h
    cases h

/-- A parameter is read as a text only where any text is taken as it is. -/
theorem takes_text_of_value? {s : String} (h : kind.value? raw = some (.str s)) :
    kind = .text ∨ kind = .untyped := by
  cases kind with
  | text => exact .inl rfl
  | untyped => exact .inr rfl
  | boolean =>
    unfold value? at h
    dsimp only at h
    split at h
    · cases h
    · split at h <;> cases h
  | integer =>
    obtain ⟨_, -, h⟩ := Option.map_eq_some_iff.1 h
    cases h
  | float =>
    obtain ⟨_, -, h⟩ := Option.map_eq_some_iff.1 h
    cases h

/-- The digits of a number that fits 64 bits are read as the number. -/
theorem value?_integer_repr {n : Int} (hlow : 0 ≤ n) (hhigh : n < UInt64.size) :
    ParamKind.integer.value? n.repr = some (.int n) := by
  have hblank : ∀ c ∈ n.repr.toList, Text.isBlank c = false := by
    obtain ⟨n, rfl⟩ := Int.eq_ofNat_of_zero_le hlow
    intro c hc
    have hdigit : c.isDigit = true :=
      Nat.isDigit_of_mem_toDigits (by decide) (by decide) (Nat.toList_repr ▸ hc)
    exact Text.isBlank_of_isDigit hdigit
  have hread : Number.integerIn? (-(Number.signedBound : Int)) UInt64.size n.repr = some n := by
    have hbound : (0 : Int) ≤ Number.signedBound := Int.natCast_nonneg _
    rw [Number.integerIn?, Number.integer?_repr]
    exact Option.filter_eq_some_iff.2 ⟨rfl, decide_eq_true ⟨by omega, hhigh⟩⟩
  rw [value?, Text.trim_eq_self hblank, Number.integer64?_eq, hread]
  rfl

end ParamKind

/-! ## Asking for an identifier -/

/-- A request for an identifier is accepted and compares the key with the identifier itself:
it is the one value that is bound. -/
def Resource.Finds (resource : Resource) (id : Json) : Prop :=
  ∃ text statement, id.idText? = some text ∧
    (resource.readSingle text).map resource.query = .ok statement ∧ statement.params = [id]

namespace Resource

variable {schema : Schema} {root : Table} {resource : Resource} {source : Column}

/-- Over a table with one primary-key column, that column is the key of the resource, unless
the resource does not show it. -/
theorem keyColumns_of_single (hcompile : compile schema root = .ok resource)
    (hsingle : root.columns.filter Column.isPrimary = [source]) :
    resource.keyColumns = [] ∨ resource.keyColumns = [source.mounted (tableAlias 0) ""] := by
  obtain ⟨-, -, hops, grown, -, hgrown, hmounted⟩ :=
    Schema.mountTable_ok (mountTable_of_compile hcompile)
  have hshape : resource.shape = Slot.shape (Entries.ofList grown.entries) := by
    rw [shape, hmounted]
  have hsame : ∀ column ∈ resource.keyColumns, column = source.mounted (tableAlias 0) "" := by
    intro column hcolumn
    obtain ⟨hmem, hprimary⟩ := List.mem_filter.1 hcolumn
    rw [hshape, Schema.mem_columns_mountColumns hgrown] at hmem
    obtain ⟨found, hfound, rfl⟩ := hmem
    have hvisible := (Schema.mem_written (List.mem_reverse.1 (Entries.mem_of_get? hfound))).1
    have hkey : found ∈ root.columns.filter Column.isPrimary :=
      List.mem_filter.2 ⟨List.mem_of_mem_filter hvisible, hprimary⟩
    rw [hsingle, List.mem_singleton] at hkey
    rw [hkey]
  have hnodup : resource.keyColumns.Nodup :=
    ((keyed hcompile).nodup_qualifiedNames.of_map _).filter _
  cases hkeys : resource.keyColumns with
  | nil => exact .inl rfl
  | cons key rest =>
    rw [hkeys, List.forall_mem_cons] at hsame
    rw [hkeys, List.nodup_cons] at hnodup
    have hrest : rest = [] := by
      refine List.eq_nil_iff_forall_not_mem.2 fun other hother => hnodup.1 ?_
      rw [hsame.1, ← hsame.2 other hother]
      exact hother
    rw [hsame.1, hrest]
    exact .inr rfl

/-- A request for one row binds what the text is read as by the kind of the key. -/
theorem readSingle_binds_iff {key : Column} (hkeys : resource.keyColumns = [key]) {text : String}
    {id : Json} :
    (∃ statement, (resource.readSingle text).map resource.query = .ok statement ∧
      statement.params = [id]) ↔ (ParamKind.ofColumn key).value? text = some id := by
  have hread : resource.readSingle text =
      (ParamKind.ofColumn key).read key.displayName.primary text >>= fun value =>
        .ok { filter := .every [⟨key, .eq, value⟩] } := by
    rw [readSingle, hkeys]
  rw [hread, ParamKind.read]
  cases (ParamKind.ofColumn key).value? text with
  | none =>
    constructor
    · rintro ⟨statement, h, -⟩
      cases h
    · intro h
      cases h
  | some value =>
    have hparams := params_query resource { filter := .every [⟨key, .eq, value⟩] }
    constructor
    · rintro ⟨statement, h, hid⟩
      cases h
      rw [hparams] at hid
      exact congrArg some (List.singleton_inj.1 hid)
    · intro h
      cases h
      exact ⟨_, rfl, hparams⟩

/-- **Generated identifiers in requests.** Over a table with one primary-key column and the
identifiers that suit it, whatever is generated can be asked for by its text, and is then
what the key is compared with, exactly when the resource shows the key and the words of its
type tag by which parameters are read fit the word by which identifiers are made. -/
theorem generated_ids_found_iff (hcompile : compile schema root = .ok resource)
    (hsingle : root.columns.filter Column.isPrimary = [source])
    (hids : root.ids = .forType source.typeTag) :
    (∀ bits id, root.ids.make? (Uuid.ofRandom bits) = some id → resource.Finds id) ↔
      resource.keyColumns ≠ [] ∧ source.readsIds = true := by
  have hfinds : ∀ id, resource.Finds id ↔ resource.keyColumns ≠ [] ∧
      ∃ text, id.idText? = some text ∧ (ParamKind.ofColumn source).value? text = some id := by
    intro id
    rcases keyColumns_of_single hcompile hsingle with hkeys | hkeys
    · constructor
      · rintro ⟨text, statement, -, hread, -⟩
        rw [readSingle, hkeys] at hread
        cases hread
      · rintro ⟨hshown, -⟩
        exact absurd hkeys hshown
    · have hbinds : ∀ text, _ ↔ (ParamKind.ofColumn source).value? text = some id :=
        fun text => readSingle_binds_iff hkeys
      simp only [Finds, hkeys, ne_eq, List.cons_ne_nil, not_false_eq_true, true_and, ← hbinds,
        exists_and_left]
  rw [hids]
  cases htype : IdGenerator.isInteger source.typeTag with
  | true =>
    obtain ⟨top, hforType, hlow, hhigh⟩ := IdGenerator.forType_of_isInteger htype
    rw [hforType, Column.readsIds_of_isInteger htype]
    constructor
    · intro h
      obtain ⟨hshown, text, -, hvalue⟩ := (hfinds _).1 (h 0 _ rfl)
      exact ⟨hshown, ParamKind.eq_integer_of_value? hvalue⟩
    · rintro ⟨hshown, hkind⟩ bits id hid
      cases hid
      refine (hfinds _).2 ⟨hshown, _, rfl, ?_⟩
      have hpositive : 0 < max top 1 := by omega
      have hbelow := Int.emod_lt_of_pos ((Uuid.ofRandom bits).toNat : Int) hpositive
      have hnonneg := Int.emod_nonneg ((Uuid.ofRandom bits).toNat : Int) (Int.ne_of_gt hpositive)
      rw [hkind]
      refine ParamKind.value?_integer_repr (by omega) ?_
      have hwide : IdGenerator.wideMax + 1 ≤ UInt64.size := by decide
      omega
  | false =>
    rw [Column.readsIds_of_not_isInteger htype]
    -- Either generator makes a text of whatever bits it draws.
    have htext : ∀ bits, ∃ text,
        (IdGenerator.forType source.typeTag).make? (Uuid.ofRandom bits) = some (.str text) := by
      intro bits
      rcases IdGenerator.forType_of_not_isInteger htype with h | ⟨length, h⟩
      · exact ⟨_, by rw [h]; rfl⟩
      · exact ⟨_, by rw [h]; rfl⟩
    constructor
    · intro h
      obtain ⟨text, hmade⟩ := htext 0
      obtain ⟨hshown, _, -, hvalue⟩ := (hfinds _).1 (h 0 _ hmade)
      exact ⟨hshown, ParamKind.takes_text_of_value? hvalue⟩
    · rintro ⟨hshown, hkind⟩ bits id hid
      obtain ⟨text, hmade⟩ := htext bits
      obtain rfl : .str text = id := Option.some.inj (hmade.symm.trans hid)
      refine (hfinds _).2 ⟨hshown, text, rfl, ?_⟩
      rcases hkind with hkind | hkind <;> rw [hkind] <;> rfl

end Resource

/-! ## Prices and flags -/

/-- The primary-key column of prices. -/
def priceKey : Column :=
  (priceTable.column? "id").getD default

/-- Whatever is generated for a price can be asked for. -/
theorem price_ids_found :
    Resource.compile (priceCatalog.toSchema [] []) priceTable = .ok prices ∧
      priceTable.columns.filter Column.isPrimary = [priceKey] ∧
      priceTable.ids = .forType priceKey.typeTag ∧ prices.keyColumns ≠ [] ∧
      priceKey.readsIds = true ∧
      ∀ bits id, priceTable.ids.make? (Uuid.ofRandom bits) = some id → prices.Finds id := by
  have hcompile : Resource.compile (priceCatalog.toSchema [] []) priceTable = .ok prices :=
    eq_ok_get _
  have hsingle : priceTable.columns.filter Column.isPrimary = [priceKey] := by decide +kernel
  have hids : priceTable.ids = .forType priceKey.typeTag := by decide +kernel
  have hshown : prices.keyColumns ≠ [] := by decide +kernel
  have hreads : priceKey.readsIds = true := by decide +kernel
  exact ⟨hcompile, hsingle, hids, hshown, hreads,
    (Resource.generated_ids_found_iff hcompile hsingle hids).2 ⟨hshown, hreads⟩⟩

/-- Flags, numbered by the smallest of the integer types. -/
def flagCatalog : Catalog where
  databases := ["shop"]
  tables := [("shop", "flags")]
  columns := [⟨"shop", "flags", "id", "tinyint(4)", false, "PRI", false⟩,
    ⟨"shop", "flags", "label", "varchar(16)", false, "", false⟩]

def flagTable : Table :=
  ((flagCatalog.toSchema [] []).table? "shop.flags").getD default

def flagKey : Column :=
  (flagTable.column? "id").getD default

def flags : Resource :=
  (Resource.compile (flagCatalog.toSchema [] []) flagTable).toOption.get (by decide +kernel)

/-- A flag is numbered 4, and asked for by this number it is refused: what is asked for must
be a truth value. -/
theorem small_flags_refused :
    Resource.compile (flagCatalog.toSchema [] []) flagTable = .ok flags ∧
      flagTable.columns.filter Column.isPrimary = [flagKey] ∧
      flagTable.ids = .forType flagKey.typeTag ∧
      flagTable.ids.make? (Uuid.ofRandom 0) = some (.int 4) ∧
      (Json.int 4).idText? = some "4" ∧
      (flags.readSingle "4").map flags.query =
        .error (.badRequest (.badValue "id" "a boolean" "4")) := by
  have hcompile : Resource.compile (flagCatalog.toSchema [] []) flagTable = .ok flags :=
    eq_ok_get _
  exact ⟨hcompile, by decide +kernel⟩

end TableApi
