import TableApi.Proofs.Introspection
import TableApi.Proofs.Parameters

/-!
# The grammar of list requests

What the parameters of a list may be, and what they mean, said without reading them one by
one: `Resource.Accepts` has the conditions on a filter, an order and a page, and
`Resource.Denotes` relates parameters to the selection that they ask for. Parameters denote a
selection exactly when they are accepted (`Resource.denotes_iff_accepts`).

A key may be reserved, or name a column and filter by it, or name a column behind which
`_comp` stands, for the comparator of a filter. These meet where a column is itself named so:
then the key is a filter.
-/

namespace TableApi

/-- Where each item is related to something, a list is to a list. -/
theorem exists_forall₂ {α β : Type} {r : α → β → Prop} {items : List α}
    (h : ∀ item ∈ items, ∃ other, r item other) : ∃ others, List.Forall₂ r items others := by
  induction items with
  | nil => exact ⟨[], .nil⟩
  | cons item rest ih =>
    rw [List.forall_mem_cons] at h
    obtain ⟨other, hother⟩ := h.1
    obtain ⟨others, hothers⟩ := ih h.2
    exact ⟨other :: others, .cons hother hothers⟩

/-! ## What keys mean -/

namespace Resource

variable (resource : Resource) (params : Params)

/-- Whether a name is that of a column of a row. -/
def names (name : String) : Bool :=
  resource.columns.any fun column => column.displayName.matchesText name

/-- A column of a row has a name. -/
def Named (name : String) (column : Column) : Prop :=
  column ∈ resource.columns ∧ column.displayName.matchesText name = true

/-- Whether a parameter filters. -/
def isFilter (key : String) : Bool :=
  !Params.isReserved key && resource.names key

/-- A key of the parameters is reserved, or it is the name of a column, or it picks the
comparator of a filter that is there. -/
def HasMeaning (key : String) : Prop :=
  Params.isReserved key = true ∨ resource.names key = true ∨
    ∃ name, key = name ++ Params.comparatorEnding ∧ resource.names name = true ∧ name ∈ params.keys

/-- The comparator of a filter: equality, unless the key that picks it is there and does not
filter itself. -/
def comparatorOf? (key : String) : Option Comparator :=
  match params.get? (key ++ Params.comparatorEnding) with
  | none => some .eq
  | some token =>
    if resource.names (key ++ Params.comparatorEnding) then some .eq
    else Comparator.ofToken? token

/-- A filter is the comparison of the column that it names, by its comparator, with its value
as the column's kind reads it. -/
structure Compares (key raw : String) (condition : Condition) : Prop where
  column : resource.Named key condition.column
  comparator : resource.comparatorOf? params key = some condition.comparator
  value : condition.comparator.operand? condition.column raw = some condition.value

/-! ## What parameters denote -/

/-- Parameters denote a search beside which nothing filters, or a condition for each filter. -/
def DenotesFilter : Filter → Prop
  | .search pattern =>
    (∃ term, params.get? Params.search = some term ∧ pattern = Params.pattern term) ∧
      ∀ key ∈ params.keys, Params.isReserved key = true
  | .every conditions =>
    params.get? Params.search = none ∧ (∀ key ∈ params.keys, resource.HasMeaning params key) ∧
      List.Forall₂ (fun entry condition => resource.Compares params entry.1 entry.2 condition)
        (params.filter fun entry => resource.isFilter entry.1) conditions

/-- Parameters order by a column that they name, rising or falling. -/
structure Orders (order : Order) : Prop where
  column : ∃ name, params.get? Params.orderBy = some name ∧ resource.Named name order.column
  direction : ∃ word, params.get? Params.orderDir = some word ∧
    Text.upper word = order.direction.sql

end Resource

namespace Params

/-- Parameters ask for no order. -/
structure Unordered (params : Params) : Prop where
  column : params.get? orderBy = none
  direction : params.get? orderDir = none

/-- Parameters ask for a page, of which 64 bits count the number and the rows before it. -/
structure AsksForPage (params : Params) (limit number : Nat) : Prop where
  positive : 1 ≤ number
  counted : (number - 1) * limit < UInt64.size
  read : ∃ raw, params.get? page = some raw ∧
    Number.naturalBelow? UInt64.size (Text.trim raw) = some number

/-- Parameters denote the page that they ask for, or none where there are no pages. -/
def DenotesPage (params : Params) (limit : Nat) : Option Page → Prop
  | none => limit = 0 ∧ params.get? page = none
  | some page => 0 < limit ∧ page.limit = limit ∧ params.AsksForPage limit page.number

end Params

namespace Resource

/-- The selection that parameters ask for. -/
structure Denotes (resource : Resource) (params : Params) (limit : Nat) (selection : Selection) :
    Prop where
  filter : resource.DenotesFilter params selection.filter
  page : params.DenotesPage limit selection.page
  order : (params.Unordered ∧ selection.order = resource.defaultOrder selection.page) ∨
    ∃ order, selection.order = some order ∧ resource.Orders params order

/-- The parameters of a list that are accepted. -/
structure Accepts (resource : Resource) (params : Params) (limit : Nat) : Prop where
  /-- Beside a search every key is reserved. Otherwise every key has a meaning, and each filter
  has a comparator and, unless that is likeness, a value of its column's kind. -/
  filter : if Params.search ∈ params.keys then ∀ key ∈ params.keys, Params.isReserved key = true
    else (∀ key ∈ params.keys, resource.HasMeaning params key) ∧
      ∀ entry ∈ params, resource.isFilter entry.1 = true → ∃ comparator,
        resource.comparatorOf? params entry.1 = some comparator ∧
          ∀ column, resource.Named entry.1 column → comparator = .like ∨
            ((ParamKind.ofColumn column).value? entry.2).isSome = true
  /-- An order is given by a column and a direction, or not at all. -/
  order : (Params.orderBy ∉ params.keys ∧ Params.orderDir ∉ params.keys) ∨
    ∃ name word, params.get? Params.orderBy = some name ∧ resource.names name = true ∧
      params.get? Params.orderDir = some word ∧
      (Text.upper word = "ASC" ∨ Text.upper word = "DESC")
  /-- A page is asked for exactly where there are pages. -/
  page : (limit = 0 ∧ Params.page ∉ params.keys) ∨
    (0 < limit ∧ ∃ number, params.AsksForPage limit number)

/-! ## Accepted parameters -/

section Accepted

variable {resource : Resource} {params : Params} {schema : Schema} {root : Table}

theorem names_eq_isSome (name : String) :
    resource.names name = (resource.column? name).isSome := by
  rw [Bool.eq_iff_iff, names, List.any_eq_true, column?, List.find?_isSome]

theorem names_iff {name : String} :
    resource.names name = true ↔ ∃ column, resource.Named name column := by
  rw [names, List.any_eq_true]
  rfl

theorem named_iff (hcompile : compile schema root = .ok resource) {name : String}
    {column : Column} : resource.column? name = some column ↔ resource.Named name column :=
  column?_eq_some_iff hcompile

theorem operand?_isSome_iff {comparator : Comparator} {column : Column} {raw : String} :
    (comparator.operand? column raw).isSome = true ↔
      comparator = .like ∨ ((ParamKind.ofColumn column).value? raw).isSome = true := by
  unfold Comparator.operand?
  by_cases hlike : comparator = .like
  · simp [hlike]
  · simp [hlike]

/-- A filter has a condition exactly when it has a comparator and, unless that is likeness, a
value of its column's kind. -/
theorem exists_compares_iff (hcompile : compile schema root = .ok resource) {key raw : String}
    (hfilter : resource.isFilter key = true) :
    (∃ condition, resource.Compares params key raw condition) ↔ ∃ comparator,
      resource.comparatorOf? params key = some comparator ∧ ∀ column, resource.Named key column →
        comparator = .like ∨ ((ParamKind.ofColumn column).value? raw).isSome = true := by
  constructor
  · rintro ⟨condition, hnamed, hcomparator, hvalue⟩
    refine ⟨condition.comparator, hcomparator, fun column hcolumn => ?_⟩
    rw [← named_iff hcompile] at hnamed hcolumn
    obtain rfl := Option.some.inj (hnamed.symm.trans hcolumn)
    rw [← operand?_isSome_iff, hvalue]
    rfl
  · rintro ⟨comparator, hcomparator, hvalue⟩
    rw [isFilter, Bool.and_eq_true] at hfilter
    obtain ⟨column, hnamed⟩ := names_iff.1 hfilter.2
    obtain ⟨value, hoperand⟩ :=
      Option.isSome_iff_exists.1 (operand?_isSome_iff.2 (hvalue column hnamed))
    exact ⟨⟨column, comparator, value⟩, hnamed, hcomparator, hoperand⟩

theorem exists_denotesFilter_iff (hcompile : compile schema root = .ok resource) :
    (∃ filter, resource.DenotesFilter params filter) ↔
      if Params.search ∈ params.keys then ∀ key ∈ params.keys, Params.isReserved key = true
      else (∀ key ∈ params.keys, resource.HasMeaning params key) ∧
        ∀ entry ∈ params, resource.isFilter entry.1 = true → ∃ comparator,
          resource.comparatorOf? params entry.1 = some comparator ∧
            ∀ column, resource.Named entry.1 column → comparator = .like ∨
              ((ParamKind.ofColumn column).value? entry.2).isSome = true := by
  cases hsearch : params.get? Params.search with
  | some term =>
    have hgiven : Params.search ∈ params.keys := List.mem_map_of_mem (Entries.mem_of_get? hsearch)
    rw [if_pos hgiven]
    constructor
    · rintro ⟨_ | _, hfilter⟩
      · cases hsearch.symm.trans hfilter.1
      · exact hfilter.2
    · intro hreserved
      exact ⟨.search (Params.pattern term), ⟨term, hsearch, rfl⟩, hreserved⟩
  | none =>
    rw [if_neg ((Entries.get?_eq_none_iff _ _).1 hsearch)]
    constructor
    · rintro ⟨conditions | _, hfilter⟩
      · obtain ⟨-, hmeaning, hconditions⟩ := hfilter
        refine ⟨hmeaning, fun entry hentry hisFilter => ?_⟩
        obtain ⟨condition, -, hcompares⟩ :=
          exists_of_forall₂_left hconditions (List.mem_filter.2 ⟨hentry, hisFilter⟩)
        exact (exists_compares_iff hcompile hisFilter).1 ⟨condition, hcompares⟩
      · obtain ⟨⟨term, hterm, -⟩, -⟩ := hfilter
        cases hsearch.symm.trans hterm
    · rintro ⟨hmeaning, hfilters⟩
      have hcompared : ∀ entry ∈ params.filter fun entry => resource.isFilter entry.1,
          ∃ condition, resource.Compares params entry.1 entry.2 condition := by
        intro entry hentry
        obtain ⟨hmem, hisFilter⟩ := List.mem_filter.1 hentry
        exact (exists_compares_iff hcompile hisFilter).2 (hfilters entry hmem hisFilter)
      obtain ⟨conditions, hconditions⟩ := exists_forall₂ hcompared
      exact ⟨.every conditions, hsearch, hmeaning, hconditions⟩

/-- Parameters denote a selection exactly when they are accepted. -/
theorem denotes_iff_accepts (hcompile : compile schema root = .ok resource) {limit : Nat} :
    (∃ selection, resource.Denotes params limit selection) ↔ resource.Accepts params limit := by
  constructor
  · rintro ⟨⟨filter, order, page⟩, hfilter, hpage, horder⟩
    refine ⟨(exists_denotesFilter_iff hcompile).1 ⟨filter, hfilter⟩, ?_, ?_⟩
    · rcases horder with ⟨⟨hby, hdir⟩, -⟩ | ⟨requested, -, ⟨name, hby, hnamed⟩, word, hdir, hword⟩
      · exact .inl ⟨(Entries.get?_eq_none_iff _ _).1 hby, (Entries.get?_eq_none_iff _ _).1 hdir⟩
      · refine .inr ⟨name, word, hby, names_iff.2 ⟨_, hnamed⟩, hdir, ?_⟩
        rw [hword]
        cases requested.direction
        · exact .inl rfl
        · exact .inr rfl
    · cases page with
      | none => exact .inl ⟨hpage.1, (Entries.get?_eq_none_iff _ _).1 hpage.2⟩
      | some page => exact .inr ⟨hpage.1, page.number, hpage.2.2⟩
  · rintro ⟨hfilter, horder, hpage⟩
    obtain ⟨filter, hfilter⟩ := (exists_denotesFilter_iff hcompile).2 hfilter
    obtain ⟨page, hpage⟩ : ∃ page, params.DenotesPage limit page := by
      rcases hpage with ⟨hlimit, hnone⟩ | ⟨hlimit, number, hasks⟩
      · exact ⟨none, hlimit, (Entries.get?_eq_none_iff _ _).2 hnone⟩
      · exact ⟨some ⟨number, limit⟩, hlimit, rfl, hasks⟩
    rcases horder with ⟨hby, hdir⟩ | ⟨name, word, hby, hnames, hdir, hword⟩
    · have hunordered : params.Unordered :=
        ⟨(Entries.get?_eq_none_iff _ _).2 hby, (Entries.get?_eq_none_iff _ _).2 hdir⟩
      exact ⟨⟨filter, resource.defaultOrder page, page⟩, hfilter, hpage, .inl ⟨hunordered, rfl⟩⟩
    · obtain ⟨column, hnamed⟩ := names_iff.1 hnames
      obtain ⟨direction, hdirection⟩ : ∃ direction : Direction,
          Text.upper word = direction.sql := by
        rcases hword with hword | hword
        · exact ⟨.ascending, hword⟩
        · exact ⟨.descending, hword⟩
      exact ⟨⟨filter, some ⟨column, direction⟩, page⟩, hfilter, hpage,
        .inr ⟨_, rfl, ⟨name, hby, hnamed⟩, word, hdir, hdirection⟩⟩

end Accepted

end Resource

end TableApi
