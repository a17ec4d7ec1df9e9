import TableApi.Proofs.Steps
import TableApi.Request.Params
import Mathlib.Data.List.Forall2

/-!
# Selections that differ in values

Two phrases that are equal when their values are left out spell the same text and bind
equally many values (`Sql.Phrase.sameText_of_outline`). So for a query it is enough that the
selections are equal without their values, and that is what two list requests come to
that agree in their keys and in whatever picks a column, a direction or a comparator
(`Resource.readList_alike`): reading looks at the other values to refuse some, but never
to decide what is compared.
-/

namespace TableApi

/-- Statements of the same text that bind equally many values. -/
structure Statement.SameText (statement other : Statement) : Prop where
  sql : statement.sql = other.sql
  count : statement.params.length = other.params.length

instance (statement other : Statement) : Decidable (statement.SameText other) :=
  decidable_of_iff (statement.sql = other.sql ∧ statement.params.length = other.params.length)
    ⟨fun h => ⟨h.1, h.2⟩, fun h => ⟨h.sql, h.count⟩⟩

/-! ## Phrases without their values -/

namespace Sql

/-- The piece without its value. -/
def Piece.blank : Piece → Piece
  | value _ => value .null
  | piece => piece

namespace Phrase

/-- The phrase without its values. -/
def outline (phrase : Phrase) : Phrase :=
  phrase.map Piece.blank

@[simp] theorem outline_cons (piece : Piece) (rest : Phrase) :
    outline (piece :: rest) = piece.blank :: outline rest := rfl

@[simp] theorem outline_append (phrase other : Phrase) :
    outline (phrase ++ other) = outline phrase ++ outline other := List.map_append

theorem outline_joined (between : String) (phrases : List Phrase) :
    outline (joined between phrases) = joined between (phrases.map outline) := by
  induction phrases with
  | nil => rfl
  | cons phrase rest ih =>
    cases rest with
    | nil => rfl
    | cons next others =>
      rw [List.map_cons] at ih
      simp [joined, ih, Piece.blank]

/-- Taking the values out of a phrase leaves its text and the number of its values. -/
theorem sameText_outline (phrase : Phrase) :
    (statement (outline phrase)).SameText (statement phrase) := by
  constructor
  · show String.join ((phrase.map Piece.blank).map Piece.sql) = String.join (phrase.map Piece.sql)
    rw [List.map_map]
    congr 2
    funext piece
    cases piece <;> rfl
  · simp only [length_params_statement, outline, List.countP_map]
    congr 1
    funext piece
    cases piece <;> rfl

/-- Phrases that differ in values alone make statements that differ in values alone. -/
theorem sameText_of_outline {phrase other : Phrase} (h : outline phrase = outline other) :
    (statement phrase).SameText (statement other) where
  sql := by rw [← (sameText_outline phrase).sql, h, (sameText_outline other).sql]
  count := by rw [← (sameText_outline phrase).count, h, (sameText_outline other).count]

end Phrase

end Sql

open Sql.Phrase (outline outline_joined)

/-! ## Selections without their values -/

def Condition.blank (condition : Condition) : Condition :=
  { condition with value := .null }

/-- The filter without the values that it compares with. -/
def Filter.blank : Filter → Filter
  | every conditions => every (conditions.map Condition.blank)
  | search _ => search ""

/-- Selections that differ in values alone: in what columns are compared with, and in the
number of a page. -/
structure Selection.Alike (selection other : Selection) : Prop where
  filter : selection.filter.blank = other.filter.blank
  order : selection.order = other.order
  page : selection.page.isSome = other.page.isSome

theorem Condition.outline_phrase (column : Column) (comparator : Comparator) (value value' : Json) :
    outline (phrase ⟨column, comparator, value⟩) =
      outline (phrase ⟨column, comparator, value'⟩) := by
  simp [phrase, Sql.Piece.blank]

theorem Filter.outline_phrase (columns : List Column) (filter : Filter) :
    outline (filter.phrase columns) = outline (filter.blank.phrase columns) := by
  cases filter with
  | every conditions =>
    simp only [phrase, Filter.blank, outline_joined, List.map_map]
    congr 1
    exact List.map_congr_left fun condition _ => Condition.outline_phrase _ _ _ _
  | search pattern =>
    have hterms : (fun column => outline (Condition.phrase ⟨column, .like, .str pattern⟩)) =
        fun column => outline (Condition.phrase ⟨column, .like, .str ""⟩) :=
      funext fun column => Condition.outline_phrase column .like (.str pattern) (.str "")
    simp only [phrase, Filter.blank, Sql.Phrase.outline_append, outline_joined, List.map_map,
      Function.comp_def, hterms]

theorem Page.outline_phrase (page other : Page) : outline page.phrase = outline other.phrase := rfl

namespace Resource

variable {resource : Resource}

/-- Whether anything is filtered does not depend on the values. -/
theorem outline_filterClause (filter : Filter) :
    outline (resource.filterClause filter) = outline (resource.filterClause filter.blank) := by
  cases filter with
  | every conditions =>
    cases conditions with
    | nil => rfl
    | cons condition rest =>
      exact congrArg (.text resource.connector :: ·) (Filter.outline_phrase _ _)
  | search pattern => exact congrArg (.text resource.connector :: ·) (Filter.outline_phrase _ _)

/-- Selections that differ in values alone are asked for in the same words. -/
theorem sameText_query {selection other : Selection} (h : selection.Alike other) :
    (resource.query selection).SameText (resource.query other) := by
  refine Sql.Phrase.sameText_of_outline ?_
  have hfilter : outline (resource.filterClause selection.filter) =
      outline (resource.filterClause other.filter) := by
    rw [outline_filterClause, h.filter, ← outline_filterClause]
  have hpage : outline (selection.page.elim [] Page.phrase) =
      outline (other.page.elim [] Page.phrase) := by
    have hsome := h.page
    cases hselection : selection.page <;> cases hother : other.page <;>
      simp only [hselection, hother, Option.isSome, Bool.false_eq_true, Bool.true_eq_false] at hsome
    · rfl
    · exact Page.outline_phrase _ _
  simp only [selectionPhrase, Sql.Phrase.outline_append, hfilter, hpage, h.order]

end Resource

/-! ## Parameters that differ in values -/

namespace Params

/-- Whether a parameter picks the column or direction of the order or a comparator. All
others give values. -/
def picks (key : String) : Bool :=
  key == orderBy || key == orderDir || comparatorEnding.toList.isSuffixOf key.toList

/-- Parameters with the same keys in which whatever picks anything is the same. -/
def Alike (params other : Params) : Prop :=
  List.Forall₂ (fun entry entry' =>
    entry.1 = entry'.1 ∧ (picks entry.1 = true → entry.2 = entry'.2)) params other

variable {params other : Params}

theorem Alike.keys_eq (h : Alike params other) : params.keys = other.keys := by
  induction h with
  | nil => rfl
  | cons hentry _ ih => simp [Entries.keys_cons, hentry.1, ih]

/-- Where one request has a parameter so has the other. -/
theorem Alike.isSome_get? (h : Alike params other) (key : String) :
    (params.get? key).isSome = (other.get? key).isSome := by
  have hhas : params.has key = other.has key := by
    rw [Bool.eq_iff_iff, Entries.has_iff, Entries.has_iff, h.keys_eq]
  exact hhas

theorem Alike.has_eq (h : Alike params other) (key : String) : params.has key = other.has key :=
  h.isSome_get? key

/-- What picks anything is found alike. -/
theorem Alike.get?_eq (h : Alike params other) (key : String) (hpicks : picks key = true) :
    params.get? key = other.get? key := by
  induction h with
  | nil => rfl
  | @cons entry entry' rest rest' hentry _ ih =>
    obtain ⟨own, raw⟩ := entry
    obtain ⟨own', raw'⟩ := entry'
    obtain ⟨rfl, hraw⟩ := hentry
    rw [Entries.get?_cons, Entries.get?_cons, ih]
    split
    · next heq => exact congrArg some (hraw (heq ▸ hpicks))
    · rfl

end Params

namespace Resource

variable {resource : Resource} {params other : Params}

/-- The part without the value of a filter. -/
def Part.blank : Part → Part
  | .filter key _ column => .filter key "" column
  | part => part

/-- A parameter has the same part whatever its value, unless it is there to pick. -/
theorem blank_part? {key raw raw' : String} {part part' : Part}
    (hraw : Params.picks key = true → raw = raw') (h : resource.part? key raw = some part)
    (h' : resource.part? key raw' = some part') : part.blank = part'.blank := by
  unfold part? at h h'
  split at h
  · next column hcolumn =>
    rw [hcolumn] at h'
    cases h
    cases h'
    rfl
  · next hcolumn =>
    rw [hcolumn] at h'
    split at h
    · next target htarget =>
      have hpicks : Params.picks key = true := by
        unfold Text.dropEnding? at htarget
        split at htarget
        · next hsuffix => simp [Params.picks, hsuffix]
        · cases htarget
      obtain rfl := hraw hpicks
      rw [htarget] at h'
      rw [Option.some.inj (h.symm.trans h')]
    · cases h

theorem blank_parts (halike : Params.Alike params other) {parts parts' : List Part}
    (h : resource.parts params = .ok parts) (h' : resource.parts other = .ok parts') :
    parts.map Part.blank = parts'.map Part.blank := by
  induction halike generalizing parts parts' with
  | nil =>
    cases h
    cases h'
    rfl
  | @cons entry entry' rest rest' hentry _ ih =>
    obtain ⟨key, raw⟩ := entry
    obtain ⟨key', raw'⟩ := entry'
    obtain ⟨rfl, hraw⟩ := hentry
    rw [Resource.parts] at h h'
    by_cases hreserved : Params.isReserved key = true
    · rw [if_pos hreserved] at h h'
      exact ih h h'
    · rw [if_neg hreserved] at h h'
      split at h
      · cases h
      · next part hpart =>
        split at h'
        · cases h'
        · next part' hpart' =>
          obtain ⟨others, hothers, h⟩ := ok_of_bind h
          obtain ⟨others', hothers', h'⟩ := ok_of_bind h'
          cases h
          cases h'
          rw [List.map_cons, List.map_cons, blank_part? hraw hpart hpart', ih hothers hothers']

/-- Comparators are picked, so they are there without the values of filters. -/
theorem comparators_blank (parts : List Part) :
    comparators (parts.map Part.blank) = comparators parts := by
  unfold comparators
  rw [List.filterMap_map]
  congr 2
  funext part
  cases part <;> rfl

/-- The filters without their values: key and column. -/
def headings (parts : List Part) : List (String × Column) :=
  (filters parts).map fun filter => (filter.1, filter.2.2)

theorem headings_blank (parts : List Part) : headings (parts.map Part.blank) = headings parts := by
  induction parts with
  | nil => rfl
  | cons part rest ih =>
    cases part with
    | filter key raw column => exact congrArg ((key, column) :: ·) ih
    | comparator target key token => exact ih

/-- The comparator of a filter. -/
def comparatorFor (comparators : Entries (String × String)) (key : String) :
    Except Fault Comparator :=
  match comparators.get? key with
  | some (_, token) => Comparator.read token
  | none => .ok .eq

theorem condition_ok {comparators : Entries (String × String)} {filter : String × String × Column}
    {result : Condition} (h : condition comparators filter = .ok result) :
    result.column = filter.2.2 ∧ comparatorFor comparators filter.1 = .ok result.comparator := by
  obtain ⟨key, raw, column⟩ := filter
  have hmade : ∃ comparator, comparatorFor comparators key = .ok comparator ∧
      ∃ value : Except Fault Json,
        (value >>= fun value => .ok ⟨column, comparator, value⟩) = .ok result := by
    revert h
    rw [condition]
    unfold comparatorFor
    rcases comparators.get? key with _ | ⟨_, token⟩ <;> intro h <;>
    · obtain ⟨comparator, hcomparator, h⟩ := ok_of_bind h
      dsimp only at h
      split at h <;> exact ⟨comparator, hcomparator, _, h⟩
  obtain ⟨comparator, hcomparator, value, hvalue⟩ := hmade
  obtain ⟨value, -, h⟩ := ok_of_bind hvalue
  cases h
  exact ⟨rfl, hcomparator⟩

/-- Conditions of the same headings differ in values alone. -/
theorem blank_conditions {comparators : Entries (String × String)}
    {filters filters' : List (String × String × Column)} {conditions conditions' : List Condition}
    (hsame : filters.map (fun filter => (filter.1, filter.2.2)) =
      filters'.map fun filter => (filter.1, filter.2.2))
    (h : filters.mapM (condition comparators) = .ok conditions)
    (h' : filters'.mapM (condition comparators) = .ok conditions') :
    conditions.map Condition.blank = conditions'.map Condition.blank := by
  induction filters generalizing filters' conditions conditions' with
  | nil =>
    obtain rfl : filters' = [] := by simpa using hsame.symm
    cases h
    cases h'
    rfl
  | cons filter rest ih =>
    cases filters' with
    | nil => simp at hsame
    | cons filter' rest' =>
      simp only [List.map_cons, List.cons.injEq, Prod.mk.injEq] at hsame
      obtain ⟨⟨hkey, hcolumn⟩, hsame⟩ := hsame
      rw [List.mapM_cons] at h h'
      obtain ⟨first, hfirst, h⟩ := ok_of_bind h
      obtain ⟨others, hothers, h⟩ := ok_of_bind h
      obtain ⟨first', hfirst', h'⟩ := ok_of_bind h'
      obtain ⟨others', hothers', h'⟩ := ok_of_bind h'
      cases h
      cases h'
      obtain ⟨hown, hcomparator⟩ := condition_ok hfirst
      obtain ⟨hown', hcomparator'⟩ := condition_ok hfirst'
      rw [← hkey, hcomparator] at hcomparator'
      have hblank : first.blank = first'.blank := by
        simp only [Condition.blank, hown, hown', hcolumn, Except.ok.inj hcomparator']
      rw [List.map_cons, List.map_cons, hblank, ih hsame hothers hothers']

/-! ## Requests for rows -/

theorem readFilter_alike (halike : Params.Alike params other) {filter filter' : Filter}
    (h : resource.readFilter params = .ok filter) (h' : resource.readFilter other = .ok filter') :
    filter.blank = filter'.blank := by
  have hsearch := halike.isSome_get? Params.search
  unfold readFilter at h h'
  split at h <;> split at h'
  · next term _ term' _ =>
    unfold searchFilter at h h'
    rw [← halike.keys_eq] at h'
    split at h
    · cases h
    · next hnone =>
      rw [hnone] at h'
      cases h
      cases h'
      rfl
  · next hsome _ hnone => simp [hsome, hnone] at hsearch
  · next hnone _ _ hsome => simp [hsome, hnone] at hsearch
  · obtain ⟨parts, hparts, h⟩ := ok_of_bind h
    obtain ⟨parts', hparts', h'⟩ := ok_of_bind h'
    dsimp only at h h'
    have hblank := blank_parts halike hparts hparts'
    have hcomparators : comparators parts = comparators parts' := by
      rw [← comparators_blank, hblank, comparators_blank]
    have hheadings : headings parts = headings parts' := by
      rw [← headings_blank, hblank, headings_blank]
    split at h
    · cases h
    · split at h'
      · cases h'
      · obtain ⟨conditions, hconditions, h⟩ := ok_of_bind h
        obtain ⟨conditions', hconditions', h'⟩ := ok_of_bind h'
        cases h
        cases h'
        rw [← hcomparators] at hconditions'
        exact congrArg Filter.every (blank_conditions hheadings hconditions hconditions')

/-- Whether a page is asked for does not depend on its number. -/
theorem isSome_readPage {pageLimit : Nat} {page : Option Page}
    (h : readPage params pageLimit = .ok page) :
    page.isSome = (params.get? Params.page).isSome := by
  unfold readPage at h
  split at h
  · next hnone =>
    rw [hnone]
    split at h
    · cases h
      rfl
    · cases h
  · next raw hraw =>
    rw [hraw]
    split at h
    · cases h
    · split at h
      · split at h
        · cases h
          rfl
        · cases h
      · cases h

theorem readOrder_alike (halike : Params.Alike params other) :
    resource.readOrder params = resource.readOrder other := by
  unfold readOrder
  rw [halike.get?_eq Params.orderBy (by decide), halike.get?_eq Params.orderDir (by decide)]

theorem defaultOrder_congr {page page' : Option Page} (h : page.isSome = page'.isSome) :
    resource.defaultOrder page = resource.defaultOrder page' := by
  cases page <;> cases page' <;>
    simp only [Option.isSome, Bool.false_eq_true, Bool.true_eq_false] at h
  · rfl
  · unfold defaultOrder
    rcases resource.keyColumns with _ | ⟨key, _ | _⟩ <;> rfl

/-- List requests that agree in their keys and in what they pick ask for selections that
differ in values alone. -/
theorem readList_alike (halike : Params.Alike params other) {pageLimit : Nat}
    {selection selection' : Selection} (h : resource.readList params pageLimit = .ok selection)
    (h' : resource.readList other pageLimit = .ok selection') : selection.Alike selection' := by
  obtain ⟨filter, hfilter, h⟩ := ok_of_bind h
  obtain ⟨page, hpage, h⟩ := ok_of_bind h
  obtain ⟨order, horder, h⟩ := ok_of_bind h
  obtain ⟨_, -, h⟩ := ok_of_bind h
  obtain ⟨filter', hfilter', h'⟩ := ok_of_bind h'
  obtain ⟨page', hpage', h'⟩ := ok_of_bind h'
  obtain ⟨order', horder', h'⟩ := ok_of_bind h'
  obtain ⟨_, -, h'⟩ := ok_of_bind h'
  cases h
  cases h'
  have hsome : page.isSome = page'.isSome := by
    rw [isSome_readPage hpage, isSome_readPage hpage', halike.isSome_get?]
  rw [readOrder_alike halike, horder'] at horder
  obtain rfl := Except.ok.inj horder
  exact ⟨readFilter_alike halike hfilter hfilter', by rw [defaultOrder_congr hsome], hsome⟩

/-- Requests for single rows select by the same column. -/
theorem readSingle_alike {id id' : String} {selection selection' : Selection}
    (h : resource.readSingle id = .ok selection) (h' : resource.readSingle id' = .ok selection') :
    selection.Alike selection' := by
  unfold readSingle at h h'
  split at h
  · cases h
  · next key hkey =>
    rw [hkey] at h'
    obtain ⟨value, -, h⟩ := ok_of_bind h
    obtain ⟨value', -, h'⟩ := ok_of_bind h'
    cases h
    cases h'
    exact ⟨rfl, rfl, rfl⟩
  · cases h

end Resource

end TableApi
