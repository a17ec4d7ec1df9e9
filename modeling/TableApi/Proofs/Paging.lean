import TableApi.Proofs.Calls
import TableApi.Proofs.Parameters.Reading

/-!
# Pages of a list

A page is asked for by its number, and the statement binds two values behind all others: how
many rows a page has, and how many come before it. When the database cuts the rows by these,
every row is on one page. `pages_partition` says what each page is answered with, that the
pages up to one that is not found are all rows in order, and that whatever asks for no page is
refused before the database is asked.

A number that 64 bits do not hold is no page, even where 64 bits would count the rows before
it: with one row on a page, that is page `2 ^ 64` (`last_page_refused`).
-/

namespace TableApi

/-- The database answers a query that ends in a page with the rows of the page. -/
def World.Pages {σ : Type} (world : World σ) (rows : List Row) : Prop :=
  ∀ (text : String) (bound : List Json) (limit offset : Nat) (state : σ),
    ((world.query ⟨text ++ " LIMIT ? OFFSET ?", bound ++ [.int limit, .int offset]⟩).run state).1 =
      .ok ((rows.drop offset).take limit)

/-- The items of a reply; there are none without one. -/
def itemsOf : Except Fault Reply → List Json
  | .ok ⟨_, .arr items⟩ => items
  | _ => []

/-! ## Pages of a list of items -/

section Lists

variable {α : Type}

/-- The pages up to a number are the items up to the end of the last. -/
theorem flatMap_pages (items : List α) (size count : Nat) :
    ((List.range count).flatMap fun k => (items.drop (k * size)).take size) =
      items.take (count * size) := by
  induction count with
  | zero => simp
  | succ count ih =>
    rw [List.range_succ, List.flatMap_append, ih, Nat.succ_mul, List.take_add,
      List.flatMap_singleton]

/-- A page has no items when none are left behind those before it. -/
theorem page_isEmpty_iff {items : List α} {size before : Nat} (hsize : 1 ≤ size) :
    ((items.drop before).take size).isEmpty = true ↔ items.length ≤ before := by
  rw [List.isEmpty_iff, List.take_eq_nil_iff, List.drop_eq_nil_iff]
  constructor
  · rintro (hzero | hle)
    · omega
    · exact hle
  · exact .inr

end Lists

namespace Resource

variable {resource : Resource} {rows : List Row}

/-- A page is written behind everything else, and its two values are bound last. -/
theorem query_page (selection : Selection) (page : Page) :
    resource.query { selection with page := some page } =
      ⟨(resource.query { selection with page := none }).sql ++ " LIMIT ? OFFSET ?",
        (resource.query { selection with page := none }).params ++
          [.int page.limit, .int page.offset]⟩ := by
  have hphrase : resource.selectionPhrase { selection with page := some page } =
      resource.selectionPhrase { selection with page := none } ++ page.phrase := by
    simp [selectionPhrase]
  rw [query, hphrase, Sql.Phrase.statement_append]
  rfl

/-- The payload of a row of the right width. -/
def unpacked (resource : Resource) (row : Row) : Entries Json :=
  Entries.ofList (resource.shape.unpack row).1

/-- Rows of the right width are unpacked one by one. -/
theorem unpack_rows (hwidth : ∀ row ∈ rows, row.length = resource.columns.length) :
    rows.mapM resource.unpack = .ok (rows.map resource.unpacked) := by
  rw [mapM_ok_iff, List.forall₂_map_right_iff, List.forall₂_same]
  intro row hrow
  exact if_pos (hwidth row hrow)

end Resource

namespace Params

variable {params : Params} {limit number : Nat}

/-- Parameters ask for one page at most. -/
theorem AsksForPage.unique {other : Nat} (h : params.AsksForPage limit number)
    (hother : params.AsksForPage limit other) : number = other := by
  obtain ⟨raw, hraw, hnumber⟩ := h.read
  obtain ⟨raw', hraw', hother⟩ := hother.read
  obtain rfl := Option.some.inj (hraw.symm.trans hraw')
  exact Option.some.inj (hnumber.symm.trans hother)

/-- The digits of a page ask for it. -/
theorem asksForPage_repr (hget : params.get? page = some number.repr) (hpositive : 1 ≤ number)
    (hnumber : number < UInt64.size) (hcounted : (number - 1) * limit < UInt64.size) :
    params.AsksForPage limit number := by
  have htrim : Text.trim number.repr = number.repr := by
    refine Text.trim_eq_self fun c hc => Text.isBlank_of_isDigit ?_
    rw [Nat.toList_repr] at hc
    exact Nat.isDigit_of_mem_toDigits (by decide) (by decide) hc
  refine ⟨hpositive, hcounted, _, hget, ?_⟩
  rw [htrim, Number.naturalBelow?_repr hnumber]

end Params

namespace Api

variable {σ : Type} {world : World σ} {api : Api} {name : String} {resource : Resource}
  {params : Params}

/-- A list is answered with the rows that come back, unless its page is beyond the last. -/
theorem outcome_list {selection : Selection} {found : List Row} {start : σ}
    (hresource : api.resource name = .ok resource)
    (hread : resource.readList params api.pageLimit = .ok selection)
    (hfound : ((world.query (resource.query selection)).run start).1 = .ok found) :
    (outcome (api.list world name params) start).1 =
      match beyondLast selection.page found with
      | some number => .error (.notFound (.page number name))
      | none => (found.mapM resource.unpack).map fun payloads =>
          ⟨200, .arr (payloads.map .obj)⟩ := by
  have hlifted : ∀ {α : Type} {step : Except Fault α} {value : α} {state : σ}, step = .ok value →
      outcome (liftM step : Action σ α) state = (.ok value, state) := by
    intro α step value state h
    rw [outcome_liftExcept, h]
  have hrows : outcome (world.rows (resource.query selection)) start =
      (.ok found, ((world.query (resource.query selection)).run start).2) := by
    rw [World.outcome_rows, hfound]
    rfl
  unfold Api.list
  rw [outcome_bind_of_ok (hlifted hresource), outcome_bind_of_ok (hlifted hread),
    outcome_bind_of_ok hrows]
  cases beyondLast selection.page found with
  | some number => rfl
  | none =>
    show (outcome ((found.mapM resource.unpack : Except Fault _) >>= _ : Action σ Reply) _).1 = _
    rw [outcome_bind, outcome_liftExcept]
    cases found.mapM resource.unpack <;> rfl

/-- A page is beyond the last when it is not the first and no rows are left for it. -/
theorem beyondLast_page {rows : List Row} {limit number : Nat} (hlimit : 1 ≤ limit) :
    beyondLast (some ⟨number, limit⟩) ((rows.drop ((number - 1) * limit)).take limit) =
      if 1 < number ∧ rows.length ≤ (number - 1) * limit then some number else none := by
  have hempty : ((rows.drop ((number - 1) * limit)).take limit).isEmpty = true ↔
      rows.length ≤ (number - 1) * limit :=
    page_isEmpty_iff hlimit
  rw [beyondLast, Option.map_some, Option.filter_some]
  simp only [Bool.and_eq_true, decide_eq_true_eq, hempty]

/-- A page is answered with its rows, unless there are none and it is not the first. -/
theorem outcome_page {schema : Schema} {root : Table}
    (hcompile : Resource.compile schema root = .ok resource)
    (hresource : api.resource name = .ok resource) (hlimit : 1 ≤ api.pageLimit) {rows : List Row}
    (hpages : world.Pages rows) (hwidth : ∀ row ∈ rows, row.length = resource.columns.length)
    (hkeys : params.keys.Nodup) (haccepts : resource.Accepts params api.pageLimit) {number : Nat}
    (hasks : params.AsksForPage api.pageLimit number) (start : σ) :
    (outcome (api.list world name params) start).1 =
      if 1 < number ∧ rows.length ≤ (number - 1) * api.pageLimit then
        .error (.notFound (.page number name))
      else
        .ok ⟨200, .arr ((((rows.map resource.unpacked).drop
          ((number - 1) * api.pageLimit)).take api.pageLimit).map .obj)⟩ := by
  obtain ⟨⟨filter, order, page⟩, hdenotes⟩ := (Resource.denotes_iff_accepts hcompile).2 haccepts
  obtain rfl : page = some ⟨number, api.pageLimit⟩ := by
    have hpage := hdenotes.page
    cases page with
    | none => exact absurd hpage.1 (Nat.ne_of_gt hlimit)
    | some page =>
      obtain ⟨own, limit⟩ := page
      obtain ⟨-, rfl, hown⟩ := hpage
      exact congrArg (fun number => some (Page.mk number api.pageLimit)) (hown.unique hasks)
  have hread := (Resource.readList_ok_iff hcompile hkeys).2 hdenotes
  have hfound : ((world.query (resource.query
      ⟨filter, order, some ⟨number, api.pageLimit⟩⟩)).run start).1 =
      .ok ((rows.drop ((number - 1) * api.pageLimit)).take api.pageLimit) := by
    have hquery := resource.query_page ⟨filter, order, none⟩ ⟨number, api.pageLimit⟩
    dsimp only at hquery
    rw [hquery]
    exact hpages _ _ _ _ start
  have hwithin : ∀ row ∈ (rows.drop ((number - 1) * api.pageLimit)).take api.pageLimit,
      row.length = resource.columns.length :=
    fun row hrow => hwidth row (List.mem_of_mem_drop (List.mem_of_mem_take hrow))
  rw [outcome_list hresource hread hfound, beyondLast_page hlimit, Resource.unpack_rows hwithin,
    List.map_take, List.map_drop]
  by_cases hbeyond : 1 < number ∧ rows.length ≤ (number - 1) * api.pageLimit
  · rw [if_pos hbeyond, if_pos hbeyond]
  · rw [if_neg hbeyond, if_neg hbeyond]
    rfl

/-- A list that asks for no page is refused unasked, where there are pages. -/
theorem refused_without_page {schema : Schema} {root : Table}
    (hcompile : Resource.compile schema root = .ok resource)
    (hresource : api.resource name = .ok resource) (hlimit : 1 ≤ api.pageLimit)
    (hkeys : params.keys.Nodup) (hnone : ∀ number, ¬ params.AsksForPage api.pageLimit number)
    (world : World σ) (start : σ) :
    ∃ fault, fault.IsRefusal ∧
      world.Traced (fun world => api.list world name params) start (.error fault) [] := by
  cases hread : resource.readList params api.pageLimit with
  | ok selection =>
    have hpage := ((Resource.readList_ok_iff hcompile hkeys).1 hread).page
    cases hselected : selection.page with
    | none =>
      rw [hselected] at hpage
      exact absurd hpage.1 (Nat.ne_of_gt hlimit)
    | some page =>
      rw [hselected] at hpage
      exact absurd hpage.2.2 (hnone page.number)
  | error fault =>
    refine ⟨fault, Resource.failsOnly_readList params api.pageLimit fault hread, start, ?_⟩
    exact .bind_ok (.of_eq hresource) (.bind_error (.of_eq hread))

/-- **Pages partition the rows.** Let a list be of pages of at least one row, and the database
cut its rows by the page. Accepted parameters that ask for a page are answered with its rows,
unpacked, or with a page that is not found: exactly when the page is not the first and no rows
are left for it. So the pages in front of one that is not found are all rows in order. What
asks for no page is refused, and the database is not asked: no page, zero, what 64 bits do not
hold or is no number, and a page that so many rows come before that 64 bits do not count them. -/
theorem pages_partition {schema : Schema} {root : Table}
    (hcompile : Resource.compile schema root = .ok resource)
    (hresource : api.resource name = .ok resource) (hlimit : 1 ≤ api.pageLimit) {rows : List Row}
    (hpages : world.Pages rows)
    (hwidth : ∀ row ∈ rows, row.length = resource.columns.length) :
    ∃ payloads, rows.mapM resource.unpack = .ok payloads ∧
      (∀ params : Params, params.keys.Nodup → resource.Accepts params api.pageLimit →
        ∀ number, params.AsksForPage api.pageLimit number → ∀ start,
          (outcome (api.list world name params) start).1 =
            if 1 < number ∧ rows.length ≤ (number - 1) * api.pageLimit then
              .error (.notFound (.page number name))
            else
              .ok ⟨200, .arr (((payloads.drop ((number - 1) * api.pageLimit)).take
                api.pageLimit).map .obj)⟩) ∧
      (∀ (asks : Nat → Params) (starts : Nat → σ) (count : Nat),
        (∀ k ≤ count, (asks k).keys.Nodup ∧ resource.Accepts (asks k) api.pageLimit ∧
          (asks k).AsksForPage api.pageLimit (k + 1)) →
        (outcome (api.list world name (asks count)) (starts count)).1 =
          .error (.notFound (.page (count + 1) name)) →
        ((List.range count).flatMap fun k =>
          itemsOf (outcome (api.list world name (asks k)) (starts k)).1) = payloads.map .obj) ∧
      ∀ params : Params, params.keys.Nodup →
        (∀ number, ¬ params.AsksForPage api.pageLimit number) → ∀ start,
          ∃ fault, fault.IsRefusal ∧
            world.Traced (fun world => api.list world name params) start (.error fault) [] := by
  have hpage : ∀ params : Params, params.keys.Nodup → resource.Accepts params api.pageLimit →
      ∀ number, params.AsksForPage api.pageLimit number → ∀ start, _ :=
    fun _ hkeys haccepts _ hasks start =>
      outcome_page hcompile hresource hlimit hpages hwidth hkeys haccepts hasks start
  refine ⟨rows.map resource.unpacked, Resource.unpack_rows hwidth, hpage, ?_, ?_⟩
  · intro asks starts count hasks hlast
    obtain ⟨hkeys, haccepts, hnumber⟩ := hasks count (Nat.le_refl count)
    rw [hpage _ hkeys haccepts _ hnumber, Nat.add_sub_cancel] at hlast
    have hend : rows.length ≤ count * api.pageLimit := by
      by_contra hrows
      rw [if_neg fun hbeyond => hrows hbeyond.2] at hlast
      cases hlast
    -- A page in front of the last one has rows, or it is the first.
    have hitems : ∀ k ∈ List.range count,
        itemsOf (outcome (api.list world name (asks k)) (starts k)).1 =
          (((rows.map resource.unpacked).drop (k * api.pageLimit)).take
            api.pageLimit).map .obj := by
      intro k hk
      obtain ⟨hkeys, haccepts, hnumber⟩ := hasks k (Nat.le_of_lt (List.mem_range.1 hk))
      rw [hpage _ hkeys haccepts _ hnumber, Nat.add_sub_cancel]
      split
      · next hbeyond =>
        rw [List.drop_eq_nil_of_le (by rw [List.length_map]; exact hbeyond.2), List.take_nil]
        rfl
      · rfl
    rw [List.flatMap_congr hitems, ← List.map_flatMap, flatMap_pages, List.take_of_length_le]
    rw [List.length_map]
    exact hend
  · intro params hkeys hnone start
    exact refused_without_page hcompile hresource hlimit hkeys hnone world start

end Api

/-! ## Notes in pages -/

/-- A database that cuts its rows by the last two values that are bound. -/
def pagingWorld (rows : List Row) : World Unit where
  query statement := pure <| .ok <| match statement.params.reverse with
    | .int offset :: .int limit :: _ => (rows.drop offset.toNat).take limit.toNat
    | _ => rows
  executeAll _ := pure (.ok 0)
  isValid := pure true
  draw _ := pure .null

theorem pages_pagingWorld (rows : List Row) : (pagingWorld rows).Pages rows := by
  intro text bound limit offset state
  have hlast : (bound ++ [Json.int limit, Json.int offset]).reverse =
      Json.int offset :: Json.int limit :: bound.reverse := by simp
  simp only [pagingWorld, hlast]
  rfl

def notes : Resource :=
  (Resource.compile (noteCatalog.toSchema [] [])
    (((noteCatalog.toSchema [] []).table? "shop.notes").getD default)).toOption.get
    (by decide +kernel)

theorem compile_notes :
    Resource.compile (noteCatalog.toSchema [] [])
      (((noteCatalog.toSchema [] []).table? "shop.notes").getD default) = .ok notes :=
  eq_ok_get _

/-- An API of the notes, so many on a page. -/
def notesBy (size : Nat) : Api :=
  ⟨[notes], size⟩

theorem resource_notesBy (size : Nat) : (notesBy size).resource "shop_notes" = .ok notes := by
  have hname : notes.name = "shop_notes" := by decide +kernel
  simp [Api.resource, notesBy, hname]

def noteRows : List Row :=
  [[.int 1, .str "one"], [.int 2, .str "two"], [.int 3, .str "four"]]

/-- The parameters for a page, counted from 0, of the notes with an `o`. -/
def noteParams (page : Nat) : Params :=
  [("page", (page + 1).repr), ("text", "o"), ("text_comp", "like")]

/-- The items of a page of two notes, counted from 0. -/
def notePage (page : Nat) : List Json :=
  itemsOf (outcome ((notesBy 2).list (pagingWorld noteRows) "shop_notes" (noteParams page)) ()).1

/-- Three notes stand on two pages, and there is no third. Page 0 is not asked for. -/
theorem notes_in_pages :
    (outcome ((notesBy 2).list (pagingWorld noteRows) "shop_notes" (noteParams 1)) ()).1 =
        .ok ⟨200, .arr [.obj [("id", .int 3), ("text", .str "four")]]⟩ ∧
      (outcome ((notesBy 2).list (pagingWorld noteRows) "shop_notes" (noteParams 2)) ()).1 =
        .error (.notFound (.page 3 "shop_notes")) ∧
      (List.range 2).flatMap notePage =
        [.obj [("id", .int 1), ("text", .str "one")], .obj [("id", .int 2), ("text", .str "two")],
          .obj [("id", .int 3), ("text", .str "four")]] ∧
      ∃ fault, fault.IsRefusal ∧ (pagingWorld noteRows).Traced
        (fun world => (notesBy 2).list world "shop_notes" [("page", "0")]) ()
          (.error fault) [] := by
  have hwidth : ∀ row ∈ noteRows, row.length = notes.columns.length := by decide +kernel
  have hasks : ∀ k ≤ 2, (noteParams k).keys.Nodup ∧ notes.Accepts (noteParams k) 2 ∧
      (noteParams k).AsksForPage 2 (k + 1) := by
    have hkeys : ∀ k, (noteParams k).keys.Nodup := by
      intro k
      show ["page", "text", "text_comp"].Nodup
      decide +kernel
    have hread : ∀ k ≤ 2, (notes.readList (noteParams k) 2).toOption.isSome = true := by
      decide +kernel
    intro k hk
    have haccepts : notes.Accepts (noteParams k) 2 :=
      (Resource.isSome_readList_iff compile_notes (hkeys k)).1 (hread k hk)
    have hsize : 5 < UInt64.size := by decide
    have hasks : (noteParams k).AsksForPage 2 (k + 1) :=
      Params.asksForPage_repr rfl (by omega) (by omega) (by omega)
    exact ⟨hkeys k, haccepts, hasks⟩
  have hzero : ∀ number, ¬ Params.AsksForPage [("page", "0")] 2 number := by
    rintro number ⟨hpositive, -, raw, hraw, hnumber⟩
    obtain rfl : "0" = raw := Option.some.inj hraw
    have hread : Number.naturalBelow? UInt64.size (Text.trim "0") = some 0 := by decide +kernel
    obtain rfl := Option.some.inj (hread.symm.trans hnumber)
    exact absurd hpositive (by decide)
  obtain ⟨payloads, hunpack, hpage, hall, hrefused⟩ :=
    Api.pages_partition compile_notes (resource_notesBy 2) (by decide) (pages_pagingWorld noteRows)
      hwidth
  obtain rfl : [[("id", .int 1), ("text", .str "one")], [("id", .int 2), ("text", .str "two")],
      [("id", .int 3), ("text", .str "four")]] = payloads := by
    have hrows : (noteRows.mapM notes.unpack).toOption = some [[("id", .int 1),
        ("text", .str "one")], [("id", .int 2), ("text", .str "two")],
        [("id", .int 3), ("text", .str "four")]] := by decide +kernel
    rw [hunpack] at hrows
    exact (Option.some.inj hrows).symm
  obtain ⟨hkeys, haccepts, hnumber⟩ := hasks 1 (by decide)
  have hsecond := hpage _ hkeys haccepts 2 hnumber ()
  obtain ⟨hkeys, haccepts, hnumber⟩ := hasks 2 (by decide)
  have hthird := hpage _ hkeys haccepts 3 hnumber ()
  exact ⟨hsecond, hthird, hall noteParams (fun _ => ()) 2 hasks hthird,
    hrefused _ (by decide) hzero ()⟩

/-- With one note on a page, 64 bits count the rows before page `2 ^ 64`, but not the page. -/
theorem last_page_refused :
    1 < UInt64.size ∧ (UInt64.size - 1) * (notesBy 1).pageLimit < UInt64.size ∧
      noteRows.length ≤ (UInt64.size - 1) * (notesBy 1).pageLimit ∧
      (pagingWorld noteRows).Pages noteRows ∧
      (outcome ((notesBy 1).list (pagingWorld noteRows) "shop_notes"
          [("page", UInt64.size.repr)]) ()).1 ≠
        .error (.notFound (.page UInt64.size "shop_notes")) := by
  refine ⟨by decide, by decide, by decide, pages_pagingWorld noteRows, ?_⟩
  have hrefused : (outcome ((notesBy 1).list (pagingWorld noteRows) "shop_notes"
      [("page", UInt64.size.repr)]) ()).1 =
        .error (.badRequest (.badPage "18446744073709551616")) := by decide +kernel
  rw [hrefused]
  intro heq
  cases heq

end TableApi
