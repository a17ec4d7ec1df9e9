import TableApi.Proofs.Parameters.Grammar
import TableApi.Proofs.Statements.Selections

/-!
# Reading the parameters of a list

The parameters of a list are read part by part, and the parts are put together to
conditions. What comes out is what the grammar says: parameters are read as a selection
exactly when they denote it (`Resource.readList_ok_iff`).
-/

namespace TableApi

/-- Items are all turned into results exactly when each is turned into its own. -/
theorem mapM_ok_iff {ε α β : Type} {step : α → Except ε β} {items : List α} {results : List β} :
    items.mapM step = .ok results ↔
      List.Forall₂ (fun item result => step item = .ok result) items results := by
  constructor
  · intro h
    induction items generalizing results with
    | nil =>
      cases h
      exact .nil
    | cons item rest ih =>
      rw [List.mapM_cons] at h
      obtain ⟨first, hfirst, h⟩ := ok_of_bind h
      obtain ⟨others, hothers, h⟩ := ok_of_bind h
      cases h
      exact .cons hfirst (ih hothers)
  · intro h
    induction h with
    | nil => rfl
    | cons hfirst _ ih =>
      rw [List.mapM_cons, hfirst, ih]
      rfl

/-- Relations that agree on the items relate them alike. -/
theorem forall₂_congr_left {α β : Type} {r r' : α → β → Prop} {items : List α} {others : List β}
    (h : ∀ item ∈ items, ∀ other, r item other ↔ r' item other) :
    List.Forall₂ r items others ↔ List.Forall₂ r' items others := by
  induction items generalizing others with
  | nil => rw [List.forall₂_nil_left_iff, List.forall₂_nil_left_iff]
  | cons item rest ih =>
    rw [List.forall_mem_cons] at h
    simp only [List.forall₂_cons_left_iff, h.1, ih h.2]

namespace Resource

variable {resource : Resource} {params : Params} {schema : Schema} {root : Table}

/-! ## Reading keys -/

/-- The parameters that are not reserved. -/
def free (params : Params) : Params :=
  params.filter fun entry => !Params.isReserved entry.1

theorem parts_ok_iff {parts : List Part} : resource.parts params = .ok parts ↔
    List.Forall₂ (fun entry part => resource.part? entry.1 entry.2 = some part) (free params)
      parts := by
  induction params generalizing parts with
  | nil =>
    constructor
    · intro h
      cases h
      exact .nil
    · intro h
      cases h
      rfl
  | cons entry rest ih =>
    obtain ⟨key, raw⟩ := entry
    rw [Resource.parts]
    by_cases hreserved : Params.isReserved key = true
    · have hfree : free ((key, raw) :: rest) = free rest :=
        List.filter_cons_of_neg (by simp [hreserved])
      rw [if_pos hreserved, hfree, ih]
    · have hfree : free ((key, raw) :: rest) = (key, raw) :: free rest :=
        List.filter_cons_of_pos (by simp [hreserved])
      rw [if_neg hreserved, hfree]
      cases hpart : resource.part? key raw with
      | none =>
        constructor
        · intro h
          cases h
        · rintro (_ | ⟨hfirst, -⟩)
          rw [hpart] at hfirst
          cases hfirst
      | some part =>
        constructor
        · intro h
          obtain ⟨others, hothers, h⟩ := ok_of_bind h
          cases h
          exact .cons hpart (ih.1 hothers)
        · rintro (_ | ⟨hfirst, hothers⟩)
          rw [hpart] at hfirst
          cases hfirst
          rw [ih.2 hothers]
          rfl

/-- A part is a filter by the column that the key names, or else the comparator for a name in
front of the ending. -/
theorem part?_eq_some_iff {key raw : String} {part : Part} :
    resource.part? key raw = some part ↔
      (∃ column, resource.column? key = some column ∧ part = .filter key raw column) ∨
      (resource.column? key = none ∧ ∃ name, key = name ++ Params.comparatorEnding ∧
        resource.names name = true ∧ part = .comparator name key raw) := by
  unfold part?
  cases hcolumn : resource.column? key with
  | some column =>
    constructor
    · intro h
      exact .inl ⟨column, rfl, (Option.some.inj h).symm⟩
    · rintro (⟨found, hfound, rfl⟩ | ⟨hnone, -⟩)
      · rw [Option.some.inj hfound]
      · cases hnone
  | none =>
    simp only [reduceCtorEq, false_and, exists_false, true_and, false_or]
    cases hname : Text.dropEnding? Params.comparatorEnding key with
    | none =>
      constructor
      · intro h
        cases h
      · rintro ⟨name, hkey, -, -⟩
        rw [Text.dropEnding?_eq_some_iff.2 hkey] at hname
        cases hname
    | some name =>
      have hkey := Text.dropEnding?_eq_some_iff.1 hname
      dsimp only
      rw [← names_eq_isSome]
      constructor
      · intro h
        split at h
        · next hnames => exact ⟨name, hkey, hnames, (Option.some.inj h).symm⟩
        · cases h
      · rintro ⟨other, hother, hnames, rfl⟩
        obtain rfl : name = other := (String.append_left_inj _).1 (hkey.symm.trans hother)
        rw [if_pos hnames]

/-- What the parts of parameters are made of, entry by entry. -/
abbrev PartsOf (resource : Resource) (entries : Params) (parts : List Part) : Prop :=
  List.Forall₂ (fun entry part => resource.part? entry.1 entry.2 = some part) entries parts

/-- The filters are made of the entries that name a column. -/
theorem filters_eq {entries : Params} {parts : List Part} (h : resource.PartsOf entries parts) :
    filters parts = (entries.filter fun entry => resource.names entry.1).map fun entry =>
      (entry.1, entry.2, (resource.column? entry.1).getD default) := by
  induction h with
  | nil => rfl
  | @cons entry part rest parts hpart _ ih =>
    rcases part?_eq_some_iff.1 hpart with ⟨column, hcolumn, rfl⟩ | ⟨hnone, name, -, -, rfl⟩
    · have hnames : resource.names entry.1 = true := by rw [names_eq_isSome, hcolumn]; rfl
      simp only [filters, ih, List.filter_cons, hnames, if_true, List.map_cons, hcolumn,
        Option.getD_some]
    · have hnames : ¬ resource.names entry.1 = true := by
        rw [names_eq_isSome, hnone]
        exact Bool.false_ne_true
      simp only [filters, ih, List.filter_cons, hnames, Bool.false_eq_true, if_false]

/-- What picks comparators: for each name the key and the token. -/
def picks (resource : Resource) (entries : Params) : Entries (String × String) :=
  entries.filterMap fun entry =>
    if resource.names entry.1 then none
    else (Text.dropEnding? Params.comparatorEnding entry.1).map fun name => (name, entry.1, entry.2)

theorem comparators_eq {entries : Params} {parts : List Part} (h : resource.PartsOf entries parts) :
    comparators parts = Entries.sorted (resource.picks entries) := by
  refine congrArg Entries.sorted ?_
  induction h with
  | nil => rfl
  | @cons entry part rest parts hpart _ ih =>
    rcases part?_eq_some_iff.1 hpart with ⟨column, hcolumn, rfl⟩ | ⟨hnone, name, hkey, -, rfl⟩
    · have hnames : resource.names entry.1 = true := by rw [names_eq_isSome, hcolumn]; rfl
      rw [picks, List.filterMap_cons_none rfl, List.filterMap_cons_none (by rw [if_pos hnames])]
      exact ih
    · have hnames : ¬ resource.names entry.1 = true := by
        rw [names_eq_isSome, hnone]
        exact Bool.false_ne_true
      have hdropped := Text.dropEnding?_eq_some_iff.2 hkey
      simp only [picks, List.filterMap_cons, hnames, Bool.false_eq_true, if_false, hdropped,
        Option.map_some]
      exact congrArg _ ih

theorem mem_picks {entries : Params} {name key token : String} :
    (name, key, token) ∈ resource.picks entries ↔
      (key, token) ∈ entries ∧ key = name ++ Params.comparatorEnding ∧
        resource.names key = false := by
  rw [picks, List.mem_filterMap]
  constructor
  · rintro ⟨entry, hentry, h⟩
    split at h
    · cases h
    · next hnames =>
      obtain ⟨dropped, hdropped, heq⟩ := Option.map_eq_some_iff.1 h
      cases heq
      exact ⟨hentry, Text.dropEnding?_eq_some_iff.1 hdropped, Bool.eq_false_iff.2 hnames⟩
  · rintro ⟨hentry, hkey, hnames⟩
    refine ⟨(key, token), hentry, ?_⟩
    rw [if_neg (Bool.eq_false_iff.1 hnames), Text.dropEnding?_eq_some_iff.2 hkey]
    rfl

/-- No name has its comparator picked twice. -/
theorem nodup_keys_picks {entries : Params} (hkeys : entries.keys.Nodup) :
    (resource.picks entries).keys.Nodup := by
  have hsame : (resource.picks entries).keys.map (· ++ Params.comparatorEnding) =
      (resource.picks entries).map fun pick => pick.2.1 := by
    rw [Entries.keys, List.map_map]
    refine List.map_congr_left fun pick hpick => ?_
    exact (mem_picks.1 hpick).2.1.symm
  have hsub : ((resource.picks entries).map fun pick => pick.2.1).Sublist entries.keys := by
    clear hkeys hsame
    induction entries with
    | nil => exact List.Sublist.refl _
    | cons entry rest ih =>
      rw [picks, List.filterMap_cons]
      split
      · exact ih.cons _
      · next pick hpick =>
        have hkey : pick.2.1 = entry.1 := by
          split at hpick
          · cases hpick
          · obtain ⟨_, -, rfl⟩ := Option.map_eq_some_iff.1 hpick
            rfl
        rw [List.map_cons, hkey]
        exact ih.cons_cons _
  exact List.Nodup.of_map _ (hsame ▸ hkeys.sublist hsub)

theorem mem_free {entry : String × String} :
    entry ∈ free params ↔ entry ∈ params ∧ Params.isReserved entry.1 = false := by
  simp [free]

theorem nodup_keys_free (hkeys : params.keys.Nodup) : (free params).keys.Nodup :=
  hkeys.sublist (List.filter_sublist.map _)

/-- The comparator for a name is picked by the key with the ending, unless that names a column. -/
theorem get?_comparators (hkeys : params.keys.Nodup) {parts : List Part}
    (hparts : resource.PartsOf (free params) parts) {name key token : String} :
    (comparators parts).get? name = some (key, token) ↔
      (key, token) ∈ params ∧ key = name ++ Params.comparatorEnding ∧
        resource.names key = false := by
  have hnodup : Entries.keys (resource.picks (free params)).reverse |>.Nodup := by
    rw [Entries.keys, List.map_reverse, List.nodup_reverse]
    exact nodup_keys_picks (nodup_keys_free hkeys)
  have hmem : (comparators parts).get? name = some (key, token) ↔
      (name, key, token) ∈ resource.picks (free params) := by
    rw [comparators_eq hparts, Entries.get?_sorted]
    constructor
    · intro h
      exact List.mem_reverse.1 (Entries.mem_of_get? h)
    · intro h
      exact Entries.get?_of_mem hnodup (List.mem_reverse.2 h)
  rw [hmem, mem_picks, mem_free]
  constructor
  · rintro ⟨⟨hentry, -⟩, hkey, hnames⟩
    exact ⟨hentry, hkey, hnames⟩
  · rintro ⟨hentry, hkey, hnames⟩
    refine ⟨⟨hentry, ?_⟩, hkey, hnames⟩
    show Params.isReserved key = false
    rw [hkey]
    exact Params.isReserved_comparator name

/-- The comparator of a filter is found among the parts. -/
theorem comparatorFor_ok_iff (hkeys : params.keys.Nodup) {parts : List Part}
    (hparts : resource.PartsOf (free params) parts) {key : String} {comparator : Comparator} :
    comparatorFor (comparators parts) key = .ok comparator ↔
      resource.comparatorOf? params key = some comparator := by
  have hread : ∀ token, Comparator.read token = .ok comparator ↔
      Comparator.ofToken? token = some comparator := by
    intro token
    unfold Comparator.read
    cases Comparator.ofToken? token <;> simp
  have hfind : ∀ found token, (comparators parts).get? key = some (found, token) ↔ _ :=
    fun _ _ => get?_comparators hkeys hparts
  unfold comparatorFor comparatorOf?
  cases hpicked : (comparators parts).get? key with
  | some found =>
    obtain ⟨hentry, hkey, hnames⟩ := (hfind found.1 found.2).1 hpicked
    rw [← hkey, Entries.get?_of_mem hkeys hentry]
    simp only [hnames, Bool.false_eq_true, if_false]
    exact hread found.2
  | none =>
    have hequal : (.ok .eq : Except Fault Comparator) = .ok comparator ↔
        some Comparator.eq = some comparator := by simp
    cases htoken : params.get? (key ++ Params.comparatorEnding) with
    | none => exact hequal
    | some token =>
      have hnames : resource.names (key ++ Params.comparatorEnding) = true := by
        rw [← Bool.not_eq_false]
        intro hnames
        rw [(hfind _ token).2 ⟨Entries.mem_of_get? htoken, rfl, hnames⟩] at hpicked
        cases hpicked
      simp only [hnames, if_true]
      exact hequal

/-! ## Reading filters, orders and pages -/

/-- A condition is read with its comparator and then its value. -/
theorem condition_eq (comparators : Entries (String × String)) (key raw : String)
    (column : Column) : condition comparators (key, raw, column) =
      comparatorFor comparators key >>= fun comparator =>
        (if comparator = .like then .ok (Json.str (Params.pattern raw))
          else (ParamKind.ofColumn column).read key raw) >>= fun value =>
            .ok ⟨column, comparator, value⟩ := by
  unfold condition comparatorFor
  dsimp only
  generalize comparators.get? key = picked
  have hvalue : ∀ comparator : Comparator,
      (if comparator = .like then
          .ok (Json.str (Params.pattern raw)) >>= fun value => .ok ⟨column, comparator, value⟩
        else (ParamKind.ofColumn column).read key raw >>= fun value =>
          .ok ⟨column, comparator, value⟩ : Except Fault Condition) =
      (if comparator = .like then .ok (Json.str (Params.pattern raw))
        else (ParamKind.ofColumn column).read key raw) >>= fun value =>
          .ok ⟨column, comparator, value⟩ := by
    intro comparator
    split <;> rfl
  cases picked with
  | none => simp only [hvalue]
  | some picked => simp only [hvalue]

theorem condition_ok_iff {comparators : Entries (String × String)} {key raw : String}
    {column : Column} {result : Condition} :
    condition comparators (key, raw, column) = .ok result ↔
      result.column = column ∧ comparatorFor comparators key = .ok result.comparator ∧
        result.comparator.operand? column raw = some result.value := by
  have hoperand : ∀ (comparator : Comparator) value,
      (if comparator = .like then .ok (Json.str (Params.pattern raw))
        else (ParamKind.ofColumn column).read key raw : Except Fault Json) = .ok value ↔
      comparator.operand? column raw = some value := by
    intro comparator value
    unfold Comparator.operand? ParamKind.read
    by_cases hlike : comparator = .like
    · simp [hlike]
    · cases (ParamKind.ofColumn column).value? raw <;> simp [hlike]
  rw [condition_eq, bind_ok_iff]
  simp only [bind_ok_iff, hoperand, Except.ok.injEq]
  constructor
  · rintro ⟨comparator, hcomparator, value, hvalue, rfl⟩
    exact ⟨rfl, hcomparator, hvalue⟩
  · rintro ⟨rfl, hcomparator, hvalue⟩
    exact ⟨_, hcomparator, _, hvalue, rfl⟩

/-- Conditions are read exactly where each filter has one. -/
theorem conditions_ok_iff (hcompile : compile schema root = .ok resource)
    (hkeys : params.keys.Nodup) {parts : List Part}
    (hparts : resource.PartsOf (free params) parts) {conditions : List Condition} :
    (filters parts).mapM (condition (comparators parts)) = .ok conditions ↔
      List.Forall₂ (fun entry condition => resource.Compares params entry.1 entry.2 condition)
        (params.filter fun entry => resource.isFilter entry.1) conditions := by
  have hsame : (free params).filter (fun entry => resource.names entry.1) =
      params.filter fun entry => resource.isFilter entry.1 := by
    rw [free, List.filter_filter]
    refine List.filter_congr fun entry _ => ?_
    rw [isFilter, Bool.and_comm]
  rw [mapM_ok_iff, filters_eq hparts, hsame, List.forall₂_map_left_iff]
  have hentry : ∀ entry ∈ params.filter fun entry => resource.isFilter entry.1, ∀ result,
      condition (comparators parts)
          (entry.1, entry.2, (resource.column? entry.1).getD default) = .ok result ↔
        resource.Compares params entry.1 entry.2 result := by
    intro entry hentry result
    have hfilter := (List.mem_filter.1 hentry).2
    rw [isFilter, Bool.and_eq_true, names_eq_isSome] at hfilter
    obtain ⟨column, hcolumn⟩ := Option.isSome_iff_exists.1 hfilter.2
    rw [condition_ok_iff, comparatorFor_ok_iff hkeys hparts, hcolumn, Option.getD_some]
    constructor
    · rintro ⟨rfl, hcomparator, hvalue⟩
      exact ⟨(named_iff hcompile).1 hcolumn, hcomparator, hvalue⟩
    · rintro ⟨hnamed, hcomparator, hvalue⟩
      rw [← named_iff hcompile, hcolumn] at hnamed
      obtain rfl := Option.some.inj hnamed
      exact ⟨rfl, hcomparator, hvalue⟩
  exact forall₂_congr_left hentry

/-- Every comparator has a filter to be for exactly when the names in front of the ending are
given. -/
theorem find?_comparators_eq_none_iff (hkeys : params.keys.Nodup) {parts : List Part}
    (hparts : resource.PartsOf (free params) parts) :
    (comparators parts).find? (fun entry => !params.has entry.1) = none ↔
      ∀ name, name ++ Params.comparatorEnding ∈ params.keys →
        resource.names (name ++ Params.comparatorEnding) = false → name ∈ params.keys := by
  simp only [List.find?_eq_none, Bool.not_eq_true', Bool.not_eq_false, Entries.has_iff]
  have hnodup : (comparators parts).keys.Nodup :=
    (Entries.pairwise_keys_sorted _).imp fun hlt heq => absurd (heq ▸ hlt) (String.lt_irrefl _)
  constructor
  · intro h name hkey hnames
    obtain ⟨⟨key, token⟩, hentry, rfl⟩ := List.mem_map.1 hkey
    have hget := (get?_comparators hkeys hparts).2 ⟨hentry, rfl, hnames⟩
    exact h _ (Entries.mem_of_get? hget)
  · rintro h ⟨name, key, token⟩ hentry
    obtain ⟨hgiven, rfl, hnames⟩ :=
      (get?_comparators hkeys hparts).1 (Entries.get?_of_mem hnodup hentry)
    exact h name (List.mem_map_of_mem hgiven) hnames

/-- All parameters are parts with filters to be for exactly when all keys have a meaning. -/
theorem hasMeaning_iff (hkeys : params.keys.Nodup) :
    (∀ key ∈ params.keys, resource.HasMeaning params key) ↔
      ∃ parts, resource.PartsOf (free params) parts ∧
        (comparators parts).find? (fun entry => !params.has entry.1) = none := by
  constructor
  · intro h
    have hpart : ∀ entry ∈ free params, ∃ part, resource.part? entry.1 entry.2 = some part := by
      intro entry hentry
      obtain ⟨hmem, hfree⟩ := mem_free.1 hentry
      rcases h entry.1 (List.mem_map_of_mem hmem) with hreserved | hnames | ⟨name, hkey, hnames, -⟩
      · rw [hfree] at hreserved
        cases hreserved
      · rw [names_eq_isSome] at hnames
        obtain ⟨column, hcolumn⟩ := Option.isSome_iff_exists.1 hnames
        exact ⟨_, part?_eq_some_iff.2 (.inl ⟨column, hcolumn, rfl⟩)⟩
      · cases hcolumn : resource.column? entry.1 with
        | some column => exact ⟨_, part?_eq_some_iff.2 (.inl ⟨column, hcolumn, rfl⟩)⟩
        | none => exact ⟨_, part?_eq_some_iff.2 (.inr ⟨hcolumn, name, hkey, hnames, rfl⟩)⟩
    obtain ⟨parts, hparts⟩ := exists_forall₂ hpart
    refine ⟨parts, hparts, (find?_comparators_eq_none_iff hkeys hparts).2 fun name hkey hnone => ?_⟩
    rcases h _ hkey with hreserved | hnames | ⟨other, hother, -, hgiven⟩
    · rw [Params.isReserved_comparator] at hreserved
      cases hreserved
    · rw [hnone] at hnames
      cases hnames
    · rwa [(String.append_left_inj _).1 hother]
  · rintro ⟨parts, hparts, hgiven⟩ key hkey
    rw [find?_comparators_eq_none_iff hkeys hparts] at hgiven
    obtain ⟨⟨key, raw⟩, hentry, rfl⟩ := List.mem_map.1 hkey
    by_cases hreserved : Params.isReserved key = true
    · exact .inl hreserved
    · have hfree : (key, raw) ∈ free params := mem_free.2 ⟨hentry, Bool.eq_false_iff.2 hreserved⟩
      obtain ⟨part, -, hpart⟩ := exists_of_forall₂_left hparts hfree
      rcases part?_eq_some_iff.1 hpart with ⟨column, hcolumn, -⟩ | ⟨hnone, name, rfl, hnames, -⟩
      · refine .inr (.inl ?_)
        rw [names_eq_isSome, hcolumn]
        rfl
      · refine .inr (.inr ⟨name, rfl, hnames, hgiven name hkey ?_⟩)
        rw [names_eq_isSome, hnone]
        rfl

/-- A filter is read exactly where the parameters denote it. -/
theorem readFilter_ok_iff (hcompile : compile schema root = .ok resource)
    (hkeys : params.keys.Nodup) {filter : Filter} :
    resource.readFilter params = .ok filter ↔ resource.DenotesFilter params filter := by
  unfold readFilter
  cases hsearch : params.get? Params.search with
  | some term =>
    have hreserved : params.keys.find? (fun key => !Params.isReserved key) = none ↔
        ∀ key ∈ params.keys, Params.isReserved key = true := by
      simp [List.find?_eq_none]
    dsimp only
    unfold searchFilter
    cases filter with
    | every conditions =>
      constructor
      · intro h
        split at h <;> cases h
      · rintro ⟨hnone, -⟩
        rw [hsearch] at hnone
        cases hnone
    | search pattern =>
      constructor
      · intro h
        split at h
        · cases h
        · next hnone =>
          cases h
          exact ⟨⟨term, hsearch, rfl⟩, hreserved.1 hnone⟩
      · rintro ⟨⟨other, hother, rfl⟩, hall⟩
        rw [hsearch] at hother
        cases hother
        rw [hreserved.2 hall]
  | none =>
    dsimp only
    unfold conditionFilter
    simp only [bind_ok_iff, parts_ok_iff]
    cases filter with
    | search pattern =>
      constructor
      · rintro ⟨parts, -, h⟩
        split at h
        · cases h
        · obtain ⟨conditions, -, h⟩ := ok_of_bind h
          cases h
      · rintro ⟨⟨term, hterm, -⟩, -⟩
        rw [hsearch] at hterm
        cases hterm
    | every conditions =>
      constructor
      · rintro ⟨parts, hparts, h⟩
        split at h
        · cases h
        · next hgiven =>
          obtain ⟨read, hread, h⟩ := ok_of_bind h
          cases h
          exact ⟨hsearch, (hasMeaning_iff hkeys).2 ⟨parts, hparts, hgiven⟩,
            (conditions_ok_iff hcompile hkeys hparts).1 hread⟩
      · rintro ⟨-, hmeaning, hconditions⟩
        obtain ⟨parts, hparts, hgiven⟩ := (hasMeaning_iff hkeys).1 hmeaning
        refine ⟨parts, hparts, ?_⟩
        rw [hgiven]
        have hread := (conditions_ok_iff hcompile hkeys hparts).2 hconditions
        exact bind_ok_iff.2 ⟨conditions, hread, rfl⟩

theorem ofWord?_eq_some_iff {word : String} {direction : Direction} :
    Direction.ofWord? word = some direction ↔ Text.upper word = direction.sql := by
  unfold Direction.ofWord?
  by_cases hrises : Text.upper word = "ASC"
  · rw [if_pos hrises, hrises]
    cases direction <;> simp [Direction.sql]
  · rw [if_neg hrises]
    by_cases hfalls : Text.upper word = "DESC"
    · rw [if_pos hfalls, hfalls]
      cases direction <;> simp [Direction.sql]
    · rw [if_neg hfalls]
      cases direction <;> simp [Direction.sql, hrises, hfalls]

/-- An order is read exactly where the parameters ask for it, or for none. -/
theorem readOrder_ok_iff (hcompile : compile schema root = .ok resource) {order : Option Order} :
    resource.readOrder params = .ok order ↔
      (params.Unordered ∧ order = none) ∨
        ∃ requested, order = some requested ∧ resource.Orders params requested := by
  constructor
  · intro h
    unfold readOrder at h
    split at h
    · next hby hdir =>
      cases h
      exact .inl ⟨⟨hby, hdir⟩, rfl⟩
    · next name word hby hdir =>
      split at h
      · cases h
      · next column hcolumn =>
        split at h
        · next direction hdirection =>
          cases h
          exact .inr ⟨_, rfl, ⟨name, hby, (named_iff hcompile).1 hcolumn⟩,
            ⟨word, hdir, ofWord?_eq_some_iff.1 hdirection⟩⟩
        · cases h
    · cases h
  · rintro (⟨⟨hby, hdir⟩, rfl⟩ | ⟨⟨column, direction⟩, rfl, ⟨name, hby, hnamed⟩, word, hdir, hword⟩)
    · rw [readOrder, hby, hdir]
    · have hcolumn := (named_iff hcompile).2 hnamed
      have hdirection := ofWord?_eq_some_iff.2 hword
      simp only [readOrder, hby, hdir, hcolumn, hdirection]

/-- A page is read and found in range exactly where the parameters ask for it. -/
theorem readPage_ok_iff {limit : Nat} {page : Option Page} :
    readPage params limit = .ok page ∧ checkPage page = .ok () ↔ params.DenotesPage limit page := by
  constructor
  · rintro ⟨hread, hcheck⟩
    unfold readPage at hread
    split at hread
    · next hnone =>
      split at hread
      · next hlimit =>
        cases hread
        exact ⟨hlimit, hnone⟩
      · cases hread
    · next raw hraw =>
      split at hread
      · cases hread
      · next hlimit =>
        split at hread
        · next number hnumber =>
          split at hread
          · next hpositive =>
            cases hread
            have hcounted : (number - 1) * limit < UInt64.size := by
              by_contra hbeyond
              cases (if_neg hbeyond).symm.trans hcheck
            exact ⟨Nat.pos_of_ne_zero hlimit, rfl, hpositive, hcounted, raw, hraw, hnumber⟩
          · cases hread
        · cases hread
  · cases page with
    | none =>
      rintro ⟨hlimit, hnone⟩
      refine ⟨?_, rfl⟩
      rw [readPage, hnone]
      exact if_pos hlimit
    | some page =>
      obtain ⟨number, own⟩ := page
      rintro ⟨hlimit, rfl, hpositive, hcounted, raw, hraw, hnumber⟩
      have hpages : own ≠ 0 := Nat.ne_of_gt hlimit
      constructor
      · simp only [readPage, hraw, hnumber, if_neg hpages, if_pos (show 0 < number from hpositive)]
      · exact if_pos hcounted

/-- **Reading is the grammar.** Parameters are read as the selection that they denote, and as
no other. -/
theorem readList_ok_iff (hcompile : compile schema root = .ok resource)
    (hkeys : params.keys.Nodup) {limit : Nat} {selection : Selection} :
    resource.readList params limit = .ok selection ↔ resource.Denotes params limit selection := by
  unfold readList
  simp only [bind_ok_iff, readFilter_ok_iff hcompile hkeys, readOrder_ok_iff hcompile]
  constructor
  · rintro ⟨filter, hfilter, page, hpage, order, horder, ⟨⟩, hcheck, h⟩
    cases h
    refine ⟨hfilter, readPage_ok_iff.1 ⟨hpage, hcheck⟩, ?_⟩
    rcases horder with ⟨hunordered, rfl⟩ | ⟨requested, rfl, horders⟩
    · exact .inl ⟨hunordered, rfl⟩
    · exact .inr ⟨requested, rfl, horders⟩
  · rintro ⟨hfilter, hpage, horder⟩
    obtain ⟨hread, hcheck⟩ := readPage_ok_iff.2 hpage
    rcases horder with ⟨hunordered, horder⟩ | ⟨requested, horder, horders⟩
    · refine ⟨_, hfilter, _, hread, none, .inl ⟨hunordered, rfl⟩, (), hcheck, ?_⟩
      rw [Option.orElse_none, ← horder]
    · refine ⟨_, hfilter, _, hread, some requested, .inr ⟨requested, rfl, horders⟩, (), hcheck, ?_⟩
      rw [Option.orElse_some, ← horder]

/-- Parameters can be read exactly when they are accepted. -/
theorem isSome_readList_iff (hcompile : compile schema root = .ok resource)
    (hkeys : params.keys.Nodup) {limit : Nat} :
    (resource.readList params limit).toOption.isSome = true ↔ resource.Accepts params limit := by
  rw [← denotes_iff_accepts hcompile]
  simp only [← readList_ok_iff hcompile hkeys]
  cases resource.readList params limit <;> simp [Except.toOption]

end Resource

end TableApi
