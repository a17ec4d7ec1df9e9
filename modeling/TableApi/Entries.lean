/-!
# Entries: maps that remember their order

A JSON object, a pack and a set of request parameters are all finite maps whose
order shows in an answer. `Entries` is such a map: a list of keys with values,
read from the front. `put` keeps a key where it was first written; `putSorted`
keeps the keys in ascending order, which for strings is the order of their
UTF-8 bytes. The lemmas say what is found after a write and what becomes of the
keys; entries built by `ofList` or `sorted` have no key twice.
-/

namespace TableApi

/-- Keys with values, in order. -/
abbrev Entries (α : Type) : Type := List (String × α)

namespace Entries

variable {α : Type}

/-- The value of the first entry under `key`. -/
def get? : Entries α → String → Option α
  | [], _ => none
  | (k, v) :: rest, key => if k = key then some v else get? rest key

/-- Whether some entry stands under `key`. -/
def has (entries : Entries α) (key : String) : Bool :=
  (entries.get? key).isSome

def keys (entries : Entries α) : List String :=
  entries.map (·.1)

/-- Writes an entry: a key already present keeps its place and takes the new
value, a new key goes to the end. -/
def put : Entries α → String → α → Entries α
  | [], key, value => [(key, value)]
  | (k, v) :: rest, key, value =>
    if k = key then (k, value) :: rest else (k, v) :: put rest key value

/-- The entries written one after another, so that of two values for one key
the later stands in the place of the earlier. -/
def ofList (pairs : List (String × α)) : Entries α :=
  pairs.foldl (fun entries pair => put entries pair.1 pair.2) []

/-- Writes an entry among entries in ascending order of keys. -/
def putSorted : Entries α → String → α → Entries α
  | [], key, value => [(key, value)]
  | (k, v) :: rest, key, value =>
    if key = k then (k, value) :: rest
    else if key < k then (key, value) :: (k, v) :: rest
    else (k, v) :: putSorted rest key value

/-- The entries in ascending order of keys; of two values for one key the later
counts. -/
def sorted (pairs : List (String × α)) : Entries α :=
  pairs.foldl (fun entries pair => putSorted entries pair.1 pair.2) []

/-! ## Looking up -/

@[simp] theorem get?_nil (key : String) : get? ([] : Entries α) key = none := rfl

/-- A look-up stops at the first entry of its key. -/
theorem get?_cons (k : String) (v : α) (rest : Entries α) (key : String) :
    get? ((k, v) :: rest) key = if k = key then some v else get? rest key := rfl

@[simp] theorem keys_nil : keys ([] : Entries α) = [] := rfl

@[simp] theorem keys_cons (entry : String × α) (rest : Entries α) :
    keys (entry :: rest) = entry.1 :: keys rest := rfl

/-- A key has an entry exactly when it is one of the keys. -/
theorem has_iff (entries : Entries α) (key : String) :
    entries.has key = true ↔ key ∈ entries.keys := by
  unfold has
  induction entries with
  | nil => simp
  | cons entry rest ih =>
    obtain ⟨k, v⟩ := entry
    by_cases h : k = key
    · simp [get?, h]
    · simp [get?, h, ih, Ne.symm h]

/-- Nothing is found exactly under what is no key. -/
theorem get?_eq_none_iff (entries : Entries α) (key : String) :
    entries.get? key = none ↔ key ∉ entries.keys := by
  rw [← has_iff]
  unfold has
  cases entries.get? key <;> simp

theorem mem_of_get? {entries : Entries α} {key : String} {value : α}
    (h : entries.get? key = some value) : (key, value) ∈ entries := by
  induction entries with
  | nil => simp at h
  | cons entry rest ih =>
    obtain ⟨k, v⟩ := entry
    by_cases hk : k = key
    · simp_all [get?]
    · simp only [get?, hk, if_false] at h
      exact List.mem_cons_of_mem _ (ih h)

/-- Where no key stands twice, every entry is found under its key. -/
theorem get?_of_mem {entries : Entries α} {key : String} {value : α}
    (hkeys : entries.keys.Nodup) (h : (key, value) ∈ entries) :
    entries.get? key = some value := by
  induction entries with
  | nil => simp at h
  | cons entry rest ih =>
    obtain ⟨k, v⟩ := entry
    rw [keys_cons, List.nodup_cons] at hkeys
    rcases List.mem_cons.1 h with heq | hrest
    · cases heq
      rw [get?_cons, if_pos rfl]
    · have hne : k ≠ key := fun heq => hkeys.1 (List.mem_map.2 ⟨_, hrest, heq.symm⟩)
      rw [get?_cons, if_neg hne]
      exact ih hkeys.2 hrest

/-- Behind other entries an entry is found only under a key that they lack. -/
theorem get?_append (entries others : Entries α) (key : String) :
    get? (entries ++ others) key = (get? entries key).or (get? others key) := by
  induction entries with
  | nil => rfl
  | cons entry rest ih =>
    obtain ⟨k, v⟩ := entry
    by_cases h : k = key <;> simp [get?, h, ih]

/-! ## Writing -/

@[simp] theorem get?_put_self (entries : Entries α) (key : String) (value : α) :
    get? (put entries key value) key = some value := by
  induction entries with
  | nil => simp [put, get?]
  | cons entry rest ih =>
    obtain ⟨k, v⟩ := entry
    by_cases h : k = key <;> simp [put, get?, h, ih]

/-- Writing one key leaves every other as it was. -/
theorem get?_put_of_ne (entries : Entries α) {key other : String} (value : α)
    (h : other ≠ key) : get? (put entries key value) other = get? entries other := by
  induction entries with
  | nil => simp [put, get?, Ne.symm h]
  | cons entry rest ih =>
    obtain ⟨k, v⟩ := entry
    by_cases hk : k = key
    · subst hk; simp [put, get?, Ne.symm h]
    · simp [put, get?, hk, ih]

/-- Whatever is read after a write is the written value or was there before. -/
theorem get?_put (entries : Entries α) (key other : String) (value : α) :
    get? (put entries key value) other =
      if key = other then some value else get? entries other := by
  split
  · next h => rw [← h, get?_put_self]
  · next h => exact get?_put_of_ne entries value (Ne.symm h)

/-- Nothing stands among entries after a write but what was written or was there. -/
theorem mem_put {entries : Entries α} {key : String} {value : α} {entry : String × α}
    (h : entry ∈ entries.put key value) : entry = (key, value) ∨ entry ∈ entries := by
  induction entries with
  | nil => exact .inl (by simpa [put] using h)
  | cons first rest ih =>
    obtain ⟨k, v⟩ := first
    by_cases hk : k = key
    · simp only [put, hk, if_true, List.mem_cons] at h
      exact h.imp_right (List.mem_cons_of_mem _)
    · simp only [put, hk, if_false, List.mem_cons] at h
      rcases h with h | h
      · exact .inr (h ▸ List.mem_cons_self)
      · exact (ih h).imp_right (List.mem_cons_of_mem _)

/-- A key that is there keeps its place; a new one goes to the end. -/
theorem keys_put (entries : Entries α) (key : String) (value : α) :
    (entries.put key value).keys =
      if key ∈ entries.keys then entries.keys else entries.keys ++ [key] := by
  induction entries with
  | nil => simp [put]
  | cons entry rest ih =>
    obtain ⟨k, v⟩ := entry
    by_cases hk : k = key
    · simp [put, hk]
    · by_cases hr : key ∈ keys rest <;> simp [put, hk, ih, hr, Ne.symm hk]

/-- Writing never makes a key stand twice. -/
theorem nodup_keys_put {entries : Entries α} (h : entries.keys.Nodup) (key : String)
    (value : α) : (entries.put key value).keys.Nodup := by
  rw [keys_put]
  split
  · exact h
  · next hnew =>
    rw [List.nodup_append]
    refine ⟨h, by simp, fun a ha b hb => ?_⟩
    obtain rfl : b = key := by simpa using hb
    exact fun hab => hnew (hab ▸ ha)

/-- A new key is written at the end. -/
theorem put_of_not_mem {entries : Entries α} {key : String} (value : α)
    (h : key ∉ entries.keys) : entries.put key value = entries ++ [(key, value)] := by
  induction entries with
  | nil => rfl
  | cons entry rest ih =>
    obtain ⟨k, v⟩ := entry
    simp only [keys_cons, List.mem_cons, not_or] at h
    simp [put, Ne.symm h.1, ih h.2]

/-- Writing pairs behind entries whose keys they do not repeat appends them. -/
theorem foldl_put_of_nodup (pairs : List (String × α)) (entries : Entries α)
    (h : (entries.keys ++ keys pairs).Nodup) :
    pairs.foldl (fun e pair => put e pair.1 pair.2) entries = entries ++ pairs := by
  induction pairs generalizing entries with
  | nil => simp
  | cons pair rest ih =>
    have hnew : pair.1 ∉ entries.keys := by
      rw [List.nodup_append] at h
      exact fun hmem => h.2.2 _ hmem _ (by simp) rfl
    rw [List.foldl_cons, put_of_not_mem _ hnew, ih]
    · simp
    · simpa [keys] using h

/-- Pairs without a key that stands twice are entries as they are. -/
theorem ofList_eq_self {pairs : List (String × α)} (h : (keys pairs).Nodup) :
    ofList pairs = pairs := by
  have := foldl_put_of_nodup pairs [] (by simpa using h)
  simpa only [ofList, List.nil_append] using this

/-- Entries written one after another have no key twice. -/
theorem nodup_keys_ofList (pairs : List (String × α)) : (ofList pairs).keys.Nodup := by
  suffices h : ∀ (entries : Entries α), entries.keys.Nodup →
      (keys (pairs.foldl (fun e pair => put e pair.1 pair.2) entries)).Nodup from
    h [] (by simp)
  induction pairs with
  | nil => exact fun _ h => h
  | cons pair rest ih => exact fun _ h => ih _ (nodup_keys_put h _ _)

/-- Entries written one after another are among those written. -/
theorem mem_of_mem_ofList {pairs : List (String × α)} {entry : String × α}
    (h : entry ∈ ofList pairs) : entry ∈ pairs := by
  suffices hfold : ∀ (entries : Entries α),
      entry ∈ pairs.foldl (fun e pair => put e pair.1 pair.2) entries →
        entry ∈ entries ∨ entry ∈ pairs from (hfold [] h).resolve_left (by simp)
  clear h
  induction pairs with
  | nil => exact fun _ h => .inl h
  | cons pair rest ih =>
    intro entries h
    rcases ih _ h with hput | hrest
    · exact (mem_put hput).elim (fun heq => .inr (heq ▸ List.mem_cons_self)) .inl
    · exact .inr (List.mem_cons_of_mem _ hrest)

/-- Of several values written under one key the last is read. -/
theorem get?_ofList (pairs : List (String × α)) (key : String) :
    get? (ofList pairs) key = get? pairs.reverse key := by
  suffices hfold : ∀ (entries : Entries α),
      get? (pairs.foldl (fun e pair => put e pair.1 pair.2) entries) key =
        (get? pairs.reverse key).or (get? entries key) by
    simpa [ofList] using hfold []
  induction pairs with
  | nil => exact fun _ => rfl
  | cons pair rest ih =>
    intro entries
    rw [List.foldl_cons, ih, get?_put, List.reverse_cons, get?_append]
    by_cases h : pair.1 = key
    · simp [get?, h]
    · simp [get?, h]

/-! ## Writing in order -/

/-- A value written in order is read back. -/
@[simp] theorem get?_putSorted_self (entries : Entries α) (key : String) (value : α) :
    get? (putSorted entries key value) key = some value := by
  induction entries with
  | nil => simp [putSorted, get?]
  | cons entry rest ih =>
    obtain ⟨k, v⟩ := entry
    by_cases hk : key = k
    · simp [putSorted, get?, hk]
    · by_cases hlt : key < k <;> simp [putSorted, get?, hk, hlt, Ne.symm hk, ih]

/-- Writing one key in order leaves every other as it was. -/
theorem get?_putSorted_of_ne (entries : Entries α) {key other : String} (value : α)
    (h : other ≠ key) : get? (putSorted entries key value) other = get? entries other := by
  induction entries with
  | nil => simp [putSorted, get?, Ne.symm h]
  | cons entry rest ih =>
    obtain ⟨k, v⟩ := entry
    by_cases hk : key = k
    · subst hk; simp [putSorted, get?, Ne.symm h]
    · by_cases hlt : key < k <;> simp [putSorted, get?, hk, hlt, Ne.symm h, ih]

/-- The keys after a value is written in order. -/
theorem mem_keys_putSorted (entries : Entries α) (key : String) (value : α) (other : String) :
    other ∈ (entries.putSorted key value).keys ↔ other = key ∨ other ∈ entries.keys := by
  induction entries with
  | nil => simp [putSorted]
  | cons entry rest ih =>
    obtain ⟨k, v⟩ := entry
    by_cases hk : key = k
    · simp [putSorted, hk]
    · by_cases hlt : key < k
      · simp [putSorted, hk, hlt]
      · simp only [putSorted, hk, hlt, if_false, keys_cons, List.mem_cons, ih]
        exact or_left_comm

theorem pairwise_keys_putSorted {entries : Entries α} (h : entries.keys.Pairwise (· < ·))
    (key : String) (value : α) : (entries.putSorted key value).keys.Pairwise (· < ·) := by
  induction entries with
  | nil => simp [putSorted]
  | cons entry rest ih =>
    obtain ⟨k, v⟩ := entry
    rw [keys_cons, List.pairwise_cons] at h
    by_cases hk : key = k
    · simpa [putSorted, hk, List.pairwise_cons] using h
    · by_cases hlt : key < k
      · simp only [putSorted, hk, hlt, if_false, if_true, keys_cons, List.pairwise_cons]
        refine ⟨fun other hother => ?_, h⟩
        rcases List.mem_cons.1 hother with rfl | hrest
        · exact hlt
        · exact String.lt_trans hlt (h.1 _ hrest)
      · simp only [putSorted, hk, hlt, if_false, keys_cons, List.pairwise_cons]
        refine ⟨fun other hother => ?_, ih h.2⟩
        rcases (mem_keys_putSorted rest key value other).1 hother with rfl | hrest
        · exact Classical.byContradiction fun hge => hk (String.le_antisymm hge hlt)
        · exact h.1 _ hrest

/-- Of several values sorted under one key the last is read. -/
theorem get?_sorted (pairs : List (String × α)) (key : String) :
    get? (sorted pairs) key = get? pairs.reverse key := by
  suffices hfold : ∀ (entries : Entries α),
      get? (pairs.foldl (fun e pair => putSorted e pair.1 pair.2) entries) key =
        (get? pairs.reverse key).or (get? entries key) by
    simpa [sorted] using hfold []
  induction pairs with
  | nil => exact fun _ => rfl
  | cons pair rest ih =>
    intro entries
    rw [List.foldl_cons, ih, List.reverse_cons, get?_append]
    by_cases h : pair.1 = key
    · subst h
      simp [get?]
    · rw [get?_putSorted_of_ne _ _ (Ne.symm h)]
      simp [get?, h]

/-- Sorted entries are in strictly ascending order of keys. -/
theorem pairwise_keys_sorted (pairs : List (String × α)) :
    (sorted pairs).keys.Pairwise (· < ·) := by
  suffices h : ∀ (entries : Entries α), entries.keys.Pairwise (· < ·) →
      (keys (pairs.foldl (fun e pair => putSorted e pair.1 pair.2) entries)).Pairwise (· < ·) from
    h [] (by simp)
  induction pairs with
  | nil => exact fun _ h => h
  | cons pair rest ih => exact fun _ h => ih _ (pairwise_keys_putSorted h _ _)

end Entries

end TableApi
