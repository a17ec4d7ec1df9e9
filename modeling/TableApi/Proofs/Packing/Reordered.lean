import TableApi.Proofs.Statements.Bodies

/-!
# Computations on reordered objects

An object is a map that remembers the order of its keys. Two values are *reordered* when they
are the same maps, in objects and in objects of objects (`Json.Reordered`). Two computations on
reordered objects are compared by how they end: both succeed, with results that are related,
or both fail alike (`EndsAlike`). Of several unknown keys the first is reported, so that faults
may differ in that key. Packing also draws identifiers; two runs are alike when they also leave
the source of identifiers in one state (`RunsAlike`).
-/

namespace TableApi

/-! ## Values but for the order of keys -/

/-- The same value, but for the order of keys in an object and in the objects in it. -/
inductive Json.Reordered : Json → Json → Prop
  | refl (value : Json) : Reordered value value
  | obj {members others : Entries Json} (hkeys : members.keys.Perm others.keys)
      (hvalues : ∀ key value value', members.get? key = some value →
        others.get? key = some value' → Reordered value value') :
      Reordered (.obj members) (.obj others)

/-- The same entries in another order, with values that may be reordered as well. -/
structure Entries.Reordered (entries others : Entries Json) : Prop where
  keys : entries.keys.Perm others.keys
  values : ∀ key value value', entries.get? key = some value → others.get? key = some value' →
    value.Reordered value'

/-- Entries under the same keys in the same order, with values that are like each other. -/
def Entries.Like (like : Json → Json → Prop) (entries others : Entries Json) : Prop :=
  List.Forall₂ (fun entry other => entry.1 = other.1 ∧ like entry.2 other.2) entries others

theorem SameKeys.of_perm {entries others : Entries Json} (h : entries.keys.Perm others.keys) :
    SameKeys entries others :=
  ⟨fun _ hkey => h.mem_iff.1 hkey, fun _ hkey => h.mem_iff.2 hkey⟩

/-- Where the keys are the same, related values are found under a key, or none. -/
theorem SameKeys.rel_get? {entries others : Entries Json} (h : SameKeys entries others) {key : String}
    {r : Json → Json → Prop} (hvalues : ∀ value value', entries.get? key = some value →
      others.get? key = some value' → r value value') :
    Option.Rel r (entries.get? key) (others.get? key) := by
  have hhas : (entries.get? key).isSome = (others.get? key).isSome := h.has_eq key
  cases hvalue : entries.get? key with
  | none =>
    rw [hvalue] at hhas
    have hnone : others.get? key = none := by simpa using hhas.symm
    rw [hnone]
    exact .none
  | some value =>
    rw [hvalue] at hhas
    obtain ⟨value', hvalue'⟩ := Option.isSome_iff_exists.1 hhas.symm
    rw [hvalue']
    exact .some (hvalues value value' hvalue hvalue')

namespace Entries

variable {entries others : Entries Json} {like : Json → Json → Prop}

theorem Reordered.refl (entries : Entries Json) : entries.Reordered entries :=
  ⟨.refl _, fun _ _ _ hvalue hvalue' =>
    Option.some.inj (hvalue.symm.trans hvalue') ▸ .refl _⟩

theorem Reordered.rel_get? (h : entries.Reordered others) (key : String) :
    Option.Rel Json.Reordered (entries.get? key) (others.get? key) :=
  (SameKeys.of_perm h.keys).rel_get? (h.values key)

theorem Like.keys_eq (h : Entries.Like like entries others) : entries.keys = others.keys := by
  induction h with
  | nil => rfl
  | cons hentry _ ih => rw [keys_cons, keys_cons, hentry.1, ih]

theorem Like.rel_get? (h : Entries.Like like entries others) (key : String) :
    Option.Rel like (entries.get? key) (others.get? key) := by
  induction h with
  | nil => exact .none
  | @cons entry other rest rest' hentry _ ih =>
    obtain ⟨own, value⟩ := entry
    obtain ⟨own', value'⟩ := other
    obtain ⟨rfl, hvalue⟩ := hentry
    rw [get?_cons, get?_cons]
    split
    · exact .some hvalue
    · exact ih

theorem like_eq_iff : Entries.Like (· = ·) entries others ↔ entries = others := by
  have hentry : ∀ entry other : String × Json,
      (entry.1 = other.1 ∧ entry.2 = other.2) ↔ entry = other := fun _ _ => Prod.ext_iff.symm
  simp only [Like, hentry, List.forall₂_eq_eq_eq]

theorem Like.reordered (h : Entries.Like Json.Reordered entries others) :
    entries.Reordered others := by
  refine ⟨h.keys_eq ▸ .refl _, fun key value value' hvalue hvalue' => ?_⟩
  have hrel := h.rel_get? key
  rw [hvalue, hvalue'] at hrel
  cases hrel with
  | some hreordered => exact hreordered

/-- Entries are reordered by putting them in another order and reordering their values. -/
theorem reordered_of_perm {middle : Entries Json} (hnodup : entries.keys.Nodup)
    (hperm : entries.Perm middle) (hlike : Entries.Like Json.Reordered middle others) :
    entries.Reordered others := by
  have hkeys : entries.keys.Perm middle.keys := hperm.map _
  refine ⟨hlike.keys_eq ▸ hkeys, fun key value value' hvalue hvalue' => ?_⟩
  have hmiddle : middle.get? key = some value :=
    get?_of_mem (hkeys.nodup_iff.1 hnodup) (hperm.mem_iff.1 (mem_of_get? hvalue))
  exact hlike.reordered.values key value value' hmiddle hvalue'

end Entries

theorem Json.reordered_obj_iff {members others : Entries Json} :
    Json.Reordered (.obj members) (.obj others) ↔ members.Reordered others := by
  constructor
  · intro h
    cases h with
    | refl => exact .refl members
    | obj hkeys hvalues => exact ⟨hkeys, hvalues⟩
  · intro h
    exact .obj h.keys h.values

/-- Reordered values are objects, or equal. -/
theorem Json.Reordered.eq_or_objects {value value' : Json} (h : value.Reordered value') :
    value.members? = none ∧ value' = value ∨
      ∃ nested nested', value = .obj nested ∧ value' = .obj nested' ∧
        Entries.Reordered nested nested' := by
  cases h with
  | refl =>
    cases value with
    | obj nested => exact .inr ⟨nested, nested, rfl, rfl, .refl nested⟩
    | _ => exact .inl ⟨rfl, rfl⟩
  | obj hkeys hvalues => exact .inr ⟨_, _, rfl, rfl, hkeys, hvalues⟩

/-! ## How two computations end -/

/-- The same fault, but that another unknown key may be reported. -/
inductive Fault.UpToKey : Fault → Fault → Prop
  | refl (fault : Fault) : UpToKey fault fault
  | unknownField (key key' : String) :
      UpToKey (.badRequest (.unknownField key)) (.badRequest (.unknownField key'))

/-- Faults that differ at most in an unknown key are of one kind, and name the same missing
field if they are about one. -/
theorem Fault.UpToKey.same_kind {fault other : Fault} (h : fault.UpToKey other) :
    fault.code = other.code ∧ ∀ name, fault = .missingField name ↔ other = .missingField name := by
  cases h with
  | refl => exact ⟨rfl, fun _ => Iff.rfl⟩
  | unknownField => exact ⟨rfl, fun _ => ⟨nofun, nofun⟩⟩

/-- Two computations both succeed with related results, or fail alike. -/
inductive EndsAlike {α β : Type} (r : α → β → Prop) : Except Fault α → Except Fault β → Prop
  | ok {value value'} (h : r value value') : EndsAlike r (.ok value) (.ok value')
  | error {fault fault'} (h : fault.UpToKey fault') : EndsAlike r (.error fault) (.error fault')

namespace EndsAlike

variable {α β γ δ : Type} {r : α → β → Prop} {s : γ → δ → Prop} {ends : Except Fault α}
  {ends' : Except Fault β}

/-- A computation ends like itself. -/
theorem refl {r : α → α → Prop} (hrefl : ∀ value, r value value) (ends : Except Fault α) :
    EndsAlike r ends ends := by
  cases ends with
  | error fault => exact .error (.refl fault)
  | ok value => exact .ok (hrefl value)

theorem mono {r' : α → β → Prop} (h : EndsAlike r ends ends')
    (hle : ∀ value value', r value value' → r' value value') : EndsAlike r' ends ends' := by
  cases h with
  | ok h => exact .ok (hle _ _ h)
  | error h => exact .error h

theorem bind (h : EndsAlike r ends ends') {rest : α → Except Fault γ} {rest' : β → Except Fault δ}
    (hrest : ∀ value value', r value value' → EndsAlike s (rest value) (rest' value')) :
    EndsAlike s (ends >>= rest) (ends' >>= rest') := by
  cases h with
  | ok h => exact hrest _ _ h
  | error h => exact .error h

end EndsAlike

/-- Two runs end alike from every state of the source of identifiers and leave it in the same
state. -/
def RunsAlike {σ α β : Type} (r : α → β → Prop) (run : Packing σ α) (run' : Packing σ β) : Prop :=
  ∀ start, (outcome run start).2 = (outcome run' start).2 ∧
    EndsAlike r (outcome run start).1 (outcome run' start).1

namespace RunsAlike

variable {σ α β γ δ : Type} {r : α → β → Prop} {s : γ → δ → Prop} {run : Packing σ α}
  {run' : Packing σ β}

theorem pure {value : α} {value' : β} (h : r value value') :
    RunsAlike r (Pure.pure value : Packing σ α) (Pure.pure value') :=
  fun _ => ⟨rfl, .ok h⟩

/-- A run is like itself. -/
theorem refl {r : α → α → Prop} (hrefl : ∀ value, r value value) (run : Packing σ α) :
    RunsAlike r run run :=
  fun _ => ⟨rfl, .refl hrefl _⟩

theorem mono {r' : α → β → Prop} (h : RunsAlike r run run')
    (hle : ∀ value value', r value value' → r' value value') : RunsAlike r' run run' :=
  fun start => ⟨(h start).1, (h start).2.mono hle⟩

/-- A step without a state. -/
theorem lift {ends : Except Fault α} {ends' : Except Fault β} (h : EndsAlike r ends ends') :
    RunsAlike r (liftM ends : Packing σ α) (liftM ends') :=
  fun _ => ⟨rfl, h⟩

theorem bind (h : RunsAlike r run run') {rest : α → Packing σ γ} {rest' : β → Packing σ δ}
    (hrest : ∀ value value', r value value' → RunsAlike s (rest value) (rest' value')) :
    RunsAlike s (run >>= rest) (run' >>= rest') := by
  intro start
  obtain ⟨hstate, hends⟩ := h start
  rw [outcome_bind, outcome_bind]
  generalize outcome run start = first, outcome run' start = first' at hstate hends
  obtain ⟨ends, middle⟩ := first
  obtain ⟨ends', middle'⟩ := first'
  obtain rfl : middle = middle' := hstate
  cases hends with
  | ok h => exact hrest _ _ h middle
  | error h => exact ⟨rfl, .error h⟩

end RunsAlike

end TableApi
