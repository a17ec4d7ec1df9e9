import TableApi.Api
import TableApi.Catalog
import TableApi.Proofs.Packing

/-!
# Calls to the database

`World.recorded` is a world that does what another does and writes down every call
made to it, with its answer. An operation is *traced* in a world when it comes to
the same in the recorded one; the trace is what it asked of the database.

Creating and deleting are all or nothing: what fails has changed nothing, and what
succeeds has run one transaction, of exactly the statements that the request asks
for. For creating this hangs on a step that could fail after the transaction: the
new pack is renamed back for the answer. It never does, since a new pack holds
nothing but one entry for each column (`Resource.payloadOf_newPack`).
-/

namespace TableApi

/-- A call to the database, and its answer. -/
inductive Call where
  | query (statement : Statement) (answer : Except DatabaseFault (List Row))
  | transaction (statements : List Statement) (answer : Except DatabaseFault Nat)

def transactions (calls : List Call) : List (List Statement × Except DatabaseFault Nat) :=
  calls.filterMap fun
    | .query _ _ => none
    | .transaction statements answer => some (statements, answer)

theorem transactions_append (first second : List Call) :
    transactions (first ++ second) = transactions first ++ transactions second :=
  List.filterMap_append

section Recorded

variable {σ : Type}

/-- The world that writes down the calls made to it. -/
def World.recorded (world : World σ) : World (σ × List Call) where
  query statement := fun (state, calls) =>
    let (answer, next) := (world.query statement).run state
    (answer, next, calls ++ [.query statement answer])
  executeAll statements := fun (state, calls) =>
    let (answer, next) := (world.executeAll statements).run state
    (answer, next, calls ++ [.transaction statements answer])
  isValid := fun (state, calls) =>
    let (answer, next) := world.isValid.run state
    (answer, next, calls)
  draw ids := fun (state, calls) =>
    let (id, next) := (world.draw ids).run state
    (id, next, calls)

/-- A computation and its counterpart in the recorded world come to the same result
and state, while the calls made before grow to those made after. -/
def Tracks {α : Type} (plain : Action σ α) (recorded : Action (σ × List Call) α) (start : σ)
    (before : List Call) (result : Except Fault α) (final : σ) (after : List Call) : Prop :=
  outcome plain start = (result, final) ∧
    outcome recorded (start, before) = (result, final, after)

abbrev Operation : Type 1 :=
  ∀ {τ : Type}, World τ → Action τ Reply

/-- An operation comes to a result, and the calls it makes on the way. -/
def World.Traced (world : World σ) (operation : Operation) (start : σ)
    (result : Except Fault Reply) (calls : List Call) : Prop :=
  ∃ final, Tracks (operation world) (operation world.recorded) start [] result final calls

namespace Tracks

variable {α β : Type} {plain : Action σ α} {recorded : Action (σ × List Call) α}
  {rest : α → Action σ β} {restRecorded : α → Action (σ × List Call) β} {start middle final : σ}
  {before between after : List Call}

theorem of_eq {step result : Except Fault α} (h : step = result) :
    Tracks (liftM step) (liftM step) start before result start before :=
  ⟨by rw [outcome_liftExcept, h], by rw [outcome_liftExcept, h]⟩

theorem throw (fault : Fault) :
    Tracks (α := α) (throw fault) (throw fault) start before (.error fault) start before :=
  ⟨rfl, rfl⟩

theorem pure (value : α) :
    Tracks (pure value) (pure value) start before (.ok value) start before :=
  ⟨rfl, rfl⟩

theorem bind_ok {value : α} {result : Except Fault β}
    (h : Tracks plain recorded start before (.ok value) middle between)
    (hrest : Tracks (rest value) (restRecorded value) middle between result final after) :
    Tracks (plain >>= rest) (recorded >>= restRecorded) start before result final after :=
  ⟨(outcome_bind_of_ok h.1).trans hrest.1, (outcome_bind_of_ok h.2).trans hrest.2⟩

theorem bind_error {fault : Fault}
    (h : Tracks plain recorded start before (.error fault) final after) :
    Tracks (plain >>= rest) (recorded >>= restRecorded) start before (.error fault) final after :=
  ⟨outcome_bind_of_error h.1, outcome_bind_of_error h.2⟩

end Tracks

/-! ## Steps in a recorded world -/

/-- A step that makes no calls. -/
def Silent {α : Type} (plain : Action σ α) (recorded : Action (σ × List Call) α) : Prop :=
  ∀ state calls, outcome recorded (state, calls) =
    ((outcome plain state).1, (outcome plain state).2, calls)

namespace Silent

variable {α β : Type}

theorem pure (value : α) : Silent (σ := σ) (pure value) (pure value) :=
  fun _ _ => rfl

theorem throw (fault : Fault) : Silent (σ := σ) (α := α) (throw fault) (throw fault) :=
  fun _ _ => rfl

theorem except (step : Except Fault α) : Silent (σ := σ) (liftM step) (liftM step) :=
  fun _ _ => rfl

theorem draw (world : World σ) (ids : IdGenerator) :
    Silent (ExceptT.lift (world.draw ids)) (ExceptT.lift (world.recorded.draw ids)) :=
  fun _ _ => rfl

theorem bind {plain : Action σ α} {recorded : Action (σ × List Call) α}
    {rest : α → Action σ β} {restRecorded : α → Action (σ × List Call) β}
    (h : Silent plain recorded) (hrest : ∀ value, Silent (rest value) (restRecorded value)) :
    Silent (plain >>= rest) (recorded >>= restRecorded) := by
  intro state calls
  rw [outcome_bind, outcome_bind, h state calls]
  rcases outcome plain state with ⟨fault | value, next⟩
  · rfl
  · exact hrest value next calls

end Silent

theorem Column.silent_newValue (world : World σ) (column : Column) (ids : IdGenerator)
    (payload : Entries Json) :
    Silent (column.newValue world.draw ids payload)
      (column.newValue world.recorded.draw ids payload) := by
  unfold newValue
  split
  · exact .pure _
  · split
    · exact .draw world ids
    · exact .throw _

theorem Column.silent_withTarget (world : World σ) (column : Column) (placed : Placed)
    (inner : Shape) (payload : Entries Json) :
    Silent (column.withTarget world.draw placed inner payload)
      (column.withTarget world.recorded.draw placed inner payload) := by
  unfold withTarget
  split
  · exact .pure _
  · split
    · exact .pure _
    · exact (Silent.draw world _).bind fun _ => .pure _

/-- Packing asks the database for nothing. -/
theorem Shape.silent_newPack (world : World σ) (shape : Shape) (ids : IdGenerator)
    (payload : Entries Json) :
    Silent (shape.newPack world.draw ids payload)
      (shape.newPack world.recorded.draw ids payload) := by
  induction shape generalizing ids payload with
  | nil => exact .pure _
  | leaf column rest ih =>
    rw [newPack, newPack]
    exact (column.silent_newValue world ids payload).bind fun _ =>
      (ih ids payload).bind fun _ => .pure _
  | branch column placed inner rest ihInner ihRest =>
    rw [newPack, newPack]
    cases column.givenIn payload with
    | link value => exact (ihRest ids payload).bind fun _ => .pure _
    | row nested =>
      exact (column.silent_withTarget world placed inner nested).bind fun completed =>
        (Silent.except _).bind fun _ => (ihInner _ completed).bind fun _ =>
          (ihRest ids payload).bind fun _ => .pure _

theorem Resource.silent_newPack (world : World σ) (resource : Resource)
    (payload : Entries Json) :
    Silent (resource.newPack world.draw payload)
      (resource.newPack world.recorded.draw payload) :=
  (Silent.except _).bind fun _ => resource.shape.silent_newPack world _ payload

/-- Rows are what the database answers; that it fails is a fault of the database. -/
theorem World.outcome_rows (world : World σ) (query : Statement) (start : σ) :
    outcome (world.rows query) start =
      (((world.query query).run start).1.mapError Fault.database,
        ((world.query query).run start).2) := by
  rw [rows, outcome_bind, outcome_lift]
  rcases (world.query query).run start with ⟨_ | _, _⟩ <;> rfl

/-- Rows that are asked for, with the call that asks. -/
theorem World.tracks_rows (world : World σ) (query : Statement) (start : σ)
    (before : List Call) :
    (∃ rows final, Tracks (world.rows query) (world.recorded.rows query) start before
      (.ok rows) final (before ++ [.query query (.ok rows)])) ∨
    (∃ failure final, Tracks (world.rows query) (world.recorded.rows query) start before
      (.error (.database failure)) final (before ++ [.query query (.error failure)])) := by
  rcases hanswer : (world.query query).run start with ⟨answer, final⟩
  have hrecorded : (world.recorded.query query).run (start, before) =
      (answer, final, before ++ [.query query answer]) := by
    show (let (answer, next) := (world.query query).run start
      (answer, next, before ++ [Call.query query answer])) = _
    rw [hanswer]
  rcases answer with failure | rows
  · refine .inr ⟨failure, final, ?_, ?_⟩
    · rw [World.rows, outcome_bind, outcome_lift, hanswer]
      rfl
    · rw [World.rows, outcome_bind, outcome_lift, hrecorded]
      rfl
  · refine .inl ⟨rows, final, ?_, ?_⟩
    · rw [World.rows, outcome_bind, outcome_lift, hanswer]
      rfl
    · rw [World.rows, outcome_bind, outcome_lift, hrecorded]
      rfl

/-- Statements that are run in one transaction, with the call that runs them. -/
theorem World.tracks_run (world : World σ) (statements : List Statement) (start : σ)
    (before : List Call) :
    (∃ count final, Tracks (world.run statements) (world.recorded.run statements) start before
      (.ok ()) final (before ++ [.transaction statements (.ok count)])) ∨
    (∃ failure final, Tracks (world.run statements) (world.recorded.run statements) start before
      (.error (.database failure)) final
        (before ++ [.transaction statements (.error failure)])) := by
  rcases hanswer : (world.executeAll statements).run start with ⟨answer, final⟩
  have hrecorded : (world.recorded.executeAll statements).run (start, before) =
      (answer, final, before ++ [.transaction statements answer]) := by
    show (let (answer, next) := (world.executeAll statements).run start
      (answer, next, before ++ [Call.transaction statements answer])) = _
    rw [hanswer]
  rcases answer with failure | count
  · refine .inr ⟨failure, final, ?_, ?_⟩
    · rw [World.run, outcome_bind, outcome_lift, hanswer]
      rfl
    · rw [World.run, outcome_bind, outcome_lift, hrecorded]
      rfl
  · refine .inl ⟨count, final, ?_, ?_⟩
    · rw [World.run, outcome_bind, outcome_lift, hanswer]
      rfl
    · rw [World.run, outcome_bind, outcome_lift, hrecorded]
      rfl

end Recorded

/-! ## What operations leave behind -/

/-- Whether a fault is found before the database is asked: the request is bad, lacks
a field or names no resource. -/
def Fault.isRejection : Fault → Bool
  | .badRequest _ | .missingField _ | .notFound (.model _) => true
  | _ => false

/-- All or nothing: a failure means that no transaction was tried, or that the only
one failed; a success means that the only transaction went through, with the
statements that belong to the reply. -/
def AllOrNothing (committed : Reply → List Statement → Prop) (result : Except Fault Reply)
    (calls : List Call) : Prop :=
  match result with
  | .error fault => transactions calls = [] ∨ ∃ statements failure,
      transactions calls = [(statements, .error failure)] ∧ fault = .database failure
  | .ok reply => ∃ statements count, transactions calls = [(statements, .ok count)] ∧
      committed reply statements

/-- What is rejected makes no calls. -/
def RejectedUnasked (result : Except Fault Reply) (calls : List Call) : Prop :=
  ∀ fault, result = .error fault → fault.isRejection = true → calls = []

/-- Rows that cannot be unpacked break the contract with the database. -/
theorem Resource.unpack_contract {resource : Resource} {rows : List Row} {fault : Fault}
    (h : rows.mapM resource.unpack = .error fault) : ∃ breach, fault = .contract breach := by
  induction rows with
  | nil => cases h
  | cons row rest ih =>
    rw [List.mapM_cons] at h
    rcases hrow : resource.unpack row with early | payload
    · rw [hrow] at h
      cases h
      unfold unpack at hrow
      split at hrow
      · cases hrow
      · cases hrow
        exact ⟨_, rfl⟩
    · rcases hrest : rest.mapM resource.unpack with early | payloads
      · rw [hrow, hrest] at h
        cases h
        exact ih hrest
      · rw [hrow, hrest] at h
        cases h

namespace Api

/-- The reply and the statements that belong to a body: the pack of the new row is
inserted and renamed back. -/
def Creates {σ : Type} (api : Api) (world : World σ) (start : σ) (name : String)
    (body : Entries Json) (reply : Reply) (statements : List Statement) : Prop :=
  ∃ resource pack middle batch created, api.resource name = .ok resource ∧
    outcome (resource.newPack world.draw body) start = (.ok pack, middle) ∧
    resource.inserts pack = .ok batch ∧ statements = batch.map Insertion.statement ∧
    resource.payloadOf pack = .ok created ∧ reply = ⟨201, .obj created⟩

/-- The reply and the statements that belong to an identifier: the row that is read
under it is renamed, and deleted with the rows it holds. -/
def Deletes (api : Api) (name id : String) (calls : List Call) (reply : Reply)
    (statements : List Statement) : Prop :=
  ∃ resource selection row payload pack batch, api.resource name = .ok resource ∧
    resource.readSingle id = .ok selection ∧
    .query (resource.query selection) (.ok [row]) ∈ calls ∧
    resource.unpack row = .ok payload ∧ resource.packOf payload = .ok pack ∧
    resource.deletes pack = .ok batch ∧ statements = batch.map Deletion.statement ∧
    reply = ⟨200, .obj payload⟩

theorem mem_of_resource {api : Api} {name : String} {resource : Resource}
    (h : api.resource name = .ok resource) : resource ∈ api.resources := by
  unfold Api.resource at h
  split at h
  · next hfound =>
    cases h
    exact List.mem_of_find?_eq_some hfound
  · split at h
    · next hfound =>
      cases h
      exact List.mem_of_find?_eq_some hfound
    · cases h

section Traces

variable {σ : Type} (world : World σ)

variable {api : Api} (start : σ) (name : String)

/-- Creating a row is all or nothing, and rejects without asking. -/
theorem trace_create
    (hcompiled : ∀ resource ∈ api.resources, ∃ schema root,
      Resource.compile schema root = .ok resource)
    (body : Entries Json) :
    ∃ result calls, world.Traced (fun world => api.create world name body) start result calls ∧
      AllOrNothing (api.Creates world start name body) result calls ∧
      RejectedUnasked result calls := by
  -- Until the transaction nothing is asked.
  have hrefused : ∀ {fault final}, Tracks (api.create world name body)
      (api.create world.recorded name body) start [] (.error fault) final [] →
      ∃ result calls,
        world.Traced (fun world => api.create world name body) start result calls ∧
        AllOrNothing (api.Creates world start name body) result calls ∧
        RejectedUnasked result calls :=
    fun h => ⟨_, [], ⟨_, h⟩, .inl rfl, fun _ _ _ => rfl⟩
  rcases hresource : api.resource name with fault | resource
  · exact hrefused (.bind_error (.of_eq hresource))
  have hsilent := resource.silent_newPack world body start []
  rcases hpack : outcome (resource.newPack world.draw body) start with ⟨fault | pack, middle⟩
  all_goals rw [hpack] at hsilent
  · exact hrefused (.bind_ok (.of_eq hresource) (.bind_error ⟨hpack, hsilent⟩))
  rcases hbatch : resource.inserts pack with fault | batch
  · exact hrefused (.bind_ok (.of_eq hresource) (.bind_ok ⟨hpack, hsilent⟩
      (.bind_error (.of_eq hbatch))))
  -- The new pack can be renamed back, so after the transaction nothing fails.
  obtain ⟨schema, root, hcompile⟩ := hcompiled resource (mem_of_resource hresource)
  obtain ⟨pairs, hcreated, -⟩ := Resource.payloadOf_newPack hcompile hpack
  rcases world.tracks_run (batch.map Insertion.statement) middle [] with
    ⟨count, final, hrun⟩ | ⟨failure, final, hrun⟩
  · have hdone : Tracks (api.create world name body) (api.create world.recorded name body)
        start [] (.ok ⟨201, .obj (Entries.ofList pairs)⟩) final _ :=
      .bind_ok (.of_eq hresource) (.bind_ok ⟨hpack, hsilent⟩
        (.bind_ok (.of_eq hbatch) (.bind_ok hrun (.bind_ok (.of_eq hcreated) (.pure _)))))
    refine ⟨_, _, ⟨final, hdone⟩, ⟨_, count, rfl, resource, pack, middle, batch, _, hresource,
      hpack, hbatch, rfl, hcreated, rfl⟩, ?_⟩
    intro fault h
    cases h
  · have hfailed : Tracks (api.create world name body) (api.create world.recorded name body)
        start [] (.error (.database failure)) final _ :=
      .bind_ok (.of_eq hresource) (.bind_ok ⟨hpack, hsilent⟩
        (.bind_ok (.of_eq hbatch) (.bind_error hrun)))
    refine ⟨_, _, ⟨final, hfailed⟩, .inr ⟨_, failure, rfl, rfl⟩, ?_⟩
    intro fault h hrejection
    cases h
    cases hrejection

/-- A row that is fetched by its identifier was answered to a query; no transaction
is tried. -/
theorem tracks_fetch (resource : Resource) (id : String) :
    ∃ result final asked, Tracks (fetch world resource id) (fetch world.recorded resource id)
        start [] result final asked ∧
      transactions asked = [] ∧ ∀ payload, result = .ok payload →
        ∃ selection row, resource.readSingle id = .ok selection ∧
          .query (resource.query selection) (.ok [row]) ∈ asked ∧
          resource.unpack row = .ok payload := by
  rcases hselection : resource.readSingle id with fault | selection
  · exact ⟨_, _, _, .bind_error (.of_eq hselection), rfl, fun _ h => by cases h⟩
  rcases world.tracks_rows (resource.query selection) start [] with
    ⟨rows, final, hrows⟩ | ⟨failure, final, hrows⟩
  · match rows, hrows with
    | [], hrows =>
      exact ⟨_, _, _, .bind_ok (.of_eq hselection) (.bind_ok hrows (.throw _)), rfl,
        fun _ h => by cases h⟩
    | [row], hrows =>
      exact ⟨_, _, _, .bind_ok (.of_eq hselection) (.bind_ok hrows (.of_eq rfl)), rfl,
        fun _ h => ⟨selection, row, rfl, List.mem_singleton_self _, h⟩⟩
    | _ :: _ :: _, hrows =>
      exact ⟨_, _, _, .bind_ok (.of_eq hselection) (.bind_ok hrows (.throw _)), rfl,
        fun _ h => by cases h⟩
  · exact ⟨_, _, _, .bind_ok (.of_eq hselection) (.bind_error hrows), rfl,
      fun _ h => by cases h⟩

theorem trace_read (id : String) :
    ∃ result calls, world.Traced (fun world => api.read world name id) start result calls ∧
      transactions calls = [] := by
  rcases hresource : api.resource name with fault | resource
  · exact ⟨_, _, ⟨_, .bind_error (.of_eq hresource)⟩, rfl⟩
  obtain ⟨fault | payload, final, asked, hfetch, hnone, -⟩ :=
    tracks_fetch world start resource id
  · exact ⟨_, _, ⟨_, .bind_ok (.of_eq hresource) (.bind_error hfetch)⟩, hnone⟩
  · exact ⟨_, _, ⟨_, .bind_ok (.of_eq hresource) (.bind_ok hfetch (.pure _))⟩, hnone⟩

theorem trace_delete (id : String) :
    ∃ result calls, world.Traced (fun world => api.delete world name id) start result calls ∧
      AllOrNothing (api.Deletes name id calls) result calls := by
  rcases hresource : api.resource name with fault | resource
  · exact ⟨_, _, ⟨_, .bind_error (.of_eq hresource)⟩, .inl rfl⟩
  obtain ⟨fault | payload, middle, asked, hfetch, hnone, hrow⟩ :=
    tracks_fetch world start resource id
  · exact ⟨_, _, ⟨_, .bind_ok (.of_eq hresource) (.bind_error hfetch)⟩, .inl hnone⟩
  rcases hpack : resource.packOf payload with fault | pack
  · exact ⟨_, _, ⟨_, .bind_ok (.of_eq hresource) (.bind_ok hfetch
      (.bind_error (.of_eq hpack)))⟩, .inl hnone⟩
  rcases hbatch : resource.deletes pack with fault | batch
  · exact ⟨_, _, ⟨_, .bind_ok (.of_eq hresource) (.bind_ok hfetch (.bind_ok (.of_eq hpack)
      (.bind_error (.of_eq hbatch))))⟩, .inl hnone⟩
  obtain ⟨selection, row, hselection, hquery, hunpack⟩ := hrow payload rfl
  rcases world.tracks_run (batch.map Deletion.statement) middle asked with
    ⟨count, final, hrun⟩ | ⟨failure, final, hrun⟩
  · have hdone : Tracks (api.delete world name id) (api.delete world.recorded name id) start []
        (.ok ⟨200, .obj payload⟩) final _ :=
      .bind_ok (.of_eq hresource) (.bind_ok hfetch (.bind_ok (.of_eq hpack)
        (.bind_ok (.of_eq hbatch) (.bind_ok hrun (.pure _)))))
    refine ⟨_, _, ⟨final, hdone⟩, _, count, ?_, resource, selection, row, payload, pack, batch,
      hresource, hselection, List.mem_append_left _ hquery, hunpack, hpack, hbatch, rfl, rfl⟩
    rw [transactions_append, hnone]
    rfl
  · have hfailed : Tracks (api.delete world name id) (api.delete world.recorded name id) start []
        (.error (.database failure)) final _ :=
      .bind_ok (.of_eq hresource) (.bind_ok hfetch (.bind_ok (.of_eq hpack)
        (.bind_ok (.of_eq hbatch) (.bind_error hrun))))
    refine ⟨_, _, ⟨final, hfailed⟩, .inr ⟨batch.map Deletion.statement, failure, ?_, rfl⟩⟩
    rw [transactions_append, hnone]
    rfl

/-- Listing rows tries no transaction, and rejects without asking. -/
theorem trace_list (params : Params) :
    ∃ result calls, world.Traced (fun world => api.list world name params) start result calls ∧
      transactions calls = [] ∧ RejectedUnasked result calls := by
  rcases hresource : api.resource name with fault | resource
  · exact ⟨_, _, ⟨_, .bind_error (.of_eq hresource)⟩, rfl, fun _ _ _ => rfl⟩
  rcases hselection : resource.readList params api.pageLimit with fault | selection
  · exact ⟨_, _, ⟨_, .bind_ok (.of_eq hresource) (.bind_error (.of_eq hselection))⟩, rfl,
      fun _ _ _ => rfl⟩
  rcases world.tracks_rows (resource.query selection) start [] with
    ⟨rows, final, hrows⟩ | ⟨failure, final, hrows⟩
  · have hasked : ∀ {result}, Tracks _ _ final _ result final _ →
        Tracks (api.list world name params) (api.list world.recorded name params) start []
          result final [.query (resource.query selection) (.ok rows)] :=
      fun h => .bind_ok (.of_eq hresource) (.bind_ok (.of_eq hselection) (.bind_ok hrows h))
    rcases hlast : beyondLast selection.page rows with _ | number
    · rcases hunpack : rows.mapM resource.unpack with fault | payloads
      · refine ⟨.error fault, _, ⟨final, hasked ?_⟩, rfl, ?_⟩
        · simp only [hlast]
          exact .bind_error (.of_eq hunpack)
        · intro other h hrejection
          cases h
          obtain ⟨breach, rfl⟩ := Resource.unpack_contract hunpack
          cases hrejection
      · refine ⟨.ok ⟨200, .arr (payloads.map .obj)⟩, _, ⟨final, hasked ?_⟩, rfl, ?_⟩
        · simp only [hlast]
          exact .bind_ok (.of_eq hunpack) (.pure _)
        · intro fault h
          cases h
    · refine ⟨.error (.notFound (.page number name)), _, ⟨final, hasked ?_⟩, rfl, ?_⟩
      · simp only [hlast]
        exact .throw _
      · intro fault h hrejection
        cases h
        cases hrejection
  · have hfailed : Tracks (api.list world name params) (api.list world.recorded name params)
        start [] (.error (.database failure)) final _ :=
      .bind_ok (.of_eq hresource) (.bind_ok (.of_eq hselection) (.bind_error hrows))
    refine ⟨_, _, ⟨final, hfailed⟩, rfl, ?_⟩
    intro fault h hrejection
    cases h
    cases hrejection

end Traces

/-- **No failure after a commit.** Over compiled resources, on every world and in
every state of it: creating and deleting are all or nothing, listing and reading try
no transaction, and creating and listing reject without asking. In particular every
pack of a new row can be renamed back. -/
theorem transactions_all_or_nothing {σ : Type} (world : World σ) {api : Api}
    (hcompiled : ∀ resource ∈ api.resources, ∃ schema root,
      Resource.compile schema root = .ok resource) (start : σ) (name : String) :
    (∀ body, ∃ result calls,
      world.Traced (fun world => api.create world name body) start result calls ∧
        AllOrNothing (api.Creates world start name body) result calls ∧
        RejectedUnasked result calls) ∧
    (∀ id, ∃ result calls,
      world.Traced (fun world => api.delete world name id) start result calls ∧
        AllOrNothing (api.Deletes name id calls) result calls) ∧
    (∀ params, ∃ result calls,
      world.Traced (fun world => api.list world name params) start result calls ∧
        transactions calls = [] ∧ RejectedUnasked result calls) ∧
    (∀ id, ∃ result calls,
      world.Traced (fun world => api.read world name id) start result calls ∧
        transactions calls = []) ∧
    ∀ resource ∈ api.resources, ∀ payload pack before after,
      outcome (resource.newPack world.draw payload) before = (.ok pack, after) →
        ∃ created, resource.payloadOf pack = .ok created := by
  refine ⟨trace_create world start name hcompiled, trace_delete world start name,
    trace_list world start name, trace_read world start name, ?_⟩
  intro resource hresource payload pack before after hpack
  obtain ⟨schema, root, hcompile⟩ := hcompiled resource hresource
  obtain ⟨pairs, hcreated, -⟩ := Resource.payloadOf_newPack hcompile hpack
  exact ⟨_, hcreated⟩

end Api

/-! ## A shop of notes -/

def noteCatalog : Catalog where
  databases := ["shop"]
  tables := [("shop", "notes")]
  columns := [⟨"shop", "notes", "id", "int(11)", false, "PRI", false⟩,
    ⟨"shop", "notes", "text", "varchar(64)", false, "", false⟩]

def noteApi : Api :=
  ⟨((noteCatalog.toSchema [] []).resources.toOption.get (by decide +kernel)), 0⟩

/-- A database in which every transaction touches one row. -/
def noteWorld : World Int where
  query _ := pure (.ok [])
  executeAll _ := pure (.ok 1)
  isValid := pure true
  draw _ := fun next => (.int next, next + 1)

/-- A note is created, in one transaction. -/
theorem created_note :
    (∀ resource ∈ noteApi.resources, ∃ schema root,
      Resource.compile schema root = .ok resource) ∧
    (outcome (noteApi.create noteWorld.recorded "shop_notes" [("text", .str "hello")]) (7, [])).1 =
      .ok ⟨201, .obj [("id", .int 7), ("text", .str "hello")]⟩ ∧
    ∃ result calls, noteWorld.Traced
        (fun world => noteApi.create world "shop_notes" [("text", .str "hello")]) 7 result calls ∧
      AllOrNothing (noteApi.Creates noteWorld 7 "shop_notes" [("text", .str "hello")])
        result calls ∧
      RejectedUnasked result calls := by
  have hcompiled : ∀ resource ∈ noteApi.resources, ∃ schema root,
      Resource.compile schema root = .ok resource := by
    intro resource hmem
    have hresources : (noteCatalog.toSchema [] []).resources = .ok noteApi.resources :=
      eq_ok_get (by decide +kernel)
    obtain ⟨root, -, hcompile⟩ := Schema.compile_of_mem_resources hresources hmem
    exact ⟨_, root, hcompile⟩
  exact ⟨hcompiled, by decide +kernel,
    (Api.transactions_all_or_nothing noteWorld hcompiled 7 "shop_notes").1 _⟩

end TableApi
