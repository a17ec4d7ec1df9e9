import Mathlib.Algebra.GroupWithZero.Nat
import TableApi.Resource.Write
import TableApi.Server.Session

/-!
# What a transaction sends, and what lasts of it

`Wire.recorded` is a wire that does what another does and writes down every command that
is sent, with its answer. Such a record can take five courses (`Transaction.Course`), and the
answers alone decide which: nothing can be sent at all; BEGIN is refused; a statement
fails; COMMIT fails; or nothing fails. Only in the last is there a count of rows.

What a record does to the data is told by a backend that keeps transactions apart
(`Backend.after`): what is done between BEGIN and COMMIT is pending, COMMIT makes it last
unless it fails, and ROLLBACK drops it. `Session.executeAll_atomic` puts the two together:
at every moment all statements last, or none does.
-/

namespace TableApi

/-- A command, and what the server answered to it. -/
abbrev Exchange : Type := Command × Except DatabaseFault Outcome

section Recorded

variable {σ : Type}

/-- The wire that writes down what is sent on another. -/
def Wire.recorded (wire : Wire σ) : Wire (σ × List Exchange) where
  signOn host port user password := fun (state, sent) =>
    let (answer, next) := (wire.signOn host port user password).run state
    (answer, next, sent)
  send command := fun (state, sent) =>
    let (answer, next) := (wire.send command).run state
    (answer, next, sent ++ [(command, answer)])

/-- A way to send commands and its counterpart, which does the same and writes it down. -/
def Records (send : Command → StateM σ (Except DatabaseFault Outcome))
    (recorded : Command → StateM (σ × List Exchange) (Except DatabaseFault Outcome)) : Prop :=
  ∀ command state sent, (recorded command).run (state, sent) =
    (((send command).run state).1, ((send command).run state).2,
      sent ++ [(command, ((send command).run state).1)])

theorem Records.run_eq {send : Command → StateM σ (Except DatabaseFault Outcome)}
    {recorded : Command → StateM (σ × List Exchange) (Except DatabaseFault Outcome)}
    (h : Records send recorded) {command : Command} {start next : σ}
    {answer : Except DatabaseFault Outcome} (hanswer : (send command).run start = (answer, next))
    (before : List Exchange) :
    (recorded command).run (start, before) = (answer, next, before ++ [(command, answer)]) := by
  rw [h command start before, hanswer]

/-- An open session sends all its commands on the wire. -/
theorem Session.records_send (wire : Wire σ) {session : Session} (h : session.closed = false) :
    Records (session.send wire) (session.send wire.recorded) := by
  intro command state sent
  rw [send, send, h]
  rfl

end Recorded

/-! ## The course of a transaction -/

namespace Transaction

/-- Commands that all succeed, with their outcomes. -/
def carried (commands : List Command) (outcomes : List Outcome) : List Exchange :=
  commands.zip (outcomes.map .ok)

/-- Commands that are sent in order up to the first that fails. -/
inductive Sends (commands : List Command) : List Exchange → Except DatabaseFault Nat → Prop
  | all {outcomes} (hlength : outcomes.length = commands.length) :
      Sends commands (carried commands outcomes) (.ok (outcomes.map Outcome.affected).sum)
  | upTo {done next rest outcomes fault} (hcommands : commands = done ++ next :: rest)
      (hlength : outcomes.length = done.length) :
      Sends commands (carried done outcomes ++ [(next, .error fault)]) (.error fault)

/-- One more command in front that succeeds. -/
theorem Sends.cons {commands : List Command} {sent : List Exchange}
    {result : Except DatabaseFault Nat} (h : Sends commands sent result) (command : Command)
    (outcome : Outcome) :
    Sends (command :: commands) ((command, .ok outcome) :: sent)
      (result.map (outcome.affected + ·)) := by
  cases h with
  | @all outcomes hlength => exact @Sends.all (command :: commands) (outcome :: outcomes) (by simp [hlength])
  | @upTo done next rest outcomes fault hcommands hlength =>
    exact @Sends.upTo (command :: commands) (command :: done) next rest (outcome :: outcomes) fault
      (by rw [hcommands, List.cons_append]) (by simp [hlength])

/-- A step with a known outcome is taken. -/
theorem run_bind_of_run {σ α β : Type} {first : StateM σ α} {rest : α → StateM σ β}
    {start middle : σ} {value : α} (h : first.run start = (value, middle)) :
    (first >>= rest).run start = (rest value).run middle := by
  rw [StateT.run_bind, h]
  rfl

variable {σ : Type} {send : Command → StateM σ (Except DatabaseFault Outcome)}
  {recorded : Command → StateM (σ × List Exchange) (Except DatabaseFault Outcome)}

/-- After a first command that succeeds the others are sent, and its rows are added. -/
theorem run_sendAll_cons {command : Command} {rest : List Command} {start middle final : σ}
    {outcome : Outcome} {result : Except DatabaseFault Nat}
    (hanswer : (send command).run start = (.ok outcome, middle))
    (hrest : (sendAll send rest).run middle = (result, final)) :
    (sendAll send (command :: rest)).run start =
      (result.map (outcome.affected + ·), final) := by
  rw [sendAll, run_bind_of_run hanswer]
  show (sendAll send rest >>= _).run middle = _
  rw [run_bind_of_run hrest]
  cases result <;> rfl

theorem run_sendAll_refused {command : Command} {rest : List Command} {start middle : σ}
    {fault : DatabaseFault} (hanswer : (send command).run start = (.error fault, middle)) :
    (sendAll send (command :: rest)).run start = (.error fault, middle) := by
  rw [sendAll, run_bind_of_run hanswer]
  rfl

/-- Commands are sent in order up to the first that fails, and whoever writes them down
comes to the same result. -/
theorem sends_sendAll (h : Records send recorded) (commands : List Command) (start : σ)
    (before : List Exchange) :
    ∃ result final sent, (sendAll send commands).run start = (result, final) ∧
      (sendAll recorded commands).run (start, before) = (result, final, before ++ sent) ∧
      Sends commands sent result := by
  induction commands generalizing start before with
  | nil => exact ⟨_, _, [], rfl, by rw [List.append_nil]; rfl, @Sends.all [] [] rfl⟩
  | cons command rest ih =>
    rcases hanswer : (send command).run start with ⟨fault | outcome, middle⟩
    · exact ⟨.error fault, middle, [(command, .error fault)], run_sendAll_refused hanswer,
        run_sendAll_refused (h.run_eq hanswer before), @Sends.upTo _ [] command rest [] fault rfl rfl⟩
    · obtain ⟨result, final, sent, hplain, hrecorded, hsends⟩ :=
        ih middle (before ++ [(command, .ok outcome)])
      rw [List.append_assoc] at hrecorded
      exact ⟨_, _, (command, .ok outcome) :: sent, run_sendAll_cons hanswer hplain,
        run_sendAll_cons (h.run_eq hanswer before) hrecorded, hsends.cons command outcome⟩

/-! ## The five courses -/

/-- What is sent for statements in one transaction, and what comes of it. The first
course is the only one in which nothing is sent, since the session is closed. -/
inductive Course (closed : Bool) (statements : List Statement) :
    List Exchange → Except DatabaseFault Nat → Prop
  | unsent (hclosed : closed = true) : Course closed statements [] (.error Session.closedFault)
  | refused {fault} (hopen : closed = false) :
      Course closed statements [(start, .error fault)] (.error fault)
  | failed {opened done next rest outcomes fault answer} (hopen : closed = false)
      (hstatements : statements = done ++ next :: rest) (hlength : outcomes.length = done.length) :
      Course closed statements
        ((start, .ok opened) :: carried (done.map .ofStatement) outcomes ++
          [(.ofStatement next, .error fault), (rollback, answer)]) (.error fault)
  | undone {opened outcomes fault answer} (hopen : closed = false)
      (hlength : outcomes.length = statements.length) :
      Course closed statements
        ((start, .ok opened) :: carried (statements.map .ofStatement) outcomes ++
          [(commit, .error fault), (rollback, answer)]) (.error fault)
  | committed {opened outcomes closing} (hopen : closed = false)
      (hlength : outcomes.length = statements.length) :
      Course closed statements
        ((start, .ok opened) :: carried (statements.map .ofStatement) outcomes ++
          [(commit, .ok closing)]) (.ok (outcomes.map Outcome.affected).sum)

theorem run_giveUp {fault : DatabaseFault} {start next : σ}
    {answer : Except DatabaseFault Outcome} (hanswer : (send rollback).run start = (answer, next)) :
    (giveUp send fault).run start = (.error fault, next) := by
  rw [giveUp, run_bind_of_run hanswer]
  rfl

/-- Behind BEGIN the statements are sent, and their result decides how it ends. -/
theorem run_run {statements : List Statement} {begun middle final : σ} {opened : Outcome}
    {result last : Except DatabaseFault Nat}
    (hstart : (send start).run begun = (.ok opened, middle))
    {later : σ} (hall : (sendAll send (statements.map .ofStatement)).run middle = (result, later))
    (hend : (match result with
      | .error fault => giveUp send fault
      | .ok touched => do
        match ← send commit with
        | .error fault => giveUp send fault
        | .ok _ => pure (.ok touched)).run later = (last, final)) :
    (run send statements).run begun = (last, final) := by
  rw [run, run_bind_of_run hstart]
  show (sendAll send (statements.map .ofStatement) >>= _).run middle = _
  rw [run_bind_of_run hall]
  exact hend

/-- Every transaction takes one of the courses. -/
theorem course_run (h : Records send recorded) (statements : List Statement) (begun : σ) :
    ∃ result final sent, (run send statements).run begun = (result, final) ∧
      (run recorded statements).run (begun, []) = (result, final, sent) ∧
      Course false statements sent result := by
  rcases hstart : (send start).run begun with ⟨fault | opened, middle⟩
  · refine ⟨.error fault, middle, [(start, .error fault)], ?_, ?_, .refused rfl⟩
    · rw [run, run_bind_of_run hstart]
      rfl
    · rw [run, run_bind_of_run (h.run_eq hstart [])]
      rfl
  obtain ⟨result, later, sent, hplain, hrecorded, hsends⟩ :=
    sends_sendAll h (statements.map .ofStatement) middle [(start, .ok opened)]
  cases hsends with
  | @upTo done next rest outcomes fault hcommands hlength =>
    rcases hanswer : (send rollback).run later with ⟨answer, final⟩
    obtain ⟨before, behind, rfl, rfl, hnext⟩ := List.map_eq_append_iff.1 hcommands
    obtain ⟨failing, others, rfl, rfl, rfl⟩ := List.map_eq_cons_iff.1 hnext
    refine ⟨_, _, _, run_run hstart hplain (run_giveUp hanswer),
      run_run (h.run_eq hstart []) hrecorded (run_giveUp (h.run_eq hanswer _)), ?_⟩
    have hcourse : Course false (before ++ failing :: others) _ (.error fault) :=
      @Course.failed _ _ opened before failing others outcomes fault answer rfl rfl
        (by simpa using hlength)
    simpa using hcourse
  | @all outcomes hlength =>
    rw [List.length_map] at hlength
    -- What has been sent when COMMIT is about to be.
    let before := [(start, .ok opened)] ++ carried (statements.map .ofStatement) outcomes
    rcases hclose : (send commit).run later with ⟨fault | closing, closed⟩
    · rcases hanswer : (send rollback).run closed with ⟨answer, final⟩
      refine ⟨.error fault, final, before ++ [(commit, .error fault)] ++ [(rollback, answer)],
        run_run hstart hplain ?_, run_run (h.run_eq hstart []) hrecorded ?_, ?_⟩
      · exact (run_bind_of_run hclose).trans (run_giveUp hanswer)
      · exact (run_bind_of_run (h.run_eq hclose _)).trans (run_giveUp (h.run_eq hanswer _))
      · have hcourse : Course false statements _ (.error fault) :=
          @Course.undone _ _ opened outcomes fault answer rfl hlength
        simpa [before] using hcourse
    · refine ⟨.ok (outcomes.map Outcome.affected).sum, closed, before ++ [(commit, .ok closing)],
        run_run hstart hplain ?_, run_run (h.run_eq hstart []) hrecorded ?_, ?_⟩
      · exact run_bind_of_run hclose
      · exact run_bind_of_run (h.run_eq hclose _)
      · have hcourse : Course false statements _ _ :=
          @Course.committed _ _ opened outcomes closing rfl hlength
        simpa [before] using hcourse

end Transaction

/-! ## What lasts -/

/-- What commands do to data of a type: one that succeeds, and one that fails, which may
have done a part by then. -/
structure Backend (δ : Type) where
  apply : Command → δ → δ
  spoil : Command → δ → δ

/-- Data that last, and those of an open transaction. -/
structure Ledger (δ : Type) where
  lasting : δ
  pending : Option δ := none

namespace Transaction

/-- Whether a command neither begins nor ends a transaction. -/
def Ordinary (command : Command) : Prop :=
  command ≠ start ∧ command ≠ commit ∧ command ≠ rollback

end Transaction

namespace Backend

variable {δ : Type} (backend : Backend δ)

/-- What a command does to data, by its answer. -/
def effect (data : δ) : Exchange → δ
  | (command, .ok _) => backend.apply command data
  | (command, .error _) => backend.spoil command data

/-- What is left of data after a command. BEGIN opens a transaction. COMMIT makes what it
did last, or has no effect if it fails. ROLLBACK drops it, whatever the answer, since the
server does so when the connection is lost. Anything else is done to the open transaction
or, if there is none, to what lasts. -/
def after (ledger : Ledger δ) (exchange : Exchange) : Ledger δ :=
  if exchange.1 = Transaction.start then
    match exchange.2 with
    | .ok _ => { ledger with pending := some ledger.lasting }
    | .error _ => ledger
  else if exchange.1 = Transaction.commit then
    match exchange.2 with
    | .ok _ => ⟨ledger.pending.getD ledger.lasting, none⟩
    | .error _ => ledger
  else if exchange.1 = Transaction.rollback then { ledger with pending := none }
  else match ledger.pending with
    | some data => { ledger with pending := some (backend.effect data exchange) }
    | none => { ledger with lasting := backend.effect ledger.lasting exchange }

/-- What a record leaves of data. -/
def replay (data : δ) (sent : List Exchange) : Ledger δ :=
  sent.foldl backend.after ⟨data, none⟩

/-- What all statements do to data, one after another. -/
def applyAll (data : δ) (statements : List Statement) : δ :=
  statements.foldl (fun data statement => backend.apply (.ofStatement statement) data) data

/-- What all statements do to data if there is a count of rows, and nothing if there is a
failure. -/
def allOrNone (data : δ) (statements : List Statement) : Except DatabaseFault Nat → δ
  | .ok _ => backend.applyAll data statements
  | .error _ => data

variable {backend}

@[simp] theorem after_start (ledger : Ledger δ) (outcome : Outcome) :
    backend.after ledger (Transaction.start, .ok outcome) =
      { ledger with pending := some ledger.lasting } := rfl

@[simp] theorem after_start_refused (ledger : Ledger δ) (fault : DatabaseFault) :
    backend.after ledger (Transaction.start, .error fault) = ledger := rfl

@[simp] theorem after_commit (ledger : Ledger δ) (outcome : Outcome) :
    backend.after ledger (Transaction.commit, .ok outcome) =
      ⟨ledger.pending.getD ledger.lasting, none⟩ := rfl

@[simp] theorem after_commit_failed (ledger : Ledger δ) (fault : DatabaseFault) :
    backend.after ledger (Transaction.commit, .error fault) = ledger := rfl

@[simp] theorem after_rollback (ledger : Ledger δ) (answer : Except DatabaseFault Outcome) :
    backend.after ledger (Transaction.rollback, answer) = { ledger with pending := none } := rfl

/-- Within a transaction an ordinary command changes what is pending. -/
theorem after_ordinary {exchange : Exchange} (h : Transaction.Ordinary exchange.1)
    (lasting data : δ) :
    backend.after ⟨lasting, some data⟩ exchange =
      ⟨lasting, some (backend.effect data exchange)⟩ := by
  rw [after, if_neg h.1, if_neg h.2.1, if_neg h.2.2]

/-- Within a transaction ordinary commands change nothing that lasts, however many of them
have been sent. -/
theorem foldl_after_ordinary {sent : List Exchange}
    (h : ∀ exchange ∈ sent, Transaction.Ordinary exchange.1) (lasting data : δ) :
    sent.foldl backend.after ⟨lasting, some data⟩ =
      ⟨lasting, some (sent.foldl backend.effect data)⟩ := by
  induction sent generalizing data with
  | nil => rfl
  | cons exchange rest ih =>
    rw [List.foldl_cons, after_ordinary (h _ List.mem_cons_self), List.foldl_cons]
    exact ih (fun later hlater => h later (List.mem_cons_of_mem _ hlater)) _

/-- Commands that all succeed do what they do one after another. -/
theorem foldl_effect_carried {statements : List Statement} {outcomes : List Outcome}
    (hlength : outcomes.length = statements.length) (data : δ) :
    (Transaction.carried (statements.map .ofStatement) outcomes).foldl backend.effect data =
      backend.applyAll data statements := by
  induction statements generalizing outcomes data with
  | nil => rfl
  | cons statement rest ih =>
    cases outcomes with
    | nil => cases hlength
    | cons outcome others => exact ih (Nat.succ.inj hlength) _

end Backend

namespace Transaction

theorem ordinary_of_carried {statements : List Statement} (outcomes : List Outcome)
    (h : ∀ statement ∈ statements, Ordinary (.ofStatement statement)) :
    ∀ exchange ∈ carried (statements.map .ofStatement) outcomes, Ordinary exchange.1 := by
  rintro ⟨command, answer⟩ hmem
  obtain ⟨statement, hstatement, rfl⟩ := List.mem_map.1 (List.of_mem_zip hmem).1
  exact h statement hstatement

variable {δ : Type} (backend : Backend δ)

/-- Behind BEGIN ordinary commands leave what lasts as it is. -/
theorem replay_begun (data : δ) (opened : Outcome) {sent : List Exchange}
    (h : ∀ exchange ∈ sent, Ordinary exchange.1) :
    backend.replay data ((start, .ok opened) :: sent) =
      ⟨data, some (sent.foldl backend.effect data)⟩ := by
  rw [Backend.replay, List.foldl_cons, Backend.after_start]
  exact Backend.foldl_after_ordinary h data data

/-- So they do at every moment. -/
theorem lasting_begun (data : δ) (opened : Outcome) {sent early : List Exchange}
    (h : ∀ exchange ∈ sent, Ordinary exchange.1)
    (hearly : early <+: (start, .ok opened) :: sent) :
    (backend.replay data early).lasting = data := by
  rcases List.prefix_cons_iff.1 hearly with rfl | ⟨later, rfl, hlater⟩
  · rfl
  · rw [replay_begun backend data opened fun exchange hmem => h exchange (hlater.subset hmem)]

namespace Course

variable {closed : Bool} {statements : List Statement} {sent : List Exchange}
  {result : Except DatabaseFault Nat}

/-- In the end all statements last if there is a count of rows, and else none, and no
transaction is left open. -/
theorem replay_eq (h : Course closed statements sent result)
    (hordinary : ∀ statement ∈ statements, Ordinary (.ofStatement statement)) (data : δ) :
    backend.replay data sent = ⟨backend.allOrNone data statements result, none⟩ := by
  cases h with
  | unsent hclosed => rfl
  | refused hopen => rfl
  | @failed opened done next rest outcomes fault answer hopen hstatements hlength =>
    subst hstatements
    have hdone := ordinary_of_carried outcomes fun statement hmem =>
      hordinary statement (List.mem_append_left _ hmem)
    have hnext : Ordinary (.ofStatement next) :=
      hordinary next (List.mem_append_right _ List.mem_cons_self)
    have hbegun := replay_begun backend data opened hdone
    rw [Backend.replay] at hbegun ⊢
    rw [List.foldl_append, hbegun, List.foldl_cons, Backend.after_ordinary hnext]
    rfl
  | @undone opened outcomes fault answer hopen hlength =>
    have hbegun := replay_begun backend data opened
      (ordinary_of_carried outcomes hordinary)
    rw [Backend.replay] at hbegun ⊢
    rw [List.foldl_append, hbegun]
    rfl
  | @committed opened outcomes closing hopen hlength =>
    have hbegun := replay_begun backend data opened
      (ordinary_of_carried outcomes hordinary)
    rw [Backend.replay] at hbegun ⊢
    rw [List.foldl_append, hbegun, Backend.foldl_effect_carried hlength]
    rfl

/-- Until the last answer has come nothing lasts that was not there before. -/
theorem lasting_early (h : Course closed statements sent result)
    (hordinary : ∀ statement ∈ statements, Ordinary (.ofStatement statement)) (data : δ)
    {early : List Exchange} (hearly : early <+: sent) (hne : early ≠ sent) :
    (backend.replay data early).lasting = data := by
  cases h with
  | unsent hclosed => exact absurd (List.prefix_nil.1 hearly) hne
  | refused hopen =>
    rcases List.prefix_cons_iff.1 hearly with rfl | ⟨later, rfl, hlater⟩
    · rfl
    · rw [List.prefix_nil.1 hlater] at hne
      exact absurd rfl hne
  | @failed opened done next rest outcomes fault answer hopen hstatements hlength =>
    subst hstatements
    have hsent : ∀ exchange ∈ carried (done.map .ofStatement) outcomes ++
        [(.ofStatement next, .error fault)], Ordinary exchange.1 := by
      intro exchange hmem
      rcases List.mem_append.1 hmem with hmem | hmem
      · exact ordinary_of_carried outcomes (fun statement hdone =>
          hordinary statement (List.mem_append_left _ hdone)) exchange hmem
      · rw [List.mem_singleton.1 hmem]
        exact hordinary next (List.mem_append_right _ List.mem_cons_self)
    rw [List.append_cons] at hearly hne
    exact lasting_begun backend data opened hsent ((List.prefix_concat_iff.1 hearly).resolve_left hne)
  | @undone opened outcomes fault answer hopen hlength =>
    have hsent := ordinary_of_carried outcomes hordinary
    rw [List.append_cons] at hearly hne
    rcases List.prefix_concat_iff.1 ((List.prefix_concat_iff.1 hearly).resolve_left hne) with
      rfl | hbefore
    · -- A COMMIT that failed has had no effect.
      have hbegun := replay_begun backend data opened hsent
      rw [Backend.replay] at hbegun ⊢
      rw [List.foldl_append, hbegun]
      rfl
    · exact lasting_begun backend data opened hsent hbefore
  | @committed opened outcomes closing hopen hlength =>
    have hsent := ordinary_of_carried outcomes hordinary
    exact lasting_begun backend data opened hsent ((List.prefix_concat_iff.1 hearly).resolve_left hne)

end Course

/-! ## The statements of the API -/

/-- A statement that begins with other letters than BEGIN, COMMIT and ROLLBACK is none of
them. -/
theorem ordinary_of_words {words : String} (first : Char) (rest : Sql.Phrase)
    (hwords : words.toList.head? = some first) (hfirst : first ∉ ['B', 'C', 'R']) :
    Ordinary (.ofStatement (Sql.Phrase.statement (.text words :: rest))) := by
  have hhead : (Command.ofStatement (Sql.Phrase.statement (.text words :: rest))).sql.toList.head? =
      some first := by
    rw [Command.ofStatement, Sql.Phrase.sql_statement_cons, String.toList_append,
      List.head?_append, Sql.Piece.sql, hwords]
    rfl
  have hne : ∀ {control : Command} {letter : Char}, control.sql.toList.head? = some letter →
      first ≠ letter →
      Command.ofStatement (Sql.Phrase.statement (.text words :: rest)) ≠ control := by
    rintro control letter hcontrol hletter rfl
    exact hletter (Option.some.inj (hhead.symm.trans hcontrol))
  simp only [List.mem_cons, List.not_mem_nil, or_false, not_or] at hfirst
  exact ⟨hne (by decide) hfirst.1, hne (by decide) hfirst.2.1, hne (by decide) hfirst.2.2⟩

/-- What is sent to create or to delete rows neither begins nor ends a transaction. -/
theorem ordinary_write (insertions : List Insertion) (deletions : List Deletion) :
    ∀ statement ∈ insertions.map Insertion.statement ++ deletions.map Deletion.statement,
      Ordinary (.ofStatement statement) := by
  intro statement hmem
  rcases List.mem_append.1 hmem with hmem | hmem
  · obtain ⟨insertion, -, rfl⟩ := List.mem_map.1 hmem
    simp only [Insertion.statement, Insertion.phrase, List.append_assoc, List.singleton_append]
    exact ordinary_of_words 'I' _ (by decide) (by decide)
  · obtain ⟨deletion, -, rfl⟩ := List.mem_map.1 hmem
    simp only [Deletion.statement, Deletion.phrase, List.append_assoc, List.singleton_append]
    exact ordinary_of_words 'D' _ (by decide) (by decide)

end Transaction

/-! ## All or nothing -/

/-- **All statements or none.** Whatever the server answers, a transaction takes one of its
courses: the statements are sent in order between BEGIN and COMMIT, each with its own
parameters, up to the first that fails; behind a failure nothing is sent but ROLLBACK; and
the rows touched are counted only when COMMIT has succeeded. So, of statements that
are no transaction commands themselves, all last when there is a count and none when there
is a failure, and none at any moment before the last answer. -/
theorem Session.executeAll_atomic {σ : Type} (wire : Wire σ) (session : Session)
    (statements : List Statement) (begun : σ) :
    ∃ result final sent,
      (session.executeAll wire statements).run begun = (result, final) ∧
      (session.executeAll wire.recorded statements).run (begun, []) = (result, final, sent) ∧
      Transaction.Course session.closed statements sent result ∧
      ((∀ statement ∈ statements, Transaction.Ordinary (.ofStatement statement)) →
        ∀ {δ : Type} (backend : Backend δ) (data : δ),
          backend.replay data sent = ⟨backend.allOrNone data statements result, none⟩ ∧
          ∀ early, early <+: sent → early ≠ sent →
            (backend.replay data early).lasting = data) := by
  have hcourse : ∃ result final sent,
      (session.executeAll wire statements).run begun = (result, final) ∧
      (session.executeAll wire.recorded statements).run (begun, []) = (result, final, sent) ∧
      Transaction.Course session.closed statements sent result := by
    cases hclosed : session.closed with
    | true =>
      have hsend : ∀ {τ : Type} (wire : Wire τ),
          session.send wire = fun _ => pure (.error closedFault) := by
        intro τ wire
        funext command
        rw [send, hclosed]
        rfl
      refine ⟨.error closedFault, begun, [], ?_, ?_, .unsent rfl⟩
      · rw [executeAll, hsend]
        rfl
      · rw [executeAll, hsend]
        rfl
    | false => exact Transaction.course_run (records_send wire hclosed) statements begun
  obtain ⟨result, final, sent, hplain, hrecorded, hcourse⟩ := hcourse
  exact ⟨result, final, sent, hplain, hrecorded, hcourse, fun hordinary _ backend data =>
    ⟨hcourse.replay_eq backend hordinary data,
      fun _ => hcourse.lasting_early backend hordinary data⟩⟩

/-! ## Two notes of one number -/

/-- A server whose answers are given in advance. -/
def scripted : Wire (List (Except DatabaseFault Outcome)) where
  signOn _ _ _ _ := pure (.ok ())
  send _ := fun answers => (answers.headD (.ok {}), answers.tail)

/-- Data that are the commands themselves. -/
def journal : Backend (List Command) where
  apply command done := done ++ [command]
  spoil command done := done ++ [command]

def insertNote (id : Int) (text : String) : Insertion :=
  ⟨.ofColumns "shop" "notes" [], [("id", .int id), ("text", .str text)]⟩

def twoNotes : List Statement :=
  [insertNote 7 "first", insertNote 7 "second"].map Insertion.statement

/-- The second note is refused, and the first does not last. -/
theorem second_note_refused :
    (∀ statement ∈ twoNotes, Transaction.Ordinary (.ofStatement statement)) ∧
    ∃ sent, (({} : Session).executeAll scripted.recorded twoNotes).run
        ([.ok {}, .ok { affected := 1 }, .error ⟨"duplicate key"⟩, .ok {}], []) =
          (.error ⟨"duplicate key"⟩, [], sent) ∧
      sent.map Prod.fst = [Transaction.start] ++ twoNotes.map .ofStatement ++
        [Transaction.rollback] ∧
      journal.replay [] sent = ⟨[], none⟩ := by
  have hordinary : ∀ statement ∈ twoNotes, Transaction.Ordinary (.ofStatement statement) :=
    fun statement hmem =>
      Transaction.ordinary_write _ [] statement (List.mem_append_left _ hmem)
  obtain ⟨result, final, sent, -, hrecorded, -, hlasts⟩ :=
    Session.executeAll_atomic scripted {} twoNotes
      [.ok {}, .ok { affected := 1 }, .error ⟨"duplicate key"⟩, .ok {}]
  have hlasting := (hlasts hordinary journal []).1
  cases hrecorded
  exact ⟨hordinary, _, rfl, rfl, hlasting⟩

end TableApi
