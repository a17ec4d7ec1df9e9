import TableApi.Server.Command

/-!
# Transactions

Statements that belong together run between BEGIN and COMMIT. The first that
fails ends the transaction: nothing more of it is sent, and what was done is
rolled back. So is a transaction whose COMMIT fails.
-/

namespace TableApi.Transaction

variable {σ : Type} (send : Command → StateM σ (Except DatabaseFault Outcome))

def start : Command := { sql := "BEGIN" }
/-- Makes a transaction's changes last. -/
def commit : Command := { sql := "COMMIT" }
/-- Undoes a transaction's changes. -/
def rollback : Command := { sql := "ROLLBACK" }

/-- Sends commands in order up to the first that fails, and adds up the rows
they touched. -/
def sendAll : List Command → StateM σ (Except DatabaseFault Nat)
  | [] => pure (.ok 0)
  | command :: rest => do
    match ← send command with
    | .error fault => pure (.error fault)
    | .ok outcome => match ← sendAll rest with
      | .error fault => pure (.error fault)
      | .ok touched => pure (.ok (outcome.affected + touched))

/-- Takes back what a failed transaction did, and reports its failure. -/
def giveUp (fault : DatabaseFault) : StateM σ (Except DatabaseFault Nat) := do
  let _ ← send rollback
  pure (.error fault)

/-- Runs statements in one transaction and counts the rows they touched. -/
def run (statements : List Statement) : StateM σ (Except DatabaseFault Nat) := do
  match ← send start with
  -- Nothing is open yet, so nothing is rolled back.
  | .error fault => pure (.error fault)
  | .ok _ => match ← sendAll send (statements.map Command.ofStatement) with
    | .error fault => giveUp send fault
    | .ok touched => match ← send commit with
      | .error fault => giveUp send fault
      | .ok _ => pure (.ok touched)

end TableApi.Transaction
