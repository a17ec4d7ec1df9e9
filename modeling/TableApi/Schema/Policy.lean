/-!
# Access policies

A policy says of a database, a table or a column whether it is left out of the
API, hidden or protected, and which keys unlock a protected one. Only exclusion
changes what is compiled; the rest is for whoever stands in front of the API.
-/

namespace TableApi

inductive Capability where
  | create | read | update | delete | rename
  deriving Repr, DecidableEq

/-- The key of each capability that has one. -/
structure KeySet where
  create : Option String := none
  read : Option String := none
  update : Option String := none
  delete : Option String := none
  rename : Option String := none
  deriving Repr, DecidableEq, Inhabited

def KeySet.key (keys : KeySet) : Capability → Option String
  | .create => keys.create
  | .read => keys.read
  | .update => keys.update
  | .delete => keys.delete
  | .rename => keys.rename

/-- The policy of one subject: a database, a table or a column by its path. -/
structure AccessPolicy where
  subject : String
  excluded : Bool := false
  hidden : Bool := false
  /-- Whether a key is needed: what a settings file calls protected. -/
  locked : Bool := false
  keys : KeySet := {}
  deriving Repr, DecidableEq, Inhabited

namespace AccessPolicy

/-- The policy of a subject nobody configured: everything is allowed. -/
def openTo (subject : String) : AccessPolicy := { subject }

/-- Whether nothing at all is kept from clients. -/
def isOpen (policy : AccessPolicy) : Bool :=
  !policy.excluded && !policy.hidden && !policy.locked

/-- Whether a token unlocks a capability. An open subject needs no token; a
locked one without a key for the capability has none that fits. -/
def unlocks (policy : AccessPolicy) (capability : Capability) (token : Option String) : Bool :=
  if !policy.locked then true
  else match policy.keys.key capability, token with
    | some key, some token => key == token
    | _, _ => false

/-- The first policy configured for a subject, or an open one. -/
def forSubject (subject : String) (policies : List AccessPolicy) : AccessPolicy :=
  (policies.find? fun policy => policy.subject == subject).getD (openTo subject)

end AccessPolicy

end TableApi
