import TableApi.Config.Settings
import TableApi.Name
import TableApi.Text.Cut

/-!
# Checking settings

Settings are accepted when the provider is known, host and user are given, every
subject is a path of one to three words, no subject has two policies, and no two
subjects of one sort share an alias. Aliases of columns are compared within
their table only: each is first put behind the path of its table.
-/

namespace TableApi.Settings

def providers : List String := ["mysql"]

/-- Whether a character may stand in a word of a path. -/
def isWordChar (c : Char) : Bool :=
  c.isAlphanum || c == '_' || c == '$'

/-- Whether a text is a path: one to three words between dots. -/
def isPath (text : String) : Bool :=
  let words := text.toList.splitOn '.'
  words.length ≤ 3 && words.all fun word => !word.isEmpty && word.all isWordChar

/-- An alias as it is compared: that of a column behind the path of its table,
any other as it stands. -/
def inScope (path alt : String) : String :=
  match Text.split '.' path with
  | [database, table, _] => database ++ "." ++ table ++ "." ++ alt
  | _ => alt

/-- The name that a subject and its aliases make. -/
def aliasName (entry : String × List String) : Name :=
  .withAliases entry.1 (entry.2.map (inScope entry.1))

/-- Checks policies one after another; `seen` holds the subjects before. -/
def checkPolicies (seen : List String) : List AccessPolicy → Except ConfigFault Unit
  | [] => .ok ()
  | policy :: rest =>
    if !isPath policy.subject then
      .error (.validation (.malformedPolicySubject policy.subject))
    else if seen.contains policy.subject then
      .error (.validation (.duplicatePolicySubject policy.subject))
    else checkPolicies (seen ++ [policy.subject]) rest

/-- Checks aliases one after another; `names` holds the names before. -/
def checkAliases (names : List Name) : Entries (List String) → Except ConfigFault Unit
  | [] => .ok ()
  | entry :: rest =>
    if !isPath entry.1 then .error (.validation (.malformedAliasSubject entry.1))
    else
      let name := aliasName entry
      match names.find? fun other => other.overlaps name with
      | some other => .error (.validation (.overlappingAliases entry.1 other.primary))
      | none => checkAliases (names ++ [name]) rest

/-- Checks that an option is there and not empty. -/
def checkOption (option : String) (value : Option String) : Except ConfigFault Unit :=
  if (value.getD "").isEmpty then .error (.missingOption option) else .ok ()

/-- Checks settings; the first thing that is wrong is reported. -/
def validate (settings : Settings) : Except ConfigFault Unit :=
  let connection := settings.connection
  if !providers.contains connection.provider then
    .error (.unknownProvider connection.provider)
  else do
    checkOption "host" connection.host
    checkOption "username" connection.username
    checkPolicies [] settings.policies
    checkAliases [] settings.aliases

end TableApi.Settings
