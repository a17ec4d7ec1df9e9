/-!
# Faults

What can go wrong, by cause. A `ConfigFault` keeps the server from starting, a
`SchemaFault` keeps a resource from being compiled, and a `Fault` ends a request.
Each has one `message`; a fault also has the status and the code of its answer.
The constructors named `stated` carry a reason that is already worded.
-/

namespace TableApi

inductive LoadCause where
  /-- The file is there but cannot be read as text. -/
  | unreadable (path : String)
  /-- The text is not a configuration. -/
  | malformed
  | badPort (text : String)
  | badPageLimit (text : String)
  | stated (reason : String)
  deriving Repr, DecidableEq

namespace LoadCause

/-- The wording of a load cause. Only those about an environment variable promise theirs. -/
def message : LoadCause → String
  | unreadable path => path ++ ": not a readable file"
  | malformed => "not a configuration"
  | badPort text => "MYSQL_PORT: invalid port '" ++ text ++ "'"
  | badPageLimit text => "TABLEREST_PAGE_LIMIT: invalid number '" ++ text ++ "'"
  | stated reason => reason

end LoadCause

inductive ConfigRule where
  | malformedPolicySubject (subject : String)
  | duplicatePolicySubject (subject : String)
  | malformedAliasSubject (subject : String)
  | overlappingAliases (subject other : String)
  | stated (reason : String)
  deriving Repr, DecidableEq

namespace ConfigRule

def message : ConfigRule → String
  | malformedPolicySubject subject => "malformed policy subject '" ++ subject ++ "'"
  | duplicatePolicySubject subject => "duplicate policy subject '" ++ subject ++ "'"
  | malformedAliasSubject subject => "malformed alias subject '" ++ subject ++ "'"
  | overlappingAliases subject other =>
    "aliases of '" ++ subject ++ "' overlap with '" ++ other ++ "'"
  | stated reason => reason

end ConfigRule

/-- Why there is no server configuration. -/
inductive ConfigFault where
  | load (cause : LoadCause)
  | unknownProvider (name : String)
  | missingOption (name : String)
  | validation (rule : ConfigRule)
  deriving Repr, DecidableEq

namespace ConfigFault

/-- The wording of a configuration fault: its kind, then its cause. -/
def message : ConfigFault → String
  | load cause => "config load: " ++ cause.message
  | unknownProvider name => "unknown provider: " ++ name
  | missingOption name => "missing required option: " ++ name
  | validation rule => "validation: " ++ rule.message

end ConfigFault

/-- What makes a table or field unfit for its place. -/
inductive Misfit where
  | foreignTable (table database : String)
  | foreignColumn (column table : String)
  | noColumns (table : String)
  | stated (reason : String)
  deriving Repr, DecidableEq

namespace Misfit

def message : Misfit → String
  | foreignTable table database =>
    "table '" ++ table ++ "' does not belong to database '" ++ database ++ "'"
  | foreignColumn column table =>
    "field '" ++ column ++ "' does not belong to table '" ++ table ++ "'"
  | noColumns table => "table '" ++ table ++ "' exposes no columns"
  | stated reason => reason

end Misfit

/-- Why a schema, or a resource over it, cannot be built. -/
inductive SchemaFault where
  | unknownAlias (name alt : String)
  /-- `kind` is the sort of thing referred to: a table or a field. -/
  | missingReference (kind id : String)
  | cyclic (chain : String)
  | depthExceeded (limit : Nat)
  | tooManyTables (limit : Nat)
  | ambiguousName (resource name : String)
  | invalidShape (misfit : Misfit)
  deriving Repr, DecidableEq

namespace SchemaFault

def message : SchemaFault → String
  | unknownAlias name alt => "alias '" ++ alt ++ "' is not a member of name '" ++ name ++ "'"
  | missingReference kind id => "missing reference: " ++ kind ++ " '" ++ id ++ "'"
  | cyclic chain => "relation cycle: " ++ chain
  | depthExceeded limit => "relation nesting deeper than " ++ toString limit ++ " hops"
  | tooManyTables limit => "context joins more than " ++ toString limit ++ " tables"
  | ambiguousName resource name =>
    "display name '" ++ name ++ "' is used by more than one column of '" ++ resource ++ "'"
  | invalidShape misfit => "invalid shape: " ++ misfit.message

end SchemaFault

/-- What a request asks for that it may not. -/
inductive Refusal where
  | unknownField (key : String)
  | unknownParameter (key : String)
  | besideSearch (key : String)
  | comparatorAlone (key target : String)
  | unknownComparator (token : String)
  /-- `what` names the values that the parameter takes. -/
  | badValue (key what raw : String)
  | unknownOrder (name : String)
  | badDirection (text : String)
  | halfOrder
  | pagingOff
  | pageMissing
  | badPage (text : String)
  | pageTooLarge (page : Nat)
  | singleReadParameters
  | bodyNotObject
  | stated (reason : String)
  deriving Repr, DecidableEq

namespace Refusal

/-- The wording of a refusal; what the request said is quoted as it was said. -/
def message : Refusal → String
  | unknownField key => "unknown field '" ++ key ++ "'"
  | unknownParameter key => "unknown parameter '" ++ key ++ "'"
  | besideSearch key => "parameter '" ++ key ++ "' cannot be combined with 'q'"
  | comparatorAlone key target => "'" ++ key ++ "' given without a '" ++ target ++ "' filter"
  | unknownComparator token => "unknown comparator '" ++ token ++ "'"
  | badValue key what raw =>
    "parameter '" ++ key ++ "' must be " ++ what ++ ", got '" ++ raw ++ "'"
  | unknownOrder name => "'order_by' names no field: '" ++ name ++ "'"
  | badDirection text => "'order_dir' must be ASC or DESC, got '" ++ text ++ "'"
  | halfOrder => "'order_by' and 'order_dir' must both be present"
  | pagingOff => "'page' given but paging is disabled"
  | pageMissing => "'page' parameter is required"
  | badPage text => "'page' must be a positive integer, got '" ++ text ++ "'"
  | pageTooLarge page => "page " ++ toString page ++ " is out of range"
  | singleReadParameters => "bad parameters: single reads take none"
  | bodyNotObject => "body must be a JSON object"
  | stated reason => reason

end Refusal

/-- What a request names that is not there. -/
inductive Absence where
  | model (name : String)
  | row (resource id : String)
  | page (number : Nat) (resource : String)
  | stated (reason : String)
  deriving Repr, DecidableEq

namespace Absence

def message : Absence → String
  | model name => "unknown model '" ++ name ++ "'"
  | row resource id => "no '" ++ resource ++ "' with id '" ++ id ++ "'"
  | page number resource =>
    "page " ++ toString number ++ " of '" ++ resource ++ "' is out of range"
  | stated reason => reason

end Absence

/-- What the keys of a table do not allow. -/
inductive KeyDefect where
  | noPrimaryKey (resource : String)
  | compositeKey (resource : String)
  | sharedId (count : Nat) (resource id : String)
  | nothingToDeleteBy (table : String)
  | stated (reason : String)
  deriving Repr, DecidableEq

namespace KeyDefect

def message : KeyDefect → String
  | noPrimaryKey resource => "no primary key field found for '" ++ resource ++ "'"
  | compositeKey resource =>
    "'" ++ resource ++ "' has a composite primary key; single lookups need exactly one"
  | sharedId count resource id =>
    toString count ++ " rows of '" ++ resource ++ "' share id '" ++ id ++ "'"
  | nothingToDeleteBy table => "table '" ++ table ++ "' has no primary key to delete by"
  | stated reason => reason

end KeyDefect

/-- A row or a pack that is not what its resource promises. -/
inductive Breach where
  | rowWidth (resource : String) (expected actual : Nat)
  | missingValue (column : String)
  | branchNotObject (column : String)
  | strayKeys
  | stated (reason : String)
  deriving Repr, DecidableEq

namespace Breach

def message : Breach → String
  | rowWidth resource expected actual =>
    "context '" ++ resource ++ "' expects rows of " ++ toString expected ++
      " columns, got " ++ toString actual
  | missingValue column => "model pack has no value for '" ++ column ++ "'"
  | branchNotObject column => "branch of '" ++ column ++ "' is not an object"
  | strayKeys => "model pack carries keys outside the context model"
  | stated reason => reason

end Breach

/-- A failure that the database reports, in its own words. -/
structure DatabaseFault where
  reason : String
  deriving Repr, DecidableEq

inductive Fault where
  | config (fault : ConfigFault)
  | schema (fault : SchemaFault)
  | badRequest (refusal : Refusal)
  | missingField (name : String)
  | notFound (absence : Absence)
  | integrity (defect : KeyDefect)
  | contract (breach : Breach)
  | database (fault : DatabaseFault)
  deriving Repr, DecidableEq

namespace Fault

/-- The wording of a fault: its kind, then its cause. Faults of configuration and schema name
their kind themselves. -/
def message : Fault → String
  | config fault => fault.message
  | schema fault => fault.message
  | badRequest refusal => "bad request: " ++ refusal.message
  | missingField name => "missing field: " ++ name
  | notFound absence => "not found: " ++ absence.message
  | integrity defect => "integrity: " ++ defect.message
  | contract breach => "contract violation: " ++ breach.message
  | database fault => "database: " ++ fault.reason

/-- The status of the answer: the requester's faults are told from the server's. -/
def status : Fault → Nat
  | badRequest _ | missingField _ => 400
  | notFound _ => 404
  | config _ | schema _ | integrity _ | contract _ | database _ => 500

/-- The word for the kind of fault in an answer. -/
def code : Fault → String
  | config _ => "config_error"
  | schema _ => "schema_error"
  | badRequest _ => "bad_request"
  | missingField _ => "missing_field"
  | notFound _ => "not_found"
  | integrity _ => "integrity_error"
  | contract _ => "contract_violation"
  | database _ => "database_error"

end Fault

end TableApi
