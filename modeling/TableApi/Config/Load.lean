import TableApi.Config.Document
import TableApi.Config.Validate
import TableApi.Number.Integer
import TableApi.Text.Blank

/-!
# Finding the settings

Settings come from a file, whose path an environment variable may name, or, if
there is no such file, from environment variables. Either way they are checked.
-/

namespace TableApi.Settings

def ofText (text : String) : Except ConfigFault Settings :=
  match (Json.Document.whole? text).bind ofDocument? with
  | none => .error (.load .malformed)
  | some settings => do
    settings.validate
    .ok settings

/-- The words between commas, without blanks around them and without empty ones. -/
def commaList (text : String) : List String :=
  ((Text.split ',' text).map Text.trim).filter fun word => !word.isEmpty

/-- The settings of environment variables. -/
def ofEnvironment (env : String → Option String) : Except ConfigFault Settings := do
  let port ← match env "MYSQL_PORT" with
    | none => .ok none
    | some text => match Number.naturalBelow? UInt16.size (Text.trim text) with
      | some port => .ok (some port)
      | none => .error (.load (.badPort text))
  let pageLimit ← match env "TABLEREST_PAGE_LIMIT" with
    | none => .ok 0
    | some text => match Number.naturalBelow? UInt32.size (Text.trim text) with
      | some limit => .ok limit
      | none => .error (.load (.badPageLimit text))
  let connection : Connection :=
    { provider := "mysql"
      host := env "MYSQL_HOST"
      port
      username := env "MYSQL_USER"
      password := (env "MYSQL_PASSWORD").getD ""
      databases := commaList ((env "MYSQL_DATABASES").getD "") }
  let plain : Settings := { connection, pageLimit }
  let settings := { plain with bind := (env "TABLEREST_BIND").getD plain.bind }
  settings.validate
  .ok settings

inductive Found where
  | text (content : String)
  /-- Something that cannot be read as text, such as a directory. -/
  | unreadable

def filePath (env : String → Option String) : String :=
  (env "TABLEREST_CONFIG").getD "tablerest.json"

/-- The settings of the file, if there is one, and else of the environment. -/
def load (env : String → Option String) (file? : String → Option Found) :
    Except ConfigFault Settings :=
  let path := filePath env
  match file? path with
  | some (.text content) => ofText content
  | some .unreadable => .error (.load (.unreadable path))
  | none => ofEnvironment env

end TableApi.Settings
