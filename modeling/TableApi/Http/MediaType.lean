import TableApi.Text.Cut

/-!
# Media types

A media type is a type, a slash and a subtype, then perhaps parameters behind
semicolons. Type and subtype are tokens; the part of a subtype behind its last
plus sign is a suffix. A parameter is a token, an equals sign and a token or a
quoted text, and blanks may stand before it. A body is taken for JSON when its
type is `application` and its subtype or suffix is `json`, in any case.
-/

namespace TableApi.Http

def isTokenChar (c : Char) : Bool :=
  c.isAlphanum ||
    c ∈ ['!', '#', '$', '%', '&', '\'', '*', '+', '-', '.', '^', '_', '\x60', '|', '~']

def isToken (chars : List Char) : Bool :=
  !chars.isEmpty && chars.all isTokenChar

/-- What stands behind a quoted text. A quote is part of it only at its very front,
so a quoted text is never empty; a backslash is a character like any other. -/
def afterQuoted? : Bool → List Char → Option (List Char)
  | _, [] => none
  | begun, '"' :: rest => if begun then some rest else afterQuoted? true rest
  | _, c :: rest => if c.toNat < 0x20 ∨ c.toNat = 0x7F then none else afterQuoted? true rest

/-- Whether characters are parameters, each but the first behind a semicolon.
The budget is the number of characters that may be left. -/
def areParameters : Nat → List Char → Bool
  | _, [] => true
  | 0, _ => false
  | budget + 1, chars =>
    match chars.dropWhile (· = ' ') with
    | [] => true
    | c :: more =>
      let name := (c :: more).takeWhile isTokenChar
      if name.isEmpty then false
      else match (c :: more).dropWhile isTokenChar with
        | '=' :: '"' :: rest => match afterQuoted? false rest with
          | none => false
          | some rest => match rest.dropWhile (· = ' ') with
            | [] => true
            | ';' :: rest => areParameters budget rest
            | _ => false
        -- A bare value may be empty only at the very end.
        | '=' :: rest => match rest.dropWhile isTokenChar with
          | [] => true
          | ';' :: others => rest.head? != some ';' && areParameters budget others
          | _ => false
        | _ => false

/-- The subtype without its suffix, and the suffix behind the last plus sign. A
plus sign at the very front is part of the subtype. -/
def cutSuffix (subtype : List Char) : List Char × Option (List Char) :=
  let text := String.ofList subtype
  match Text.cutLast '+' text with
  | some (front, suffix) =>
    if front.isEmpty then (subtype, none) else (front.toList, some suffix.toList)
  | none => (subtype, none)

/-- Whether a media type says that the body is JSON. -/
def isJsonType (mediaType : String) : Bool :=
  let chars := (Text.lower mediaType).toList
  let main := chars.takeWhile isTokenChar
  match chars.dropWhile isTokenChar with
  | '/' :: rest =>
    let subtype := rest.takeWhile isTokenChar
    let wellFormed := match rest.dropWhile isTokenChar with
      | [] => isToken main
      | ';' :: parameters =>
        isToken main && isToken subtype && areParameters parameters.length parameters
      | _ => false
    let (plain, suffix) := cutSuffix subtype
    wellFormed && main == "application".toList &&
      (plain == "json".toList || suffix == some "json".toList)
  | _ => false

end TableApi.Http
