import Mathlib.Logic.Basic

/-!
JSON values as the json-c library hands them to the agent, and the property lookups of
`utils.c`. `jsonGetProperty` walks the nested objects along a path and stores every
visited value of the requested type, so an output may be written although the lookup
fails, and a value of another type at the end of the path is not an error.
-/
namespace EsyncUa.JsonProperties

/-- A JSON value; numbers without fraction are the 64-bit integers of json-c. -/
inductive Json
  | null
  | bool (b : Bool)
  | int (n : Int64)
  | double (text : String)
  | string (s : String)
  | array (items : List Json)
  | object (fields : List (String × Json))

mutual

/-- Equality of values is decided along their structure. -/
def Json.decEq : (a b : Json) → Decidable (a = b)
  | .null, .null => isTrue rfl
  | .bool a, .bool b => decidable_of_iff (a = b) (by simp)
  | .int a, .int b => decidable_of_iff (a = b) (by simp)
  | .double a, .double b => decidable_of_iff (a = b) (by simp)
  | .string a, .string b => decidable_of_iff (a = b) (by simp)
  | .array a, .array b =>
      match itemsDecEq a b with
      | isTrue h => isTrue (by rw [h])
      | isFalse h => isFalse (by simpa using h)
  | .object a, .object b =>
      match fieldsDecEq a b with
      | isTrue h => isTrue (by rw [h])
      | isFalse h => isFalse (by simpa using h)
  | .null, .bool _ | .null, .int _ | .null, .double _ | .null, .string _ | .null, .array _
  | .null, .object _ | .bool _, .null | .bool _, .int _ | .bool _, .double _
  | .bool _, .string _ | .bool _, .array _ | .bool _, .object _ | .int _, .null
  | .int _, .bool _ | .int _, .double _ | .int _, .string _ | .int _, .array _
  | .int _, .object _ | .double _, .null | .double _, .bool _ | .double _, .int _
  | .double _, .string _ | .double _, .array _ | .double _, .object _ | .string _, .null
  | .string _, .bool _ | .string _, .int _ | .string _, .double _ | .string _, .array _
  | .string _, .object _ | .array _, .null | .array _, .bool _ | .array _, .int _
  | .array _, .double _ | .array _, .string _ | .array _, .object _ | .object _, .null
  | .object _, .bool _ | .object _, .int _ | .object _, .double _ | .object _, .string _
  | .object _, .array _ => isFalse nofun

def itemsDecEq : (a b : List Json) → Decidable (a = b)
  | [], [] => isTrue rfl
  | a :: as, b :: bs =>
      match Json.decEq a b, itemsDecEq as bs with
      | isTrue h, isTrue h' => isTrue (by rw [h, h'])
      | isFalse h, _ => isFalse (by simp [h])
      | _, isFalse h => isFalse (by simp [h])
  | [], _ :: _ | _ :: _, [] => isFalse nofun

def fieldsDecEq : (a b : List (String × Json)) → Decidable (a = b)
  | [], [] => isTrue rfl
  | (k, a) :: as, (k', b) :: bs =>
      match decEq k k', Json.decEq a b, fieldsDecEq as bs with
      | isTrue hk, isTrue h, isTrue h' => isTrue (by rw [hk, h, h'])
      | isFalse h, _, _ => isFalse (by simp [h])
      | _, isFalse h, _ => isFalse (by simp [h])
      | _, _, isFalse h => isFalse (by simp [h])
  | [], _ :: _ | _ :: _, [] => isFalse nofun

end

instance : DecidableEq Json := Json.decEq

inductive JsonType
  | boolean | int | string | object | array
  deriving DecidableEq

/-- Results of the agent's functions and of the callbacks. -/
abbrev Rc := Int

def eUaOk : Rc := 0
def eUaErr : Rc := -1
def eUaSys : Rc := -4

@[simp] theorem eUaErr_ne_ok : eUaErr ≠ eUaOk := by decide

theorem eUaSys_ne_ok : eUaSys ≠ eUaOk := by decide

namespace Json

/-- `json_object_is_type` for the types the agent asks for. -/
def isType : Json → JsonType → Bool
  | bool _, .boolean => true
  | int _, .int => true
  | string _, .string => true
  | object _, .object => true
  | array _, .array => true
  | _, _ => false

/-- `json_object_object_get_ex`: fails on a value that is not an object. -/
def field? : Json → String → Option Json
  | object fields, name => fields.lookup name
  | _, _ => none

def bool? : Json → Option Bool
  | bool b => some b
  | _ => none

def int? : Json → Option Int64
  | int n => some n
  | _ => none

def string? : Json → Option String
  | string s => some s
  | _ => none

def array? : Json → Option (List Json)
  | array items => some items
  | _ => none

end Json

/-- The walk of `json_get_property`: its result and the last visited value of type `typ`.
The path ends at the first absent name, as a NULL ends the argument list. -/
def jsonGetProperty (typ : JsonType) : Json → List (Option String) → Option Json →
    Rc × Option Json
  | obj, some node :: path, value =>
      match obj.field? node with
      | none => (eUaErr, value)
      | some aux => jsonGetProperty typ aux path (if aux.isType typ then some aux else value)
  | _, _, value => (eUaOk, value)

/-- A lookup into a `char*`: NULL after an error, unchanged when no string was visited. -/
def getString (json : Json) (path : List (Option String)) (old : Option String) :
    Rc × Option String :=
  match jsonGetProperty .string json path none with
  | (err, value) =>
      if err = eUaOk then (err, (value.bind Json.string?) <|> old) else (err, none)

def getArray (json : Json) (path : List (Option String)) (old : Option (List Json)) :
    Rc × Option (List Json) :=
  match jsonGetProperty .array json path none with
  | (err, value) =>
      if err = eUaOk then (err, (value.bind Json.array?) <|> old) else (err, none)

/-- A lookup into an `int64_t`: unchanged when no number was visited, also after an error. -/
def getInt (json : Json) (path : List (Option String)) (old : Int64) : Rc × Int64 :=
  match jsonGetProperty .int json path none with
  | (err, value) => (err, (value.bind Json.int?).getD old)

/-- A lookup of a boolean: the result, and the value stored if there is one, also after an
error. -/
def getBool (json : Json) (path : List (Option String)) : Rc × Option Bool :=
  match jsonGetProperty .boolean json path none with
  | (err, value) => (err, value.bind Json.bool?)

def getTypeFromJson (json : Json) : Rc × Option String :=
  getString json [some "type"] none

/-- The 64-bit number is stored through an `int*`: the variable keeps its low 32 bits. -/
def getSeqNumFromJson (json : Json) (old : Int32) : Rc × Int32 :=
  match getInt json [some "body", some "sequence"] old.toInt64 with
  | (err, value) => (err, value.toInt32)

def getReplyidFromJson (json : Json) : Rc × Option String :=
  getString json [some "reply-id"] none

def getReplytoFromJson (json : Json) : Rc × Option String :=
  getString json [some "reply-to"] none

def getPkgTypeFromJson (json : Json) (old : Option String) : Rc × Option String :=
  getString json [some "body", some "package", some "type"] old

def getPkgNameFromJson (json : Json) (old : Option String) : Rc × Option String :=
  getString json [some "body", some "package", some "name"] old

def getPkgVersionFromJson (json : Json) (old : Option String) : Rc × Option String :=
  getString json [some "body", some "package", some "version"] old

def getPkgFileFromJson (json : Json) (version : Option String) (old : Option String) :
    Rc × Option String :=
  getString json [some "body", some "package", some "version-list", version, some "file"] old

def getPkgDownloadedFromJson (json : Json) (version : Option String) : Rc × Option Bool :=
  getBool json [some "body", some "package", some "version-list", version, some "downloaded"]

def getPkgRollbackVersionFromJson (json : Json) (old : Option String) : Rc × Option String :=
  getString json [some "body", some "package", some "rollback-version"] old

def getPkgRollbackVersionsFromJson (json : Json) (old : Option (List Json)) :
    Rc × Option (List Json) :=
  getArray json [some "body", some "package", some "rollback-versions"] old

def getBodyRollbackFromJson (json : Json) : Rc × Option Bool :=
  getBool json [some "body", some "rollback"]

def getUpdateStatusResponseFromJson (json : Json) : Rc × Option Bool :=
  getBool json [some "body", some "successful"]

def getCampaignIdFromJson (json : Json) : Option String :=
  (getString json [some "body", some "campaign", some "id"] none).2

/-- Digests are kept in buffers of 44 characters and a terminator. -/
def sha256B64Length : Nat := 45

/-- The digest lookups accept only strings that fill the buffer exactly. `none` is the
`strlen` of the NULL left by a value that is not a string. -/
def getSha256FromJson (json : Json) (version : Option String) (key : String) (old : String) :
    Option (Rc × String) :=
  match getString json [some "body", some "package", some "version-list", version, some key]
      none with
  | (err, sha256) =>
      if err = eUaOk then
        sha256.map fun sha256 =>
          if sha256.utf8ByteSize = sha256B64Length - 1 then (eUaOk, sha256) else (eUaErr, old)
      else some (eUaErr, old)

def getPkgSha256FromJson (json : Json) (version : Option String) (old : String) :
    Option (Rc × String) :=
  getSha256FromJson json version "sha-256" old

def getPkgDeltaSha256FromJson (json : Json) (version : Option String) (old : String) :
    Option (Rc × String) :=
  getSha256FromJson json version "delta-sha-256" old

/-- The escape sequences of json-c for one character of a string. -/
def escapeChar (c : Char) : String :=
  if c = '"' then "\\\""
  else if c = '\\' then "\\\\"
  else if c = '/' then "\\/"
  else if c = '\n' then "\\n"
  else if c = '\r' then "\\r"
  else if c = '\t' then "\\t"
  else if c.toNat = 8 then "\\b"
  else if c.toNat = 12 then "\\f"
  else if c.toNat < 32 then
    "\\u00" ++ (if c.toNat < 16 then "0" else "1") ++ String.ofList (Nat.toDigits 16 (c.toNat % 16))
  else c.toString

def quote (s : String) : String :=
  "\"" ++ s.toList.foldr (fun c text => escapeChar c ++ text) "\""

mutual

/-- `json_object_to_json_string`: the text of a value with single spaces between its parts. -/
def Json.text : Json → String
  | .null => "null"
  | .bool b => if b then "true" else "false"
  | .int n => toString n.toInt
  | .double text => text
  | .string s => quote s
  | .array items => "[" ++ itemsText items ++ " ]"
  | .object fields => "\x7b" ++ fieldsText fields ++ " \x7d"

def itemsText : List Json → String
  | [] => ""
  | [item] => " " ++ item.text
  | item :: items => " " ++ item.text ++ "," ++ itemsText items

def fieldsText : List (String × Json) → String
  | [] => ""
  | [(name, value)] => " " ++ quote name ++ ": " ++ value.text
  | (name, value) :: fields => " " ++ quote name ++ ": " ++ value.text ++ "," ++ fieldsText fields

end

/-- `json_object_get_string`: a string itself, the text of any other value, NULL for null. -/
def Json.getString? : Json → Option String
  | .null => none
  | .string s => some s
  | value => some value.text

/-- The scan for the current version: the entries after it, or all entries if it is not there;
`none` if it meets a NULL, which `strcmp` cannot compare. -/
def versionsAfter (currentVer : String) :
    List (Option String) → Option (Option (List (Option String)))
  | [] => some none
  | none :: _ => none
  | some ver :: vers =>
      if currentVer = ver then some (some vers) else versionsAfter currentVer vers

/-- The entry after the current version, or the first one when the current version is not
among the entries. `none` is the invalid comparison of `versionsAfter`. -/
def getPkgNextRollbackVersion (jsonArr : List Json) (currentVer : Option String) :
    Option (Rc × Option String) :=
  match currentVer with
  | some currentVer =>
      let vers := jsonArr.map Json.getString?
      match versionsAfter currentVer vers with
      | none => none
      | some rest =>
          match rest.getD vers with
          | [] => some (eUaErr, none)
          | nextVer :: _ => some (eUaOk, nextVer)
  | none => some (eUaErr, none)

end EsyncUa.JsonProperties
