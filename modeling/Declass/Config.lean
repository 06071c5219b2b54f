import Declass.Json.Reader
import Declass.Log.Settings
import Declass.Lowering.Basic

/-!
# Configuration

A configuration names the file at hand, the options of the lowering, additional global names and the
settings of the log. It is read from JSON, where every field may be missing.

## Main definitions

* `Config`, `Config.ofText`, `Config.ofFile`
* `Config.Error`, `Config.FileError` — why there is no configuration, and the texts that say so
* `Options.ofText`, `Log.Settings.ofText` — parts of a configuration on their own
-/

namespace Declass

/-! ### Parts of a configuration -/

/-- A truth value: `true`, `false`, or a string that names one. -/
def Json.boolOrWord : Json.Reader Bool := do
  if (← peek?) = some '"' then
    let text ← string
    match Text.normalize text with
    | "true" | "1" | "yes" | "on" => return true
    | "false" | "0" | "no" | "off" => return false
    | _ => throw (.badBoolean text)
  else
    bool

/-- A format of the log: its name, or an object that has the name as its only key, with `null`. -/
def Json.format : Json.Reader Log.Format := do
  let ofName (name : String) : Json.Reader Log.Format :=
    match Log.Format.ofName? name with
    | some format => pure format
    | none => throw .malformed
  if (← peek?) = some '\x7b' then
    advance
    let format ← ofName (← string)
    token ':'
    word "null"
    token '\x7d'
    return format
  else
    ofName (← string)

/-- The fields of the settings of the log. -/
def Log.Settings.fields : List (Json.Field Log.Settings) :=
  [{ name := "filter"
     read := fun settings => return { settings with filter := ← Json.optional Json.string } },
   { name := "format"
     read := fun settings => return { settings with format := ← Json.format } }]

/-- Read settings of the log. -/
def Log.Settings.ofText (text : String) : Except Json.Fault Log.Settings :=
  Json.read (Json.record fields {}) text

/-- The fields of the options of the lowering. -/
def Options.fields : List (Json.Field Options) :=
  [{ name := "blockBinding"
     read := fun options => return { options with blockBinding := ← Json.bool } },
   { name := "runtimeName"
     read := fun options => return { options with runtimeName := ← Json.string } }]

/-- Read options of the lowering. -/
def Options.ofText (text : String) : Except Json.Fault Options :=
  Json.read (Json.record fields {}) text

/-! ### Configurations -/

/-- What a caller may choose about a compilation. -/
structure Config where
  /-- The file that diagnostics name. -/
  fileName : String := "input.js"
  options : Options := {}
  /-- Names that programs may use without declaring them, beside the default ones. -/
  globals : List String := []
  log : Log.Settings := {}
  deriving DecidableEq, Repr

namespace Config

/-- A configuration as it is written, with fields that may be missing. -/
structure Draft where
  fileName : Option String := none
  blockBinding : Option Bool := none
  runtimeName : Option String := none
  globals : Option (List String) := none
  log : Option Log.Settings := none
  deriving DecidableEq, Repr

/-- The fields of a configuration. -/
def Draft.fields : List (Json.Field Draft) :=
  [{ name := "fileName"
     read := fun draft => return { draft with fileName := ← Json.optional Json.string } },
   { name := "blockBinding"
     read := fun draft => return { draft with blockBinding := ← Json.optional Json.boolOrWord } },
   { name := "runtimeName"
     read := fun draft => return { draft with runtimeName := ← Json.optional Json.string } },
   { name := "globals"
     read := fun draft => return { draft with
       globals := ← Json.optional (Json.list Json.string) } },
   { name := "log"
     read := fun draft => return { draft with
       log := ← Json.optional (Json.record Log.Settings.fields {}) } }]

/-- Why there is no configuration. -/
inductive Error where
  /-- The text cannot be read. -/
  | unreadable (fault : Json.Fault)
  /-- The namespace of the helpers is not an identifier. -/
  | badRuntimeName (name : String)
  /-- A global name is not an identifier. -/
  | badGlobal (name : String)
  deriving DecidableEq, Repr

/-- The text of an error. -/
def Error.message : Error → String
  | .unreadable .malformed => "failed to parse lowerjs config"
  | .unreadable (.badBoolean text) =>
    "failed to parse lowerjs config: invalid boolean value: '" ++ text
      ++ "'. Expected true, false, 'true', or 'false'"
  | .badRuntimeName name => "runtimeName '" ++ name ++ "' is not a valid identifier"
  | .badGlobal name => "global '" ++ name ++ "' is not a valid identifier"

/-- Whether a character may stand at the start of an identifier. -/
def isIdentifierStart (c : Char) : Bool :=
  c.isAlpha || c == '_' || c == '$'

/-- Whether a name is an identifier: letters, digits, underscores and dollar signs, all ASCII, with
no digit in front. -/
def isIdentifier (name : String) : Bool :=
  match name.toList with
  | c :: cs => isIdentifierStart c && cs.all fun c => isIdentifierStart c || c.isDigit
  | [] => false

/-- Fill in what is missing and check the names. -/
def Draft.resolve (draft : Draft) : Except Error Config := do
  let runtimeName := draft.runtimeName.getD ({} : Options).runtimeName
  unless isIdentifier runtimeName do
    throw (.badRuntimeName runtimeName)
  let globals := draft.globals.getD []
  if let some name := globals.find? (!isIdentifier ·) then
    throw (.badGlobal name)
  return {
    fileName := draft.fileName.getD ({} : Config).fileName
    options := { blockBinding := draft.blockBinding.getD false, runtimeName }
    globals
    log := draft.log.getD {} }

/-- Read a configuration. -/
def ofText (text : String) : Except Error Config :=
  match Json.read (Json.record Draft.fields {}) text with
  | .ok draft => draft.resolve
  | .error fault => .error (.unreadable fault)

/-- Why a file gives no configuration. -/
inductive FileError where
  | notFound (file : String)
  /-- The content is not UTF-8. -/
  | notText (file : String)
  | invalid (file : String) (error : Error)
  deriving DecidableEq, Repr

/-- The text of an error. -/
def FileError.message : FileError → String
  | .notFound file | .notText file => "failed to read config file " ++ file
  | .invalid file error => "invalid config file " ++ file ++ ": " ++ error.message

/-- The configuration in a file with the given content, if the file exists. -/
def ofFile (file : String) (content : Option ByteArray) : Except FileError Config :=
  match content with
  | none => .error (.notFound file)
  | some bytes =>
    match String.fromUTF8? bytes with
    | none => .error (.notText file)
    | some text =>
      match ofText text with
      | .ok config => .ok config
      | .error error => .error (.invalid file error)

end Config

end Declass
