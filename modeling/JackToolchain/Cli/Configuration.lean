import JackToolchain.VM.Translator
import JackToolchain.Yaml.Node

/-!
# Configuration

The working directory may hold a configuration, a YAML mapping.  Its key `translate` has the
settings of the translator, another mapping; a setting that is missing there has its default.  Keys
that mean nothing here are skipped, but a key that does may occur only once and its value has to
fit.
-/

namespace JackToolchain.Cli

/-- What can be configured. -/
structure Configuration where
  /-- The settings of the translator, unless they depend on what is translated. -/
  translate : Option VM.Settings := none
deriving Repr, DecidableEq

namespace Configuration

/-- The name of the file that a configuration is read from. -/
def fileName : String := "hack.yaml"

/-- The truth value that a node stands for. -/
def truth? : Yaml.Node → Option Bool
  | .scalar text false =>
    if text == "true" || text == "True" || text == "TRUE" then some true
    else if text == "false" || text == "False" || text == "FALSE" then some false
    else none
  | _ => none

/-- Whether a node stands for a value that is left out. -/
def isNull : Yaml.Node → Bool
  | .scalar text false => ["", "~", "null", "Null", "NULL"].contains text
  | _ => false

/-- The entries of a mapping by the texts of their keys.  An unquoted scalar without text is a
mapping without entries. -/
def fields? : Yaml.Node → Option (List (String × Yaml.Node))
  | .mapping entries =>
    entries.mapM fun (key, value) =>
      match key with
      | .scalar text _ => some (text, value)
      | _ => none
  | .scalar "" false => some []
  | _ => none

/-- The value of a key that may be missing, as `read?` reads it. -/
def optional? {α : Type} (fields : List (String × Yaml.Node)) (key : String) (missing : α)
    (read? : Yaml.Node → Option α) : Option α :=
  match fields.filter (·.1 == key) with
  | [] => some missing
  | [(_, value)] => read? value
  | _ => none

/-- The settings of the translator that a node stands for. -/
def settings? (node : Yaml.Node) : Option VM.Settings := do
  let default : VM.Settings := {}
  let fields ← fields? node
  let bootstrap ← optional? fields "bootstrap" default.bootstrap truth?
  let comments ← optional? fields "comments" default.comments truth?
  let endLoop ← optional? fields "end_loop" default.endLoop truth?
  return ⟨bootstrap, comments, endLoop⟩

/-- The configuration that a node stands for. -/
def ofNode? (node : Yaml.Node) : Option Configuration := do
  let fields ← fields? node
  let translate ← optional? fields "translate" none fun value =>
    if isNull value then some none else (settings? value).map some
  return ⟨translate⟩

/-- The configuration that a text says. -/
def ofText? (text : String) : Option Configuration := (Yaml.read? text).bind ofNode?

/-- The lines that show settings of the translator. -/
def settingsLines (s : VM.Settings) : List String :=
  ["    translate: Some(", "        TranslatorConf \x7b",
    "            bootstrap: " ++ toString s.bootstrap ++ ",",
    "            comments: " ++ toString s.comments ++ ",",
    "            end_loop: " ++ toString s.endLoop ++ ",",
    "        \x7d,", "    ),"]

/-- A configuration as it is shown. -/
def text (c : Configuration) : String :=
  let translate :=
    match c.translate with
    | none => ["    translate: None,"]
    | some s => settingsLines s
  String.intercalate "\n" (["CliConf \x7b"] ++ translate ++ ["\x7d"])

end Configuration

end JackToolchain.Cli
