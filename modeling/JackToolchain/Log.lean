/-!
# Log records

The parts of the toolchain report what they are doing.  A report is a `Record`: how important it is,
which part it comes from, and a text.  Reports are values like any other result; whether they are
shown is up to the command line.
-/

namespace JackToolchain.Log

/-- The importance of a record. -/
inductive Level where
  | error | warn | info | debug
deriving Repr, DecidableEq

namespace Level

/-- The name of a level, as wide as the widest of them. -/
def label : Level → String
  | error => "ERROR"
  | warn => "WARN "
  | info => "INFO "
  | debug => "DEBUG"

/-- How much one has to ask for until records of a level are shown. -/
def rank : Level → Nat
  | error => 1
  | warn => 2
  | info => 3
  | debug => 4

/-- The level up to which records are shown, by its name.  The name `off` stands for showing
none. -/
def limitOfName? : String → Option (Option Level)
  | "off" => some none
  | "error" => some (some error)
  | "warn" => some (some warn)
  | "info" => some (some info)
  | "debug" => some (some debug)
  | _ => none

end Level

/-- A report. -/
structure Record where
  level : Level
  /-- The part of the toolchain that it comes from. -/
  target : String
  text : String
deriving Repr, DecidableEq

/-- How a record is shown. -/
def Record.render (r : Record) : String := r.level.label ++ " [" ++ r.target ++ "] " ++ r.text

/-- A report for those who look for errors in the toolchain. -/
def debug (target text : String) : Record := ⟨.debug, target, text⟩

end JackToolchain.Log
