import JackToolchain.Word

/-!
# The Hack platform

The layout of memory that programs for the Hack computer rely on, and the symbols by which assembly
programs know it.
-/

namespace JackToolchain.Hack

/-- The largest constant that an instruction can load.  The top bit of a word marks the other
instructions. -/
def maxConstant : Nat := 32767

/-- The first of the eight cells of the segment `temp`. -/
def tempBase : Nat := 5

/-- How many cells the segment `temp` has. -/
def tempSize : Nat := 8

/-- How many cells the segment `pointer` has. -/
def pointerSize : Nat := 2

/-- Where the stack begins. -/
def stackStart : Nat := 256

/-- The first address that an assembly variable is given. -/
def variableStart : Word := 16

/-- Where the screen is mapped to. -/
def screen : Word := 0x4000

/-- Where the keyboard is mapped to. -/
def keyboard : Word := 0x6000

/-- The symbols that every assembly program knows. -/
def predefinedSymbols : List (String × Word) :=
  [("SP", 0), ("LCL", 1), ("ARG", 2), ("THIS", 3), ("THAT", 4),
    ("R0", 0), ("R1", 1), ("R2", 2), ("R3", 3), ("R4", 4), ("R5", 5), ("R6", 6), ("R7", 7),
    ("R8", 8), ("R9", 9), ("R10", 10), ("R11", 11), ("R12", 12), ("R13", 13), ("R14", 14),
    ("R15", 15), ("SCREEN", screen), ("KBD", keyboard)]

/-- The names of the predefined symbols. -/
def predefinedNames : List String := predefinedSymbols.map (·.1)

end JackToolchain.Hack
