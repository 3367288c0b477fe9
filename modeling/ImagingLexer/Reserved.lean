import ImagingLexer.Kind

/-! # Reserved words

Names that are not identifiers. Matching is exact and case-sensitive.
-/

namespace ImagingLexer.Reserved

/-- The named colors, in the order of the palette. -/
def colorConstants : List String :=
  ["BLACK", "BLUE", "CYAN", "DARK_GRAY", "GRAY", "GREEN", "LIGHT_GRAY", "MAGENTA", "ORANGE",
    "PINK", "RED", "WHITE", "YELLOW"]

def typeNames : List String := ["int", "float", "string", "boolean", "color", "image"]

def lookup (text : String) : Option Kind :=
  match text with
  | "if" => some (.keyword .kwIf)
  | "fi" => some (.keyword .kwFi)
  | "else" => some (.keyword .kwElse)
  | "write" => some (.keyword .kwWrite)
  | "console" => some (.keyword .kwConsole)
  | "void" => some (.keyword .kwVoid)
  | "int" | "float" | "string" | "boolean" | "color" | "image" => some .typeName
  | "true" | "false" => some .booleanLit
  | "BLACK" | "BLUE" | "CYAN" | "DARK_GRAY" | "GRAY" | "GREEN" | "LIGHT_GRAY" | "MAGENTA"
  | "ORANGE" | "PINK" | "RED" | "WHITE" | "YELLOW" => some .colorConst
  | "getRed" | "getGreen" | "getBlue" => some .colorOp
  | "getWidth" | "getHeight" => some .imageOp
  | _ => none

def isReserved (text : String) : Bool :=
  (lookup text).isSome

end ImagingLexer.Reserved
