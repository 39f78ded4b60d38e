/-! Why a source has no tree. -/

namespace LessCss

/-- The causes of failure. -/
inductive Error where
  /-- A token, on the given line, that the production does not account for. -/
  | unexpectedToken (line : Nat)
  /-- More groups inside each other than the caller allows. -/
  | nestingTooDeep
  /-- A name that no production has. -/
  | unknownSymbol (name : String)
deriving DecidableEq

namespace Error

/-- The failure in words. -/
def message : Error → String
  | unexpectedToken line => "less syntax error at line " ++ toString line
  | nestingTooDeep => "recursion limit exceeded"
  | unknownSymbol name => "unknown start symbol \x60" ++ name ++ "\x60"

/-- The line of a token that is not accounted for. -/
def line? : Error → Option Nat
  | unexpectedToken line => some line
  | _ => none

end Error

end LessCss
