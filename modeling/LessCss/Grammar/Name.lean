import LessCss.Grammar.Spacing

/-! Names: plain ones, which may hold interpolated parts `@{name}`, and those behind a mark, which
are variables, at-keywords, classes and ids. -/

namespace LessCss.Grammar

open Lookahead Builder

variable (ts : Tokens)

/-! ## Plain names -/

/-- The rest of a name from token `j` on: its end, and whether an identifier token stands in it.
Each round takes an interpolated part, if there is one, and one further token. Digits count only
behind an identifier. -/
def identEnd (named : Bool) (j : Nat) : Lookahead (Bool × Nat) :=
  if _h : j < ts.size then
    (lengthOf .interpolation j).bind fun n =>
      match ts.kind? (j + n) with
      | some .minus | some .underscore => identEnd named (j + n + 1)
      | some .identifier => identEnd true (j + n + 1)
      | some .digits => if named then identEnd named (j + n + 1) else done (named, j + n)
      | _ => done (named, j + n)
  else done (named, j)
termination_by ts.size - j

/-- A name. Behind an underscore everything that can stand in a name is taken; a name that starts
with `-` or `$` needs an identifier, and `*` stands alone. -/
def identLength (i : Nat) : Lookahead Nat :=
  match ts.kind? i with
  | some .underscore =>
    tokensBetween i (ts.spanEnd [.minus, .digits, .underscore, .identifier] (i + 1))
  | some k =>
    if k ∈ [.minus, .identifier, .dollar, .asterisk] then do
      let (named, stop) ← identEnd ts (k == .identifier) (i + 1)
      if named || k == .asterisk then tokensBetween i stop else return 0
    else return 0
  | none => return 0

/-- A name as it stands. -/
def identNode : Builder Node := do
  let n ← look (lengthOf .ident)
  check (0 < n)
  leaf ts .ident n

/-- A name in `@{` and `}`. -/
def interpolationLength (i : Nat) : Lookahead Nat := do
  if ts.is i .atSign && ts.is (i + 1) .leftCurly then
    let n ← lengthOf .ident (i + 2)
    return if 0 < n && ts.is (i + 2 + n) .rightCurly then n + 3 else 0
  else return 0

/-- An interpolated name, without the marks around it. -/
def interpolationNode : Builder Node :=
  branch ts .interpolation do
    skip 2
    let name ← identNode ts
    skip 1
    return [name]

/-! ## Variables and at-keywords -/

/-- A variable `@name`, or `@@name` for the variable that another one names. The third `@` in a row
starts none. -/
def varLength (i : Nat) : Lookahead Nat := do
  if !ts.is i .atSign || (2 ≤ i && ts.is (i - 1) .atSign && ts.is (i - 2) .atSign) then return 0
  else return lengthen (← lengthOf .var (i + 1) <|> lengthOf .ident (i + 1)) 1

/-- A variable, without its `@`. -/
def varNode : Builder Node :=
  branch ts .var do
    skip 1
    choose (starts .var) (enter .var) (single (identNode ts))

/-- A variable and exactly three dots. -/
def varListLength (i : Nat) : Lookahead Nat := do
  let n ← lengthOf .var i
  return if 0 < n && ts.spanEnd [.dot] (i + n) == i + n + 3 then n + 3 else 0

/-- A list of variables: the variable, without the dots. -/
def varListNode : Builder Node :=
  branch ts .varList do
    let name ← varNode ts
    skip 3
    return [name]

/-- A name behind `@`. -/
def atKeywordLength (i : Nat) : Lookahead Nat := do
  if ts.is i .atSign then return lengthen (← lengthOf .ident (i + 1)) 1 else return 0

/-- An at-keyword, without its `@`. -/
def atKeywordNode : Builder Node :=
  branch ts .atKeyword do
    skip 1
    single (identNode ts)

/-! ## Names behind a mark -/

/-- An interpolated name or a plain one. -/
def nameMatch (i : Nat) : Lookahead (Option (Match Name)) :=
  firstOf i [(.interpolation, lengthOf .interpolation), (.ident, lengthOf .ident)]

/-- A name of the given form. -/
def nameNode : Name → Builder Node
  | .interpolation => interpolationNode ts
  | .ident => identNode ts

/-- The name that starts at the cursor, interpolated or plain. -/
def anyNameNode : Builder Node :=
  choose (starts .interpolation) (interpolationNode ts) (identNode ts)

/-- A name behind a token of kind `mark`. -/
def markedNameMatch (mark : Token.Kind) (i : Nat) : Lookahead (Option (Match Name)) := do
  if ts.is i mark then return (← nameMatch (i + 1)).map (·.lengthen 1) else return none

/-- A class: a dot and its name. -/
def classNode : Builder Node :=
  branch ts .classSelector do
    let shape := (← ask .classSelector).shape?.getD .ident
    skip 1
    single (nameNode ts shape)

/-- An id: a number sign and its name. -/
def idNode : Builder Node :=
  branch ts .idSelector do
    let shape := (← ask .idSelector).shape?.getD .ident
    skip 1
    single (nameNode ts shape)

/-- A class or an id. -/
def classOrIdLength (i : Nat) : Lookahead Nat :=
  lengthOf .classSelector i <|> lengthOf .idSelector i

/-- A class if one starts here, else an id. -/
def classOrIdNode : Builder Node := choose (starts .classSelector) (classNode ts) (idNode ts)

end LessCss.Grammar
