import LessCss.Grammar.Name

/-! Single tokens and short fixed sequences: numbers and what is made of them, strings, colors,
operators and delimiters. -/

namespace LessCss.Grammar

open Lookahead Builder

variable (ts : Tokens)

/-! ## Numbers -/

/-- Digits with a dot before, behind or between them, or without one: `7`, `7.`, `.7`, `7.7`. -/
def numberLength (i : Nat) : Lookahead Nat :=
  return if ts.is i .digits then
    if !ts.is (i + 1) .dot then 1 else if !ts.is (i + 2) .digits then 2 else 3
  else if ts.is i .dot && ts.is (i + 1) .digits then 2
  else 0

/-- A number as it stands. -/
def numberNode : Builder Node := leafOf ts .number (lengthOf .number)

/-- The unit of a dimension or the name of a color: an identifier, or digits with or without one
behind them. -/
def unitLength (i : Nat) : Nat :=
  match ts.kind? i with
  | some .identifier => 1
  | some .digits => if ts.is (i + 1) .identifier then 2 else 1
  | _ => 0

/-- A number and its unit. -/
def dimensionLength (i : Nat) : Lookahead Nat := do
  let n ← lengthOf .number i
  return if n = 0 then 0 else lengthen (unitLength ts (i + n)) n

/-- A dimension: its number and its unit. -/
def dimensionNode : Builder Node :=
  branch ts .dimension do
    let number ← numberNode ts
    let unit ← leaf ts .ident (unitLength ts (← cursor))
    return [number, unit]

/-- A number and `%`. -/
def percentageLength (i : Nat) : Lookahead Nat := do
  let n ← lengthOf .number i
  return if 0 < n && ts.is (i + n) .percent then n + 1 else 0

/-- A percentage, without the `%`. -/
def percentageNode : Builder Node :=
  branch ts .percentage do
    let number ← numberNode ts
    skip 1
    return [number]

/-! ## Strings -/

/-- A quoted string. -/
def stringLength : Nat → Lookahead Nat := tokenLength ts [.doubleQuoted, .singleQuoted]

/-- A string with its quotes. -/
def stringNode : Builder Node := leaf ts .string 1

/-- A string behind `~`. -/
def escapedStringLength (i : Nat) : Lookahead Nat :=
  return if ts.is i .tilde && ts.isAny (i + 1) [.doubleQuoted, .singleQuoted] then 2 else 0

/-- An escaped string without the `~`. -/
def escapedStringNode : Builder Node := do
  let i ← cursor
  skip 2
  make (.leaf .escapedString (ts.text (i + 1)) (ts.position i))

/-! ## Operators and delimiters -/

/-- A sign. -/
def unaryLength : Nat → Lookahead Nat := tokenLength ts [.minus, .plus]

def unaryNode : Builder Node := leaf ts .unary 1

/-- A mark between the parts of a value. -/
def operatorLength : Nat → Lookahead Nat :=
  tokenLength ts [.slash, .comma, .colon, .equals, .less, .greater, .asterisk]

def operatorNode : Builder Node := leaf ts .operator 1

/-- The comma of a list. -/
def delimiterLength : Nat → Lookahead Nat := tokenLength ts [.comma]

def delimiterNode : Builder Node := leaf ts .delimiter 1

/-- The semicolon behind a statement. -/
def declarationDelimiterLength : Nat → Lookahead Nat := tokenLength ts [.semicolon]

def declarationDelimiterNode : Builder Node := leaf ts .declarationDelimiter 1

/-- The colon of a declaration. -/
def propertyDelimiterLength : Nat → Lookahead Nat := tokenLength ts [.colon]

def propertyDelimiterNode : Builder Node := leaf ts .propertyDelimiter 1

/-- The bar of a namespace, on its own. -/
def namespaceBarLength : Nat → Lookahead Nat := tokenLength ts [.bar]

def namespaceBarNode : Builder Node := leaf ts .namespaceBar 1

/-- The parent selector `&`. -/
def parentSelectorLength : Nat → Lookahead Nat := tokenLength ts [.ampersand]

def parentSelectorNode : Builder Node := leaf ts .parentSelector 1

/-! ## Marks in values -/

/-- The word `important` behind `!`, with any spacing between them. -/
def importantLength (i : Nat) : Lookahead Nat := do
  if ts.is i .exclamation then
    let n ← lengthOf .spacing (i + 1)
    return if ts.text (i + 1 + n) == "important" then n + 2 else 0
  else return 0

/-- The word with its mark and the spacing between them. -/
def importantNode : Builder Node := leafOf ts .important (lengthOf .important)

/-- A color: its name behind `#`. -/
def colorLength (i : Nat) : Lookahead Nat :=
  return if ts.is i .hash then lengthen (unitLength ts (i + 1)) 1 else 0

/-- A color without the `#`. -/
def colorNode : Builder Node := do
  let i ← cursor
  let n := unitLength ts (i + 1)
  skip (n + 1)
  make (.leaf .color (ts.join (i + 1) (i + 1 + n)) (ts.position i))

end LessCss.Grammar
