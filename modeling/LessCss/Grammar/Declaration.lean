import LessCss.Grammar.Value

/-! Declarations `property: value`, and argument lists, whose elements may be declarations. -/

namespace LessCss.Grammar

open Lookahead Builder

variable (ts : Tokens)

/-! ## Declarations -/

/-- A variable or a name. -/
def propertyLength (i : Nat) : Lookahead Nat := lengthOf .var i <|> lengthOf .ident i

/-- A property: its variable or its name. -/
def propertyNode : Builder Node :=
  branch ts .property (single (choose (starts .var) (varNode ts) (identNode ts)))

/-- A property, a colon and a value, with optional spacing around the colon. -/
def declarationLength (i : Nat) : Lookahead Nat := do
  match ← propertyLength i with
  | 0 => return 0
  | property =>
    let j := i + property
    let j := j + (← lengthOf .spacing j)
    if ts.is j .colon then
      let j := j + 1
      let j := j + (← lengthOf .spacing j)
      through i j (← lengthOf .value j)
    else return 0

/-- A declaration: property, colon and value, with the spacing between them. -/
def declarationNode : Builder Node :=
  branch ts .declaration do
    return [← propertyNode ts] ++ (← spacingNodes ts) ++ [← propertyDelimiterNode ts] ++
      (← spacingNodes ts) ++ [← valueNode ts]

/-! ## Argument lists -/

/-- An element of an argument list. -/
def argumentMatch (i : Nat) : Lookahead (Option (Match Argument)) :=
  firstOf i
    [(.escapedString, escapedStringLength ts), (.declaration, lengthOf .declaration),
     (.varList, varListLength ts), (.var, lengthOf .var), (.spacing, lengthOf .spacing),
     (.unary, unaryLength ts), (.operator, operatorLength ts), (.delimiter, delimiterLength ts),
     (.declarationDelimiter, declarationDelimiterLength ts), (.string, stringLength ts),
     (.percentage, percentageLength ts), (.dimension, dimensionLength ts),
     (.number, lengthOf .number), (.uri, uriLength ts), (.function, functionLength ts),
     (.ident, lengthOf .ident), (.color, colorLength ts), (.block, blockLength ts),
     (.parentheses, parenthesesLength ts)]

/-- An element of the given form. -/
def argumentNodes : Argument → Builder (List Node)
  | .escapedString => single (escapedStringNode ts)
  | .declaration => single (declarationNode ts)
  | .varList => single (varListNode ts)
  | .var => single (varNode ts)
  | .spacing => spacingNodes ts
  | .unary => single (unaryNode ts)
  | .operator => single (operatorNode ts)
  | .delimiter => single (delimiterNode ts)
  | .declarationDelimiter => single (declarationDelimiterNode ts)
  | .string => single (stringNode ts)
  | .percentage => single (percentageNode ts)
  | .dimension => single (dimensionNode ts)
  | .number => single (numberNode ts)
  | .uri => single (uriNode ts)
  | .function => single (functionNode ts)
  | .ident => single (identNode ts)
  | .color => single (colorNode ts)
  | .block => single (blockNode ts)
  | .parentheses => single (parenthesesNode ts)

/-- An argument list of a mixin: arguments up to the closer. -/
def argumentsLength (i : Nat) : Lookahead Nat := do
  match ts.closer? i .leftParen with
  | some close =>
    let stop ← walkWhile close (lengthOf .argument) (i + 1)
    if stop = close then tokensBetween i (close + 1) else return 0
  | none => return 0

/-- The inside of an argument list that closes at token `close`. Declarations come first, and a
class is taken as a last resort. -/
def argumentsInterior (close : Nat) : Builder (List Node) :=
  collectTo close do
    if ← starts .declaration then single (declarationNode ts)
    else
      match (← ask .argument).shape? with
      | some part => argumentNodes ts part
      | none => choose (starts .classSelector) (single (classNode ts)) unexpected

end LessCss.Grammar
