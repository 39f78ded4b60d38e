import LessCss.Grammar.Verbatim

/-! Values and the fragments they are made of. -/

namespace LessCss.Grammar

open Lookahead Builder

variable (ts : Tokens)

/-! ## Functions -/

/-- A name with parentheses right behind it. The arguments are read only when the node is built. -/
def functionLength (i : Nat) : Lookahead Nat := do
  match ← lengthOf .ident i with
  | 0 => return 0
  | n => throughCloser ts .leftParen i (i + n)

/-- A function: its name and its arguments. -/
def functionNode : Builder Node :=
  branch ts .function do return [← identNode ts, ← argumentsNode ts]

/-! ## Fragments -/

/-- A fragment of a value or of a group. -/
def fragmentMatch (i : Nat) : Lookahead (Option (Match Fragment)) :=
  firstOf i
    [(.brackets, bracketsLength ts), (.parentheses, parenthesesLength ts),
     (.string, stringLength ts), (.varList, varListLength ts), (.var, lengthOf .var),
     (.percentage, percentageLength ts), (.dimension, dimensionLength ts),
     (.number, lengthOf .number), (.uri, uriLength ts), (.expression, expressionLength ts),
     (.function, functionLength ts), (.ident, lengthOf .ident),
     (.classSelector, lengthOf .classSelector), (.unary, unaryLength ts)]

/-- The fragment at the cursor. -/
def fragmentNode : Builder Node := do
  match (← ask .fragment).shape? with
  | none => unexpected
  | some .brackets => bracketsNode ts
  | some .parentheses => parenthesesNode ts
  | some .string => stringNode ts
  | some .varList => varListNode ts
  | some .var => varNode ts
  | some .percentage => percentageNode ts
  | some .dimension => dimensionNode ts
  | some .number => numberNode ts
  | some .uri => uriNode ts
  | some .expression => expressionNode ts
  | some .function => functionNode ts
  | some .ident => identNode ts
  | some .classSelector => classNode ts
  | some .unary => unaryNode ts

/-! ## Groups and heads of at-rules -/

/-- An element of a group or of the head of an at-rule. -/
def preludePartMatch (i : Nat) : Lookahead (Option (Match PreludePart)) :=
  firstOf i
    [(.color, colorLength ts), (.fragment, lengthOf .fragment), (.spacing, lengthOf .spacing),
     (.operator, operatorLength ts)]

/-- An element of the given form. -/
def preludePartNodes : PreludePart → Builder (List Node)
  | .color => single (colorNode ts)
  | .fragment => single (fragmentNode ts)
  | .spacing => spacingNodes ts
  | .operator => single (operatorNode ts)

/-- The token behind the longest run of elements from token `i` on. -/
def preludeEnd (i : Nat) : Lookahead Nat := walkWhile ts.size (lengthOf .preludePart) i

/-- The longest run of elements. -/
def preludeNodes : Builder (List Node) :=
  collect ts.size do
    match (← ask .preludePart).shape? with
    | some part => return ⟨← preludePartNodes ts part, true⟩
    | none => return ⟨[], false⟩

/-! ## Values -/

/-- An element of a value. -/
def valuePartMatch (i : Nat) : Lookahead (Option (Match ValuePart)) :=
  firstOf i
    [(.escapedString, escapedStringLength ts), (.interpolation, lengthOf .interpolation),
     (.var, lengthOf .var), (.color, colorLength ts), (.block, blockLength ts),
     (.progid, lengthOf .progid), (.fragment, lengthOf .fragment),
     (.atKeyword, atKeywordLength ts), (.operator, operatorLength ts),
     (.important, lengthOf .important)]

/-- An element of the given form. -/
def valuePartNode : ValuePart → Builder Node
  | .escapedString => escapedStringNode ts
  | .interpolation => interpolationNode ts
  | .var => varNode ts
  | .color => colorNode ts
  | .block => blockNode ts
  | .progid => progidNode ts
  | .fragment => fragmentNode ts
  | .atKeyword => atKeywordNode ts
  | .operator => operatorNode ts
  | .important => importantNode ts

/-- Elements with optional spacing before each. A block ends the value. -/
def valueLength (i : Nat) : Lookahead Nat := do
  let round (j : Nat) : Lookahead Step := do
    let spacing ← lengthOf .spacing j
    match ← find .valuePart (j + spacing) with
    | some m => return ⟨spacing + m.length, m.shape != .block⟩
    | none => return .last 0
  tokensBetween i (← walk ts.size round i)

/-- A value: its elements and the spacing before each. -/
def valueNode : Builder Node :=
  branch ts .value do
    collect ts.size do
      match (← askAhead .valuePart (← look (lengthOf .spacing))).shape? with
      | some part =>
        let before ← spacingNodes ts
        return ⟨before ++ [← valuePartNode ts part], part != .block⟩
      | none => return ⟨[], false⟩

end LessCss.Grammar
