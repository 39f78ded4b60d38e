import LessCss.Grammar.AtRule

/-! Mixins, their calls, guards and extends. -/

namespace LessCss.Grammar

open Lookahead Builder

variable (ts : Tokens)

/-! ## Guards -/

/-- An element of a guard. -/
def conditionPartMatch (i : Nat) : Lookahead (Option (Match ConditionPart)) :=
  firstOf i
    [(.function, functionLength ts), (.brackets, bracketsLength ts),
     (.parentheses, parenthesesLength ts), (.var, lengthOf .var), (.ident, lengthOf .ident),
     (.number, lengthOf .number), (.delimiter, delimiterLength ts),
     (.operator, operatorLength ts), (.combinator, lengthOf .combinator),
     (.spacing, lengthOf .spacing), (.string, stringLength ts)]

/-- An element of the given form. -/
def conditionPartNodes : ConditionPart → Builder (List Node)
  | .function => single (functionNode ts)
  | .brackets => single (bracketsNode ts)
  | .parentheses => single (parenthesesNode ts)
  | .var => single (varNode ts)
  | .ident => single (identNode ts)
  | .number => single (numberNode ts)
  | .delimiter => single (delimiterNode ts)
  | .operator => single (operatorNode ts)
  | .combinator => single (combinatorNode ts)
  | .spacing => spacingNodes ts
  | .string => single (stringNode ts)

/-- The word `when`, on its own, and elements up to a block or the end of the stream. -/
def conditionLength (i : Nat) : Lookahead Nat := do
  if !(ts.is i .identifier && ts.text i == "when") then return 0
  if (← lengthOf .ident i) ≠ 1 then return 0
  let round (j : Nat) : Lookahead Nat := do
    if 0 < (← blockLength ts j) then return 0 else lengthOf .conditionPart j
  let stop ← walkWhile ts.size round (i + 1)
  if ts.size ≤ stop then tokensBetween i stop
  else if 0 < (← blockLength ts stop) then tokensBetween i stop
  else return 0

/-- A guard: the word `when` and its elements. -/
def conditionNode : Builder Node :=
  branch ts .condition do
    let stop := (← cursor) + (← look (lengthOf .condition))
    let first ← identNode ts
    let rest ← collectTo stop do
      match (← ask .conditionPart).shape? with
      | some part => conditionPartNodes ts part
      | none => unexpected
    return first :: rest

/-! ## Mixins -/

/-- A class or an id, spacing, and arguments if there are any. The spacing counts without them. -/
def mixinHeadLength (i : Nat) : Lookahead Nat := do
  match ← classOrIdLength i with
  | 0 => return 0
  | n =>
    let j := i + n
    let j := j + (← lengthOf .spacing j)
    tokensBetween i (j + (← lengthOf .arguments j))

/-- A head with a guard, if there is one, and a block; or the head alone. -/
def mixinMatch (i : Nat) : Lookahead (Option (Match BlockShape)) := do
  match ← mixinHeadLength i with
  | 0 => return none
  | head =>
    let j := i + head
    let j := j + (← lengthOf .spacing j)
    let j := j + (← lengthOf .condition j)
    match ← blockLength ts j with
    | 0 => return Match.of? head .bare
    | n => return Match.of? (← tokensBetween i (j + n)) .withBlock

/-- Spacing, a guard if there is one, and the block of a mixin. -/
def mixinBodyNodes : Builder (List Node) := do
  let spacing ← spacingNodes ts
  let guard ← optionally (starts .condition) (single (conditionNode ts))
  return spacing ++ guard ++ [← blockNode ts]

/-- A mixin: its name, arguments, guard and block. -/
def mixinNode : Builder Node :=
  branch ts .mixin do
    match (← ask .mixin).shape? with
    | none => unexpected
    | some shape =>
      let name ← classOrIdNode ts
      let spacing ← spacingNodes ts
      let arguments ← optionally (starts .arguments) (single (argumentsNode ts))
      let body ← given (shape == .withBlock) (mixinBodyNodes ts)
      return name :: spacing ++ arguments ++ body

/-! ## Calls -/

/-- A class or an id, then any run of classes, ids, spacing and `>`. -/
def callHeadLength (i : Nat) : Lookahead Nat := do
  match ← classOrIdLength i with
  | 0 => return 0
  | _ =>
    let stop ← walkWhile ts.size
      (fun j => classOrIdLength j <|> lengthOf .spacing j <|> tokenLength ts [.greater] j) i
    tokensBetween i stop

/-- A head with arguments and the mark of importance, if it is there; or the head alone. -/
def mixinCallMatch (i : Nat) : Lookahead (Option (Match CallShape)) := do
  match ← callHeadLength ts i with
  | 0 => return none
  | head =>
    let j := i + head
    match ← lengthOf .arguments j with
    | 0 => return Match.of? head .bare
    | n =>
      let j := j + n
      let j := j + (← lengthOf .spacing j)
      let j := j + (← lengthOf .important j)
      return Match.of? (← tokensBetween i j) .withArguments

/-- Arguments, spacing, and `!important` if it is there. -/
def callTailNodes : Builder (List Node) := do
  let arguments ← argumentsNode ts
  let spacing ← spacingNodes ts
  let important ← optionally (starts .important) (single (importantNode ts))
  return arguments :: spacing ++ important

/-- A call of a mixin: its head, arguments and mark of importance. -/
def mixinCallNode : Builder Node :=
  branch ts .mixinCall do
    match (← ask .mixinCall).shape? with
    | none => unexpected
    | some shape =>
      let stop := (← cursor) + (← look (callHeadLength ts))
      let head ← collectTo stop do
        if ← sees classOrIdLength then single (classOrIdNode ts)
        else if ← starts .spacing then spacingNodes ts
        else single (operatorNode ts)
      let tail ← given (shape == .withArguments) (callTailNodes ts)
      return head ++ tail

/-! ## Extends -/

/-- What an extend is attached to. -/
def extendTargetMatch (i : Nat) : Lookahead (Option (Match ExtendTarget)) :=
  firstOf i
    [(.parentSelector, parentLength ts), (.ident, lengthOf .ident),
     (.classSelector, lengthOf .classSelector), (.idSelector, lengthOf .idSelector)]

/-- A target of the given form. -/
def extendTargetNodes : ExtendTarget → Builder (List Node)
  | .parentSelector => parentNodes ts
  | .ident => single (identNode ts)
  | .classSelector => single (classNode ts)
  | .idSelector => single (idNode ts)

/-- A target with the pseudo-class `extend` glued to it, and a block if one follows. -/
def extendMatch (i : Nat) : Lookahead (Option (Match BlockShape)) := do
  match ← find .extendTarget i with
  | none => return none
  | some target =>
    let j := i + target.length
    if ts.text (j + 1) != "extend" then return none
    match ← lengthOf .pseudoClass j with
    | 0 => return none
    | n =>
      let j := j + n
      let k := j + (← lengthOf .spacing j)
      match ← blockLength ts k with
      | 0 => return Match.of? (← tokensBetween i j) .bare
      | m => return Match.of? (← tokensBetween i (k + m)) .withBlock

/-- Spacing and a block. -/
def spacedBlockNodes : Builder (List Node) := do
  return (← spacingNodes ts) ++ [← blockNode ts]

/-- An extend: its target, the pseudo-class and the block. -/
def extendNode : Builder Node :=
  branch ts .extend do
    let extend ← ask .extend
    let target ← ask .extendTarget
    match extend.shape?, target.shape? with
    | some shape, some target =>
      let lead ← extendTargetNodes ts target
      let pseudo ← pseudoClassNode ts
      let body ← given (shape == .withBlock) (spacedBlockNodes ts)
      return lead ++ pseudo :: body
    | _, _ => unexpected

end LessCss.Grammar
