import LessCss.Grammar.Selector

/-! Rulesets and at-rules. The body of an at-rule is a list of keyframes, a list of rules or a
block of statements, and the first of these that fits is taken. -/

namespace LessCss.Grammar

open Lookahead Builder

variable (ts : Tokens)

/-! ## Rulesets -/

/-- Selectors and a block. -/
def rulesetLength (i : Nat) : Lookahead Nat := do
  match ← lengthOf .selectorGroup i with
  | 0 => return 0
  | n =>
    let j := i + n
    let j := j + (← lengthOf .spacing j)
    through i j (← blockLength ts j)

/-- A ruleset: its selectors, spacing and its block. -/
def rulesetNode : Builder Node :=
  branch ts .ruleset do
    return (← selectorGroupNodes ts) ++ (← spacingNodes ts) ++ [← blockNode ts]

/-! ## Keyframes -/

/-- The word `from`, the word `to`, or a percentage. -/
def keyframeSelectorMatch (i : Nat) : Lookahead (Option (Match KeyframeShape)) := do
  match ← lengthOf .ident i with
  | 0 => return Match.of? (← percentageLength ts i) .percentage
  | n =>
    let name := ts.join i (i + n)
    return if name == "from" || name == "to" then Match.of? n .keyword else none

/-- The selector of a keyframe. -/
def keyframeSelectorNode : Builder Node :=
  branch ts .selector do
    single <| branch ts .keyframeSelector do
      match (← ask .keyframeSelector).shape? with
      | some .percentage => single (percentageNode ts)
      | _ => single (identNode ts)

/-- Keyframe selectors and a block. -/
def keyframeLength (i : Nat) : Lookahead Nat := do
  match ← commaListLength ts .keyframeSelector i with
  | 0 => return 0
  | n =>
    let j := i + n
    let j := j + (← lengthOf .spacing j)
    through i j (← blockLength ts j)

/-- A keyframe: its selectors, spacing and its block. -/
def keyframeNode : Builder Node :=
  branch ts .ruleset do
    let stop := (← cursor) + (← look (commaListLength ts .keyframeSelector))
    return (← commaListNodes ts stop (keyframeSelectorNode ts)) ++ (← spacingNodes ts) ++
      [← blockNode ts]

/-- A block of at least one keyframe, with spacing anywhere between. -/
def keyframesLength (i : Nat) : Lookahead Nat := do
  match ts.closer? i .leftCurly with
  | none => return 0
  | some close =>
    let j := i + 1 + (← lengthOf .spacing (i + 1))
    match ← keyframeLength ts j with
    | 0 => return 0
    | n =>
      let stop ← walkWhile close (fun j => lengthOf .spacing j <|> keyframeLength ts j) (j + n)
      if stop = close then tokensBetween i (close + 1) else return 0

/-- The inside of a block of keyframes that closes at token `close`. -/
def keyframesInterior (close : Nat) : Builder (List Node) :=
  collectTo close do
    choose (starts .spacing) (spacingNodes ts) (single (keyframeNode ts))

/-- An at-rule with `keyframes` in its keyword, a name and a block of keyframes. -/
def keyframesRuleLength (i : Nat) : Lookahead Nat := do
  let keyword ← atKeywordLength ts i
  if keyword = 0 || !Text.contains "keyframes" (ts.join i (i + keyword)) then return 0
  let j := i + keyword
  let spacing ← lengthOf .spacing j
  if spacing = 0 then return 0
  let j := j + spacing
  let name ← lengthOf .ident j
  if name = 0 then return 0
  let j := j + name
  let j := j + (← lengthOf .spacing j)
  through i j (← keyframesLength ts j)

/-! ## Rules inside an at-rule -/

/-- A statement in a body of rules. -/
def nestedRuleMatch (i : Nat) : Lookahead (Option (Match NestedRule)) :=
  firstOf i
    [(.spacing, lengthOf .spacing), (.atRule, lengthOf .atRule), (.ruleset, lengthOf .ruleset)]

/-- An opener and the longest run of rules behind it. -/
def ruleBodyLength (i : Nat) : Lookahead Nat := do
  tokensBetween i (← walkWhile ts.size (lengthOf .nestedRule) (i + 1))

/-! ## At-rules -/

/-- The token behind the keyword and the head of an at-rule. -/
def atRuleHead (i : Nat) : Lookahead (Option Nat) := do
  match ← atKeywordLength ts i with
  | 0 => return none
  | n => return some (← preludeEnd ts (i + n))

/-- A head and a body of rules. The body is read one level further inside and has to reach the
closer. -/
def rulesRuleLength (i : Nat) : Lookahead Nat := do
  match ← atRuleHead ts i with
  | none => return 0
  | some j =>
    match ts.closer? j .leftCurly with
    | none => return 0
    | some close =>
      let body ← lengthInside .ruleBody j
      if j + body = close then tokensBetween i (close + 1) else return 0

/-- A head and a block of statements. -/
def blockRuleLength (i : Nat) : Lookahead Nat := do
  match ← atRuleHead ts i with
  | none => return 0
  | some j => through i j (← blockLength ts j)

/-- A head alone. -/
def bareRuleLength (i : Nat) : Lookahead Nat := do
  match ← atRuleHead ts i with
  | none => return 0
  | some j => tokensBetween i j

/-- An at-rule with the first body that fits. -/
def atRuleMatch (i : Nat) : Lookahead (Option (Match AtRuleShape)) :=
  firstOf i
    [(.keyframes, keyframesRuleLength ts), (.rules, rulesRuleLength ts),
     (.block, blockRuleLength ts), (.bare, bareRuleLength ts)]

/-- An at-rule: its keyword, its head and its body. -/
def atRuleNode : Builder Node :=
  branch ts .atRule do
    match (← ask .atRule).shape? with
    | none => unexpected
    | some .keyframes =>
      return [← atKeywordNode ts] ++ (← spacingNodes ts) ++ [← identNode ts] ++
        (← spacingNodes ts) ++ [← keyframeBlockNode ts]
    | some .rules => return [← atKeywordNode ts] ++ (← preludeNodes ts) ++ [← ruleBlockNode ts]
    | some .block => return [← atKeywordNode ts] ++ (← preludeNodes ts) ++ [← blockNode ts]
    | some .bare => return [← atKeywordNode ts] ++ (← preludeNodes ts)

/-- The inside of a body of rules that closes at token `close`. -/
def rulesInterior (close : Nat) : Builder (List Node) :=
  collectTo close do
    match (← ask .nestedRule).shape? with
    | none => unexpected
    | some .spacing => spacingNodes ts
    | some .atRule => single (atRuleNode ts)
    | some .ruleset => single (rulesetNode ts)

end LessCss.Grammar
