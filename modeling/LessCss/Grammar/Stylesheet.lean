import LessCss.Grammar.Mixin

/-! Statements: those in a block, and those at the top of a stylesheet. -/

namespace LessCss.Grammar

open Lookahead Builder

variable (ts : Tokens)

/-! ## Blocks -/

/-- A statement in a block. -/
def blockItemMatch (i : Nat) : Lookahead (Option (Match BlockItem)) :=
  firstOf i
    [(.condition, lengthOf .condition), (.extend, lengthOf .extend), (.ruleset, lengthOf .ruleset),
     (.declaration, lengthOf .declaration), (.atRule, lengthOf .atRule),
     (.mixinCall, lengthOf .mixinCall)]

/-- The statement at the cursor. -/
def blockItemNode : Builder Node := do
  match (← ask .blockItem).shape? with
  | none => unexpected
  | some .condition => conditionNode ts
  | some .extend => extendNode ts
  | some .ruleset => rulesetNode ts
  | some .declaration => declarationNode ts
  | some .atRule => atRuleNode ts
  | some .mixinCall => mixinCallNode ts

/-- The spacing behind a semicolon at token `i`. -/
def spacingAfterSemicolon (i : Nat) : Lookahead Nat :=
  if ts.is i .semicolon then lengthOf .spacing (i + 1) else return 0

/-- A stretch of a block: spacing, then a statement or a semicolon, then spacing. A semicolon
behind a statement belongs to the stretch only if spacing follows it. -/
def blockChunkMatch (i : Nat) : Lookahead (Option (Match ChunkShape)) := do
  let leading ← lengthOf .spacing i
  let j := i + leading
  match ← find .blockItem j with
  | some item =>
    let k := j + item.length
    match ← spacingAfterSemicolon ts k with
    | 0 =>
      let k := k + (← lengthOf .spacing k)
      return Match.of? (← tokensBetween i k) .item
    | trailing => return Match.of? (← tokensBetween i (k + 1 + trailing)) .delimitedItem
  | none =>
    if ts.is j .semicolon then
      let k := j + 1 + (← lengthOf .spacing (j + 1))
      return Match.of? (← tokensBetween i k) .delimiter
    else return Match.of? leading .spacing

/-- A stretch of the given form. -/
def blockChunkNodes (shape : ChunkShape) : Builder (List Node) := do
  let leading ← spacingNodes ts
  match shape with
  | .delimitedItem =>
    return leading ++ [← blockItemNode ts] ++ [← declarationDelimiterNode ts] ++
      (← spacingNodes ts)
  | .item => return leading ++ [← blockItemNode ts] ++ (← spacingNodes ts)
  | .delimiter => return leading ++ [← declarationDelimiterNode ts] ++ (← spacingNodes ts)
  | .spacing => return leading

/-- The inside of a block that closes at token `close`. -/
def blockInterior (close : Nat) : Builder (List Node) :=
  collectTo close do
    match (← ask .blockChunk).shape? with
    | some shape => blockChunkNodes ts shape
    | none => unexpected

/-! ## Stylesheets -/

/-- A declaration of a variable with the colon right behind its name. It comes before at-rules,
which would take it otherwise. -/
def varDeclarationLength (i : Nat) : Lookahead Nat := do
  let n ← lengthOf .var i
  if 0 < n && ts.is (i + n) .colon then lengthOf .declaration i else return 0

/-- A statement at the top of a stylesheet. -/
def sheetItemMatch (i : Nat) : Lookahead (Option (Match SheetItem)) :=
  firstOf i
    [(.spacing, lengthOf .spacing), (.varDeclaration, varDeclarationLength ts),
     (.atRule, lengthOf .atRule), (.extend, lengthOf .extend), (.ruleset, lengthOf .ruleset),
     (.mixin, lengthOf .mixin), (.declaration, lengthOf .declaration),
     (.declarationDelimiter, declarationDelimiterLength ts)]

/-- A statement of the given form. -/
def sheetItemNodes : SheetItem → Builder (List Node)
  | .spacing => spacingNodes ts
  | .varDeclaration => single (declarationNode ts)
  | .atRule => single (atRuleNode ts)
  | .extend => single (extendNode ts)
  | .ruleset => single (rulesetNode ts)
  | .mixin => single (mixinNode ts)
  | .declaration => single (declarationNode ts)
  | .declarationDelimiter => single (declarationDelimiterNode ts)

/-- The longest run of statements. -/
def stylesheetLength (i : Nat) : Lookahead Nat := do
  tokensBetween i (← walkWhile ts.size (lengthOf .sheetItem) i)

/-- A stylesheet: statements up to the end of the stream. -/
def stylesheetNode : Builder Node :=
  branch ts .stylesheet do
    collectTo ts.size do
      match (← ask .sheetItem).shape? with
      | some item => sheetItemNodes ts item
      | none => unexpected

end LessCss.Grammar
