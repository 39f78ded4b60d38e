import LessCss.Grammar.Literal

/-! What stands between an opener and its closer. Looking ahead only follows the link from one to
the other; the inside is read when the node is built, and then the closer has to be reached. -/

namespace LessCss.Grammar

open Lookahead Builder

variable (ts : Tokens)

/-- From token `i` through the closer of the opener `k` at token `j`. -/
def throughCloser (k : Token.Kind) (i j : Nat) : Lookahead Nat :=
  match ts.closer? j k with
  | some close => tokensBetween i (close + 1)
  | none => return 0

/-- A parenthesis and all up to its closer. -/
def parenthesesLength (i : Nat) : Lookahead Nat := throughCloser ts .leftParen i i

/-- A square bracket and all up to its closer. -/
def bracketsLength (i : Nat) : Lookahead Nat := throughCloser ts .leftSquare i i

/-- A brace and all up to its closer. -/
def blockLength (i : Nat) : Lookahead Nat := throughCloser ts .leftCurly i i

/-- Passes the opener at the cursor, which closes at the token that `closer?` gives, builds the
inside, and passes the closer. -/
def enclosed (closer? : Nat → Option Nat) (inner : Nat → Builder (List Node)) :
    Builder (List Node) := do
  match closer? (← cursor) with
  | some close =>
    skip 1
    let nodes ← inner close
    skip 1
    return nodes
  | none => unexpected

/-- An inside that has to end at the closer. -/
def filling (part : Nat → Interior) (close : Nat) : Builder (List Node) := do
  let nodes ← enter (part close)
  expectAt close
  return nodes

/-- A parenthesis or bracket group. -/
def groupNode (k : Node.Kind) : Builder Node :=
  branch ts k (enclosed (fun i => ts[i]?.bind Token.closer) (filling fun _ => .group))

/-- A group in parentheses. -/
def parenthesesNode : Builder Node := groupNode ts .parentheses

/-- A group in square brackets. -/
def bracketsNode : Builder Node := groupNode ts .brackets

/-- An argument list. -/
def argumentsNode : Builder Node :=
  branch ts .arguments (enclosed (ts.closer? · .leftParen) (filling .arguments))

/-- A block of statements. -/
def blockNode : Builder Node :=
  branch ts .block (enclosed (ts.closer? · .leftCurly) (filling .block))

/-- A block of rules. Looking ahead has already read it through to its closer. -/
def ruleBlockNode : Builder Node :=
  branch ts .block (enclosed (ts.closer? · .leftCurly) fun close => enter (.rules close))

/-- A block of keyframes. Looking ahead has already read it through to its closer. -/
def keyframeBlockNode : Builder Node :=
  branch ts .block (enclosed (ts.closer? · .leftCurly) fun close => enter (.keyframes close))

end LessCss.Grammar
