import LessCss.Grammar.Group

/-! Constructs whose inside is kept as it stands: unquoted addresses, script expressions and filter
calls. -/

namespace LessCss.Grammar

open Lookahead Builder

variable (ts : Tokens)

/-- The last token of what is measured from token `i`. -/
def lastToken (q : Nat → Lookahead Nat) (i : Nat) : Lookahead Nat := do
  tokensBetween 1 (i + (← q i))

/-! ## Addresses -/

/-- The identifier `url` with parentheses right behind it. -/
def uriLength (i : Nat) : Lookahead Nat :=
  if ts.is i .identifier && ts.text i == "url" then throughCloser ts .leftParen i (i + 1)
  else return 0

/-- The end of an unquoted address: white space, a parenthesis, or token `stop`. -/
def rawEnd (stop j : Nat) : Nat :=
  if j < stop then
    if ts.isAny j [.space, .tab, .newline, .leftParen, .rightParen] then j else rawEnd stop (j + 1)
  else j
termination_by stop - j

/-- An unquoted address up to token `close`. -/
def rawNode (close : Nat) : Builder Node := do
  let i ← cursor
  let j := rawEnd ts close i
  moveTo j
  make (.leaf .raw (ts.join i j) (ts.position i))

/-- An address: one string or one unquoted stretch, with spacing around it. -/
def uriNode : Builder Node :=
  branch ts .uri do
    let close ← look (lastToken (uriLength ts))
    skip 2
    let before ← spacingNodes ts
    let body ← choose (sees (stringLength ts)) (stringNode ts) (rawNode ts close)
    let after ← spacingNodes ts
    expectAt close
    skip 1
    return before ++ [body] ++ after

/-! ## Script expressions and filters -/

/-- The word `expression` with parentheses right behind it. -/
def expressionLength (i : Nat) : Lookahead Nat :=
  if ts.text i == "expression" then throughCloser ts .leftParen i (i + 1) else return 0

/-- The body of a script expression. -/
def expressionNode : Builder Node := do
  let i ← cursor
  let close ← look (lastToken (expressionLength ts))
  moveTo (close + 1)
  make (.leaf .expression (ts.join (i + 2) close) (ts.position i))

/-- The six tokens with which a filter call starts. -/
def progidMark : String := "progid:DXImageTransform.Microsoft."

/-- A filter call: its mark, a name, spacing, parentheses. -/
def progidLength (i : Nat) : Lookahead Nat := do
  if ts.size < i + 6 || ts.join i (i + 6) != progidMark then return 0
  else
    let j := i + 6 + (← lengthOf .ident (i + 6))
    let j := j + (← lengthOf .spacing j)
    throughCloser ts .leftParen i j

/-- A filter call as it stands. -/
def progidNode : Builder Node := leafOf ts .progid (lengthOf .progid)

end LessCss.Grammar
