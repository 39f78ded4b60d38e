import LessCss.Builder

/-! Spacing: runs of white space and comments. A run of white space is one node however many
tokens it spans; the links of the tokens say where it ends. -/

namespace LessCss.Grammar

open Lookahead Builder

variable (ts : Tokens)

/-- One token of one of the kinds `ks`. -/
def tokenLength (ks : List Token.Kind) (i : Nat) : Lookahead Nat := return (ts.isAny i ks).toNat

/-- White space up to the end of its run. -/
def spaceLength (i : Nat) : Lookahead Nat :=
  match ts[i]? with
  | some t =>
    if t.kind.isWhitespace then
      match t.runEnd with
      | some e => tokensBetween i (e + 1)
      | none => return 1
    else return 0
  | none => return 0

/-- Any run of white space and comments. -/
def spacingLength (i : Nat) : Lookahead Nat := do
  let stop ← walkWhile ts.size
    (fun j => spaceLength ts j <|> tokenLength ts [.blockComment, .lineComment] j) i
  tokensBetween i stop

/-- White space as it stands. -/
def spaceNode : Builder Node := leafOf ts .space (spaceLength ts)

/-- A block comment without its marks. -/
def blockCommentNode : Builder Node := do
  let i ← cursor
  skip 1
  let body := Text.dropBack "*/" (Text.dropFront "/*" (ts.text i))
  make (.leaf .blockComment body (ts.position i))

/-- A line comment without its mark. -/
def lineCommentNode : Builder Node := do
  let i ← cursor
  skip 1
  make (.leaf .lineComment (Text.dropFront "//" (ts.text i)) (ts.position i))

/-- One node for each run of white space and each comment. -/
def spacingNodes : Builder (List Node) :=
  collect ts.size do
    match ts.kind? (← cursor) with
    | some .space | some .tab | some .newline => return ⟨[← spaceNode ts], true⟩
    | some .blockComment => return ⟨[← blockCommentNode ts], true⟩
    | some .lineComment => return ⟨[← lineCommentNode ts], true⟩
    | _ => return ⟨[], false⟩

end LessCss.Grammar
