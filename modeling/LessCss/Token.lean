import LessCss.Position
import LessCss.Token.Kind

/-! Tokens, and streams of them read by index. A token knows its text, where it starts, and two
links: an opening bracket the index of its closer, white space the index of the last token of its
run. Reading a stream never fails; past the end there is no token. -/

namespace LessCss

/-- A piece of the source with its links. -/
structure Token where
  kind : Token.Kind
  text : String
  start : Position
  closer : Option Nat
  runEnd : Option Nat
deriving DecidableEq

/-- Where the token stops. -/
def Token.stop (t : Token) : Position := t.start.advance t.text

/-- A stream of tokens. -/
abbrev Tokens := Array Token

namespace Tokens

/-- The kind of token `i`. -/
def kind? (ts : Tokens) (i : Nat) : Option Token.Kind := ts[i]?.map Token.kind

/-- Whether token `i` is of kind `k`. -/
def is (ts : Tokens) (i : Nat) (k : Token.Kind) : Bool := ts.kind? i == some k

/-- Whether token `i` is of one of the kinds `ks`. -/
def isAny (ts : Tokens) (i : Nat) (ks : List Token.Kind) : Bool := (ts.kind? i).any ks.contains

/-- The text of token `i`, empty past the end. -/
def text (ts : Tokens) (i : Nat) : String := (ts[i]?.map Token.text).getD ""

/-- The index linked to token `i`, if it is an opener of kind `k`. -/
def closer? (ts : Tokens) (i : Nat) (k : Token.Kind) : Option Nat :=
  ts[i]?.bind fun t => if t.kind = k then t.closer else none

/-- Where the stream ends: behind the last token. -/
def stop (ts : Tokens) : Position := (ts.back?.map Token.stop).getD .origin

/-- Where token `i` starts; past the end, where the stream ends. -/
def position (ts : Tokens) (i : Nat) : Position := (ts[i]?.map Token.start).getD ts.stop

/-- The line that an error at token `i` names: the token's own, past the end the last token's, and
1 in an empty stream. -/
def lineAt (ts : Tokens) (i : Nat) : Nat := ((ts[i]?.or ts.back?).map (·.start.line)).getD 1

/-- The text of the tokens from `lo` up to `hi`, both cut off at the end of the stream. -/
def join (ts : Tokens) (lo hi : Nat) : String :=
  String.join ((ts.extract lo hi).toList.map Token.text)

/-- The end of the run of tokens of the kinds `ks` that starts at `j`. -/
def spanEnd (ts : Tokens) (ks : List Token.Kind) (j : Nat) : Nat :=
  if j < ts.size then if ts.isAny j ks then ts.spanEnd ks (j + 1) else j else j
termination_by ts.size - j

theorem le_spanEnd (ts : Tokens) (ks : List Token.Kind) (j : Nat) : j ≤ ts.spanEnd ks j := by
  fun_induction spanEnd <;> omega

end Tokens

end LessCss
