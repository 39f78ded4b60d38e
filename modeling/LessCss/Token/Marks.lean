import LessCss.Token.Lexer

/-! The links of a token stream. Each type of bracket is matched on its own, so links of two types
may cross. Both passes go from the last token to the first: an opener takes the nearest closer of
its type that nothing between has taken, and white space takes over the run end of the white space
behind it. Passes from the first token on, with stacks of openers, find the same links. -/

namespace LessCss.Token

/-- Takes the first closer of type `b` from those still free, in the order of the stream. -/
def takeCloser (b : Bracket) : List (Bracket × Nat) → Option Nat × List (Bracket × Nat)
  | [] => (none, [])
  | (b', j) :: free =>
    if b' = b then (some j, free)
    else
      let (found, rest) := takeCloser b free
      (found, (b', j) :: rest)

/-- Links token `i`, given the closers free behind it and the linked tokens behind it. -/
def linkBracket (ti : Token × Nat) (behind : List (Bracket × Nat) × List Token) :
    List (Bracket × Nat) × List Token :=
  let (t, i) := ti
  let (free, done) := behind
  match t.kind.opens?, t.kind.closes? with
  | some b, _ =>
    let (found, rest) := takeCloser b free
    (rest, { t with closer := found } :: done)
  | none, some b => ((b, i) :: free, t :: done)
  | none, none => (free, t :: done)

/-- Links every opener that has a closer to it. -/
def markBrackets (ts : List Token) : List Token := (ts.zipIdx.foldr linkBracket ([], [])).2

/-- Links token `i` to the end of its run, given the end of the run that starts behind it. -/
def linkRun (ti : Token × Nat) (behind : Option Nat × List Token) : Option Nat × List Token :=
  let (t, i) := ti
  let (run, done) := behind
  if t.kind.isWhitespace then
    let stop := run.getD i
    (some stop, { t with runEnd := some stop } :: done)
  else (none, t :: done)

/-- Links white space to the last token of its run. -/
def markRuns (ts : List Token) : List Token := (ts.zipIdx.foldr linkRun (none, [])).2

/-- The token without its links. -/
def unlinked (t : Token) : Token := { t with closer := none, runEnd := none }

/-- The stream of some tokens, their links found anew. -/
def link (ts : List Token) : Tokens := (markRuns (markBrackets (ts.map unlinked))).toArray

/-- The stream of linked tokens of a source. -/
def lex (source : String) : Tokens := link (place .origin (Lexeme.ofSource source))

end LessCss.Token

namespace LessCss.Tokens

/-- Token `i` is white space. -/
def Blank (ts : Tokens) (i : Nat) : Prop := ∃ t, ts[i]? = some t ∧ t.kind.isWhitespace = true

/-- The links of a stream can be followed: each closer lies behind its token and inside the
stream, and each white space token names the last token of its run. -/
structure WellMarked (ts : Tokens) : Prop where
  closer_mem : ∀ i t c, ts[i]? = some t → t.closer = some c → i < c ∧ c < ts.size
  runEnd_eq : ∀ i t, ts[i]? = some t → t.kind.isWhitespace = true →
    ∃ e, t.runEnd = some e ∧ i ≤ e ∧ e < ts.size ∧ (∀ j, i ≤ j → j ≤ e → ts.Blank j) ∧
      ¬ ts.Blank (e + 1)

end LessCss.Tokens
