import LessCss.Parser.Construct

/-! The grammar read as plain functions of the stream: nothing is remembered, nothing is capped, and
what a rule says about a token depends on nothing else. -/

namespace LessCss

/-- What rule `r` says about token `i`. -/
def Rule.meaning (ts : Tokens) (r : Rule) (i : Nat) : Answer r :=
  if _hi : i < ts.size then
    Id.run <| (r.body ts i).run
      { query := fun r' j => if _h : Before r' j r i then meaning ts r' j else none
        inside := fun r' j => if _h : Before r' j r i then meaning ts r' j else none }
  else none
termination_by r.weight ts.size i
decreasing_by all_goals exact Rule.weight_lt _hi _h

/-- The result of a program that looks ahead. -/
def Lookahead.eval {α : Type} (ts : Tokens) (q : Lookahead α) : α :=
  q.result (fun r i => r.meaning ts i) fun r i => r.meaning ts i

/-- How the requests of a builder are met, where `build` builds insides. -/
def Plan.plainHost (ts : Tokens) (build : Interior → Nat → Except Error (List Node × Nat)) :
    Plan.Host (Except Error) where
  look q := .ok (q.eval ts)
  ask r i := .ok (r.meaning ts i)
  build := build
  check _ := .ok ()
  made _ := .ok ()
  fail _ i := .error (ts.unexpected i)

/-- What the inside of a construct from token `i` on consists of, and the token behind it. -/
def Interior.meaning (ts : Tokens) (part : Interior) (i : Nat) : Except Error (List Node × Nat) :=
  (part.content ts i).run <| Plan.plainHost ts fun part' j =>
    if _h : i < j ∧ j ≤ ts.size then meaning ts part' j else .error (ts.unexpected j)
termination_by ts.size - i

/-- The result of a builder's program. -/
def Plan.eval {α : Type} (ts : Tokens) (p : Plan α) : Except Error α :=
  p.run (plainHost ts fun part i => part.meaning ts i)

/-- Parses a token stream as a start symbol by the plain functions. -/
def parsePlain (ts : Tokens) (start : Symbol) : Except Error Node :=
  if ts.isEmpty then parseEmpty start
  else
    let n := (start.length ts 0).eval ts
    if n < ts.size then .error (ts.unexpected n)
    else ((start.build ts 0).eval ts).map Prod.fst

end LessCss
