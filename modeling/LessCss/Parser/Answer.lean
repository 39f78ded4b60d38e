import LessCss.Grammar
import LessCss.Parser.Memo

/-! Answering the questions of programs that look ahead. Answers are remembered for the whole parse,
and a cap on nesting can be set: a question further inside than the cap allows is answered with "no
match" and leaves a mark in the state, and a parse that carries the mark fails whatever else it
found.

Rules are answered by recursion on the tokens that are left, and at one token on the rank of the
rule. A question that does not come before the one being answered is not asked again; the grammar
has none. -/

namespace LessCss

/-! ## The order of questions -/

namespace Rule

/-- Rule `r'` at token `j` comes before rule `r` at token `i`: it is further on in the stream, or at
the same token and of lower rank. -/
def Before (r' : Rule) (j : Nat) (r : Rule) (i : Nat) : Prop :=
  i < j ∨ i = j ∧ r'.rank < r.rank

instance (r' : Rule) (j : Nat) (r : Rule) (i : Nat) : Decidable (Before r' j r i) :=
  inferInstanceAs (Decidable (_ ∨ _))

/-- The weight of a question in a stream of `n` tokens: by the tokens left, then by rank. -/
def weight (n : Nat) (r : Rule) (i : Nat) : Nat := (n - i) * ranks + r.rank

theorem weight_lt {n : Nat} {r' r : Rule} {j i : Nat} (hi : i < n) (h : Before r' j r i) :
    weight n r' j < weight n r i := by
  have hr := rank_lt r'
  simp only [weight, ranks, Before] at *
  omega

end Rule

namespace Parser

/-- What a parse carries along: the memory, whether the cap has refused a question, and whether a
condition that a builder relies on has failed. -/
structure State where
  memo : Memo
  refused : Bool
  broken : Bool

/-- The state at the start of a parse of `n` tokens. -/
def State.start (n : Nat) : State := ⟨.empty n, false, false⟩

/-- Whether the cap allows a level further inside than `depth` levels. -/
def allows (limit : Option Nat) (depth : Nat) : Bool := limit.all (depth < ·)

/-- Notes that the cap has refused a question, and answers it with "no match". -/
def refuse {r : Rule} : StateM State (Answer r) := do
  modify fun s => { s with refused := true }
  return none

/-- Notes an answer in memory. -/
def remember (r : Rule) (i : Nat) (a : Answer r) : StateM State Unit :=
  modify fun s => { s with memo := s.memo.insert r i a }

/-- What rule `r` says about token `i`, asked `depth` levels inside: from memory, or else what can
be remembered of what its body says, so that asking again gives the same. Past the end of the
stream no rule matches. -/
def answer (ts : Tokens) (limit : Option Nat) (r : Rule) (i depth : Nat) :
    StateM State (Answer r) := do
  if _hi : i < ts.size then
    match (← get).memo.get? r i with
    | some a => return a
    | none =>
      let found ← (r.body ts i).run
        { query := fun r' j =>
            if _h : Rule.Before r' j r i then answer ts limit r' j depth else return none
          inside := fun r' j =>
            if allows limit depth then
              if _h : Rule.Before r' j r i then answer ts limit r' j (depth + 1) else return none
            else refuse }
      let a := found.stored ts.size i
      remember r i a
      return a
  else return none
termination_by Rule.weight ts.size r i
decreasing_by all_goals exact Rule.weight_lt _hi _h

/-- How questions from outside all brackets are answered. -/
def oracle (ts : Tokens) (limit : Option Nat) : Lookahead.Oracle (StateM State) where
  query r i := answer ts limit r i 0
  inside r i := if allows limit 0 then answer ts limit r i 1 else refuse

end Parser

end LessCss
