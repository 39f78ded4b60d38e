import LessCss.Parser.Answer

/-! Building nodes. A builder's requests to look ahead are answered from outside all brackets; its
requests for the inside of a construct are met by recursion on the tokens that are left, since
each inside starts behind the opener of the construct. Insides that count as a level of nesting
are where the cap is checked. -/

namespace LessCss

/-- The failure at a token that is not accounted for. -/
def Tokens.unexpected (ts : Tokens) (i : Nat) : Error := .unexpectedToken (ts.lineAt i)

/-- The parse of a stream without tokens: only a stylesheet can be made of it. -/
def parseEmpty (start : Symbol) : Except Error Node :=
  if start = .stylesheet then .ok (.branch .stylesheet [] .origin)
  else .error (Tokens.unexpected #[] 0)

namespace Parser

/-- An action of a parse: it can fail, and it carries the state also when it does. -/
abbrev Action : Type → Type := ExceptT Error (StateM State)

/-- Notes a condition that has to hold and does not. -/
def check (holds : Bool) : StateM State Unit :=
  modify fun s => { s with broken := s.broken || !holds }

/-- How the requests of a builder are met, where `build` builds insides. -/
def host (ts : Tokens) (limit : Option Nat) (build : Interior → Nat → Action (List Node × Nat)) :
    Plan.Host Action where
  look q := ExceptT.lift (q.run (oracle ts limit))
  ask r i := ExceptT.lift ((oracle ts limit).query r i)
  build := build
  check holds := ExceptT.lift (check holds)
  made _ := pure ()
  fail _ i := throw (ts.unexpected i)

/-- Builds the inside of a construct from token `i` on, `depth` levels inside. -/
def construct (ts : Tokens) (limit : Option Nat) (part : Interior) (i depth : Nat) :
    Action (List Node × Nat) :=
  if part.nests && !allows limit depth then throw .nestingTooDeep
  else
    let depth := if part.nests then depth + 1 else depth
    (part.content ts i).run <| host ts limit fun part' j =>
      if _h : i < j ∧ j ≤ ts.size then construct ts limit part' j depth
      else throw (ts.unexpected j)
termination_by ts.size - i

/-- Builds the node of a start symbol at the beginning of the stream, and gives the token behind
it. -/
def build (ts : Tokens) (limit : Option Nat) (start : Symbol) : Action (Node × Nat) :=
  (start.build ts 0).run (host ts limit fun part j => construct ts limit part j 0)

end Parser

end LessCss
