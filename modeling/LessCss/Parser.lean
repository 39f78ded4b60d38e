import LessCss.Parser.Construct
import LessCss.Token.Marks

/-! Parsing a token stream as a start symbol, in two phases: the symbol is measured and has to
cover the whole stream, then its node is built. A question that the cap on nesting refused in
either phase outweighs what the phase found. A node that was built has to reach the end of the
stream. -/

namespace LessCss

namespace Parser

/-- Fails if the cap has refused a question. -/
def checkRefused : Action Unit := do
  if (← get).refused then throw .nestingTooDeep

/-- Measures, then builds. -/
def parse (ts : Tokens) (limit : Option Nat) (start : Symbol) : Action Node := do
  let n ← ExceptT.lift ((start.length ts 0).run (oracle ts limit))
  checkRefused
  if n < ts.size then throw (ts.unexpected n)
  else
    let result ← ExceptT.lift (build ts limit start).run
    checkRefused
    let (node, stop) ← ExceptT.mk (return result)
    ExceptT.lift (check (stop = ts.size))
    return node

end Parser

/-- Parses a token stream as a start symbol, with at most `limit` groups inside each other. -/
def parse (ts : Tokens) (limit : Option Nat) (start : Symbol) : Except Error Node :=
  if ts.isEmpty then parseEmpty start
  else ((Parser.parse ts limit start).run.run (.start ts.size)).1

/-- Parses a source as a start symbol, without a cap. -/
def parseText (source : String) (start : Symbol) : Except Error Node :=
  parse (Token.lex source) none start

end LessCss
