import LessCss.Lookahead
import LessCss.Node
import LessCss.Token

/-! Programs that build tree nodes. A builder has a cursor in the token stream, reads the tokens
there, looks ahead, and moves the cursor behind what it has built. What stands inside brackets is
built by a separate program, named by an `Interior`: that keeps builders free of recursion, and it
is where a cap on nesting is checked.

A builder relies on having looked ahead: it is started only where the lookahead found its
construct, and it moves as far as that one said. `check` states such a condition in the program;
it has no effect on what is built, and a run notes if one fails. Nor has `made`, which says when a
node is made and its places are reckoned. -/

namespace LessCss

/-- The inside of a construct that can hold constructs of its own sort. -/
inductive Interior where
  /-- The elements of a parenthesis or bracket group. -/
  | group
  /-- The elements of an argument list that closes at token `close`. -/
  | arguments (close : Nat)
  /-- The statements of a block that closes at token `close`. -/
  | block (close : Nat)
  /-- The rules in the body of an at-rule that closes at token `close`. -/
  | rules (close : Nat)
  /-- The keyframes of an at-rule whose body closes at token `close`. -/
  | keyframes (close : Nat)
  /-- The selectors in the parentheses of a pseudo-class. -/
  | selectors
  /-- The variable whose value names a variable. -/
  | var
deriving DecidableEq

/-- Whether the inside counts as one level of nesting. -/
def Interior.nests : Interior → Bool
  | .selectors | .var => false
  | _ => true

/-- A program that builds: it ends with a result or with a token it cannot account for, looks
ahead, has an inside built from token `i` on, which gives nodes and the token behind them, states a
condition that has to hold at this point, or makes a node. -/
inductive Plan (α : Type) where
  | done (result : α)
  | fail (i : Nat)
  | look (q : Lookahead Nat) (next : Nat → Plan α)
  | ask (r : Rule) (i : Nat) (next : Answer r → Plan α)
  | build (part : Interior) (i : Nat) (next : List Node × Nat → Plan α)
  | check (holds : Bool) (next : Plan α)
  | made (node : Node) (next : Plan α)

namespace Plan

/-- Goes on with `f` when the program is done. -/
def bind {α β : Type} : Plan α → (α → Plan β) → Plan β
  | done a, f => f a
  | fail i, _ => fail i
  | look q next, f => look q fun n => (next n).bind f
  | ask r i next, f => ask r i fun a => (next a).bind f
  | build part i next, f => build part i fun x => (next x).bind f
  | check holds next, f => check holds (next.bind f)
  | made node next, f => made node (next.bind f)

instance : Monad Plan where
  pure := done
  bind := bind

theorem bind_done {α : Type} (x : Plan α) : x.bind done = x := by
  induction x with
  | done a => rfl
  | fail i => rfl
  | look q next ih => simp [bind, ih]
  | ask r i next ih => simp [bind, ih]
  | build part i next ih => simp [bind, ih]
  | check holds next ih => simp [bind, ih]
  | made node next ih => simp [bind, ih]

theorem bind_assoc {α β γ : Type} (x : Plan α) (f : α → Plan β) (g : β → Plan γ) :
    (x.bind f).bind g = x.bind fun a => (f a).bind g := by
  induction x with
  | done a => rfl
  | fail i => rfl
  | look q next ih => simp [bind, ih]
  | ask r i next ih => simp [bind, ih]
  | build part i next ih => simp [bind, ih]
  | check holds next ih => simp [bind, ih]
  | made node next ih => simp [bind, ih]

instance : LawfulMonad Plan :=
  LawfulMonad.mk' Plan bind_done (fun _ _ => rfl) bind_assoc

/-- How the requests of a builder are met in a monad. -/
structure Host (m : Type → Type) where
  look : Lookahead Nat → m Nat
  ask : (r : Rule) → Nat → m (Answer r)
  build : Interior → Nat → m (List Node × Nat)
  check : Bool → m Unit
  made : Node → m Unit
  fail : (α : Type) → Nat → m α

/-- Runs a builder's program, its requests met by a host. -/
@[specialize] def run {m : Type → Type} [Monad m] {α : Type} (o : Host m) : Plan α → m α
  | done a => pure a
  | fail i => o.fail α i
  | look q next => do run o (next (← o.look q))
  | ask r i next => do run o (next (← o.ask r i))
  | build part i next => do run o (next (← o.build part i))
  | check holds next => do
    o.check holds
    run o next
  | made node next => do
    o.made node
    run o next

theorem run_bind {m : Type → Type} [Monad m] [LawfulMonad m] {α β : Type} (o : Host m)
    (hf : ∀ (α β : Type) (i : Nat) (f : α → m β), o.fail α i >>= f = o.fail β i)
    (x : Plan α) (f : α → Plan β) : (x >>= f).run o = x.run o >>= fun a => (f a).run o := by
  change (x.bind f).run o = _
  induction x with
  | done a => simp [bind, run]
  | fail i => simp [bind, run, hf]
  | look q next ih => simp [bind, run, ih]
  | ask r i next ih => simp [bind, run, ih]
  | build part i next ih => simp [bind, run, ih]
  | check holds next ih => simp [bind, run, ih]
  | made node next ih => simp [bind, run, ih]

end Plan

/-- A builder: from a cursor to a result and a cursor. -/
abbrev Builder (α : Type) : Type := StateT Nat Plan α

namespace Builder

/-- The index of the next token. -/
def cursor : Builder Nat := get

/-- Passes over `n` tokens. -/
def skip (n : Nat) : Builder Unit := modify (· + n)

/-- Moves to token `j`. -/
def moveTo (j : Nat) : Builder Unit := set j

/-- The next token cannot be accounted for. -/
def unexpected {α : Type} : Builder α := fun i => .fail i

/-- Measures something at the cursor. -/
def look (q : Nat → Lookahead Nat) : Builder Nat := fun i => .look (q i) fun n => .done (n, i)

/-- Whether something covers a token at the cursor. -/
def sees (q : Nat → Lookahead Nat) : Builder Bool := return 0 < (← look q)

/-- What a rule says about the token `n` tokens behind the cursor. -/
def askAhead (r : Rule) (n : Nat) : Builder (Answer r) := fun i =>
  .ask r (i + n) fun a => .done (a, i)

/-- What a rule says about the token at the cursor. -/
def ask (r : Rule) : Builder (Answer r) := askAhead r 0

/-- Whether a rule covers a token at the cursor. -/
def starts (r : Rule) : Builder Bool := return 0 < (← ask r).length

/-- Builds an inside that starts at the cursor, and moves behind it. -/
def enter (part : Interior) : Builder (List Node) := fun i => .build part i .done

/-- A condition that has to hold here. -/
def check (holds : Bool) : Builder Unit := fun i => .check holds (.done ((), i))

/-- Fails unless the cursor is at token `j`. -/
def expectAt (j : Nat) : Builder Unit := do
  if (← cursor) ≠ j then unexpected

/-! ## Choice -/

/-- One of two builders, as a condition at the cursor says. -/
def choose {α : Type} (c : Builder Bool) (x y : Builder α) : Builder α := do
  if ← c then x else y

/-- Nodes that are there only under a condition. -/
def given (c : Bool) (x : Builder (List Node)) : Builder (List Node) := if c then x else return []

/-- Nodes that are there only under a condition at the cursor. -/
def optionally (c : Builder Bool) (x : Builder (List Node)) : Builder (List Node) :=
  choose c x (return [])

/-! ## Nodes -/

/-- Makes a node. -/
def make (node : Node) : Builder Node := fun i => .made node (.done (node, i))

/-- A leaf of the next `n` tokens. -/
def leaf (ts : Tokens) (k : Node.Kind) (n : Nat) : Builder Node := do
  let i ← cursor
  skip n
  make (.leaf k (ts.join i (i + n)) (ts.position i))

/-- A leaf of as many tokens as a measure covers. -/
def leafOf (ts : Tokens) (k : Node.Kind) (q : Nat → Lookahead Nat) : Builder Node := do
  leaf ts k (← look q)

/-- A branch that starts at the cursor and holds what `content` builds. -/
def branch (ts : Tokens) (k : Node.Kind) (content : Builder (List Node)) : Builder Node := do
  let i ← cursor
  make (.branch k (← content) (ts.position i))

/-- One node as a list. -/
def single (x : Builder Node) : Builder (List Node) := return [← x]

/-! ## Repetition -/

/-- One round of a repetition: the nodes it gives, and whether another round may follow. -/
structure Chunk where
  nodes : List Node
  more : Bool

/-- Repeats a round from cursor `i` while it wants to go on and has not reached `stop`. A round that
wants to go on has to move the cursor. The nodes so far are kept last one first. -/
def collectFrom (stop : Nat) (round : Builder Chunk) (sofar : List Node) (i : Nat) :
    Plan (List Node × Nat) :=
  if _h : i < stop then
    (round i).bind fun (c, j) =>
      if _hj : i < j ∧ c.more = true then collectFrom stop round (c.nodes.reverse ++ sofar) j
      else .check (!c.more) (.done ((c.nodes.reverse ++ sofar).reverse, j))
  else .done (sofar.reverse, i)
termination_by stop - i

/-- Repeats a round while it wants to go on and has not reached `stop`. -/
def collect (stop : Nat) (round : Builder Chunk) : Builder (List Node) := collectFrom stop round []

/-- Repeats a builder until the cursor reaches `stop`. -/
def collectTo (stop : Nat) (round : Builder (List Node)) : Builder (List Node) :=
  collect stop do return ⟨← round, true⟩

end Builder

end LessCss
