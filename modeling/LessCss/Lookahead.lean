import LessCss.Rule

/-! Programs that look ahead in a token stream. Such a program ends with a result or asks what a
rule says about a token; it reads the tokens themselves directly. Keeping the questions as data
lets one grammar be read in two ways: with a memory for the answers and a cap on nesting, and as
plain functions of the stream.

A question may stand one bracket further inside (`inside`); those are the ones that a cap on
nesting can refuse. Lengths are differences of indices, taken with `distance`, so that taking one
the wrong way round would show. -/

namespace LessCss

/-- A program that looks ahead. -/
inductive Lookahead (α : Type) where
  /-- The program is done. -/
  | done (result : α)
  /-- What does rule `r` say about token `i`? -/
  | query (r : Rule) (i : Nat) (next : Answer r → Lookahead α)
  /-- What does rule `r` say about token `i`, one level further inside? -/
  | inside (r : Rule) (i : Nat) (next : Answer r → Lookahead α)
  /-- How far is it from token `lo` to token `hi`? -/
  | distance (lo hi : Nat) (next : Nat → Lookahead α)

namespace Lookahead

/-- Goes on with `f` when the program is done. -/
def bind {α β : Type} : Lookahead α → (α → Lookahead β) → Lookahead β
  | done a, f => f a
  | query r i next, f => query r i fun a => (next a).bind f
  | inside r i next, f => inside r i fun a => (next a).bind f
  | distance lo hi next, f => distance lo hi fun n => (next n).bind f

instance : Monad Lookahead where
  pure := done
  bind := bind

theorem bind_done {α : Type} (x : Lookahead α) : x.bind done = x := by
  induction x with
  | done a => rfl
  | query r i next ih => simp [bind, ih]
  | inside r i next ih => simp [bind, ih]
  | distance lo hi next ih => simp [bind, ih]

theorem bind_assoc {α β γ : Type} (x : Lookahead α) (f : α → Lookahead β) (g : β → Lookahead γ) :
    (x.bind f).bind g = x.bind fun a => (f a).bind g := by
  induction x with
  | done a => rfl
  | query r i next ih => simp [bind, ih]
  | inside r i next ih => simp [bind, ih]
  | distance lo hi next ih => simp [bind, ih]

instance : LawfulMonad Lookahead :=
  LawfulMonad.mk' Lookahead bind_done (fun _ _ => rfl) bind_assoc

/-! ## Questions -/

/-- What the rule says about token `i`. -/
def find (r : Rule) (i : Nat) : Lookahead (Answer r) := query r i done

/-- How many tokens the rule covers from token `i`. -/
def lengthOf (r : Rule) (i : Nat) : Lookahead Nat := query r i fun a => done a.length

/-- How many tokens the rule covers from token `i`, one level further inside. -/
def lengthInside (r : Rule) (i : Nat) : Lookahead Nat := inside r i fun a => done a.length

/-- The number of tokens from `lo` up to `hi`. -/
def tokensBetween (lo hi : Nat) : Lookahead Nat := distance lo hi done

/-- The number of tokens from `lo` up to `mid + n`, where `n` tokens were covered from `mid`; if
none were, nothing is covered from `lo` either. -/
def through (lo mid n : Nat) : Lookahead Nat :=
  if n = 0 then done 0 else tokensBetween lo (mid + n)

/-! ## Choice and repetition -/

/-- A measure as the answer of a rule with one form. -/
def sole (q : Lookahead Nat) : Lookahead (Option (Match Unit)) := return Match.of? (← q) ()

/-- The first alternative that covers a token wins. -/
def firstOf {σ : Type} (i : Nat) : List (σ × (Nat → Lookahead Nat)) → Lookahead (Option (Match σ))
  | [] => done none
  | (shape, scan) :: rest => do
    match Match.of? (← scan i) shape with
    | some m => return some m
    | none => firstOf i rest

/-- Takes the second measure if the first covers nothing. -/
def orElse (first : Lookahead Nat) (second : Unit → Lookahead Nat) : Lookahead Nat := do
  match ← first with
  | 0 => second ()
  | n => return n

instance : OrElse (Lookahead Nat) := ⟨orElse⟩

/-- One round of a repetition: how many tokens it covers, and whether another round may follow. -/
structure Step where
  length : Nat
  more : Bool

/-- A round that covers nothing ends the repetition; any other lets it go on. -/
def Step.go (n : Nat) : Step := ⟨n, true⟩

/-- A last round. -/
def Step.last (n : Nat) : Step := ⟨n, false⟩

/-- Repeats a step from token `j` while it covers something, wants to go on and has not reached
`stop`; gives the index behind the last round. -/
def walk (stop : Nat) (step : Nat → Lookahead Step) (j : Nat) : Lookahead Nat :=
  if _h : j < stop then
    (step j).bind fun s =>
      if _hs : 0 < s.length ∧ s.more = true then walk stop step (j + s.length)
      else done (j + s.length)
  else done j
termination_by stop - j

/-- Repeats a measure from token `j` as long as it covers something. -/
def walkWhile (stop : Nat) (scan : Nat → Lookahead Nat) (j : Nat) : Lookahead Nat :=
  walk stop (fun j => Step.go <$> scan j) j

/-! ## Running a program -/

/-- How the questions of a program are answered in a monad. -/
structure Oracle (m : Type → Type) where
  query : (r : Rule) → Nat → m (Answer r)
  inside : (r : Rule) → Nat → m (Answer r)

/-- Runs a program, its questions answered by an oracle. -/
@[specialize] def run {m : Type → Type} [Monad m] {α : Type} (o : Oracle m) : Lookahead α → m α
  | done a => pure a
  | query r i next => do run o (next (← o.query r i))
  | inside r i next => do run o (next (← o.inside r i))
  | distance lo hi next => run o (next (hi - lo))

theorem run_bind {m : Type → Type} [Monad m] [LawfulMonad m] {α β : Type} (o : Oracle m)
    (x : Lookahead α) (f : α → Lookahead β) :
    (x >>= f).run o = x.run o >>= fun a => (f a).run o := by
  change (x.bind f).run o = _
  induction x with
  | done a => simp [bind, run]
  | query r i next ih => simp [bind, run, ih]
  | inside r i next ih => simp [bind, run, ih]
  | distance lo hi next ih => simp [bind, run, ih]

/-! ## Plain answers -/

/-- An answer to every question. -/
abbrev Answers : Type := (r : Rule) → Nat → Answer r

/-- Nothing matches anywhere. -/
def Answers.nothing : Answers := fun _ _ => none

/-- The result of a program whose questions are answered by `tell`, those further inside by
`inner`. -/
def result {α : Type} (tell inner : Answers) (q : Lookahead α) : α := Id.run (q.run ⟨tell, inner⟩)

section
variable {α β : Type} (tell inner : Answers)

@[simp] theorem result_done (a : α) : (done a).result tell inner = a := rfl

@[simp] theorem result_pure (a : α) : (pure a : Lookahead α).result tell inner = a := rfl

theorem result_query (r : Rule) (i : Nat) (next : Answer r → Lookahead α) :
    (query r i next).result tell inner = (next (tell r i)).result tell inner := rfl

theorem result_inside (r : Rule) (i : Nat) (next : Answer r → Lookahead α) :
    (inside r i next).result tell inner = (next (inner r i)).result tell inner := rfl

theorem result_distance (lo hi : Nat) (next : Nat → Lookahead α) :
    (distance lo hi next).result tell inner = (next (hi - lo)).result tell inner := rfl

@[simp] theorem result_bind (x : Lookahead α) (f : α → Lookahead β) :
    (x >>= f).result tell inner = (f (x.result tell inner)).result tell inner := by
  simp only [result, run_bind]
  rfl

@[simp] theorem result_map (f : α → β) (x : Lookahead α) :
    (f <$> x).result tell inner = f (x.result tell inner) := by
  rw [map_eq_pure_bind, result_bind, result_pure]

@[simp] theorem result_find (r : Rule) (i : Nat) :
    (find r i).result tell inner = tell r i := rfl

@[simp] theorem result_lengthOf (r : Rule) (i : Nat) :
    (lengthOf r i).result tell inner = (tell r i).length := rfl

@[simp] theorem result_lengthInside (r : Rule) (i : Nat) :
    (lengthInside r i).result tell inner = (inner r i).length := rfl

@[simp] theorem result_tokensBetween (lo hi : Nat) :
    (tokensBetween lo hi).result tell inner = hi - lo := rfl

end

end Lookahead

end LessCss
