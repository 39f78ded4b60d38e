import LessCss.Proofs.Agreement

/-! Runs that check themselves. The programs of the grammar are run a second time, step by step as a
machine would: the memory is a table whose slots have to exist, a distance has to go forward, a
length has to fit where it is kept, the levels that the lookahead goes inside are counted up and
down, and the order of questions is not guarded, so that only a number of steps bounds how deep they
go. The first thing that goes wrong is the result.

Looking ahead in a well-marked stream, nothing goes wrong, and the run does what the unchecked one
does. -/

namespace LessCss

open Lookahead

/-- What can go wrong. -/
inductive Fault where
  /-- The memory has no slot for a token. -/
  | slot
  /-- A distance is taken backwards. -/
  | distance
  /-- A length does not fit into the memory. -/
  | length
  /-- A level is left that was not entered. -/
  | level
  /-- A line or a column cannot be held. -/
  | place
  /-- A text is cut behind its end. -/
  | text
  /-- A condition that builders rely on does not hold, or a repetition goes on without moving. -/
  | condition
  /-- A token is read or changed that the stream does not have. -/
  | token
  /-- The run takes more steps than it may. -/
  | steps
deriving DecidableEq

/-- Which lengths can be remembered, and the places of which nodes can be held. -/
structure Room where
  length : Nat → Bool
  node : Node → Bool

namespace Checked

/-- The state of a parse, and how many levels inside the lookahead is. -/
structure State where
  parse : Parser.State
  level : Nat

/-- A run that ends with the first fault. -/
abbrev Run : Type → Type := StateT State (Except Fault)

/-! ## Looking ahead -/

/-- What is remembered of rule `r` at token `i`. -/
def remembered (r : Rule) (i : Nat) : Run (Option (Answer r)) := do
  match (← get).parse.memo.slots[i]? with
  | some slot => return slot r
  | none => throw .slot

/-- Notes an answer in memory. -/
def remember (room : Room) (r : Rule) (i : Nat) (a : Answer r) : Run Unit := do
  let s ← get
  if i < s.parse.memo.size then
    if room.length a.length then
      set { s with parse := { s.parse with memo := s.parse.memo.insert r i a } }
    else throw .length
  else throw .slot

/-- Goes back to the level outside. -/
def leave : Run Unit := do
  let s ← get
  if s.level = 0 then throw .level else set { s with level := s.level - 1 }

/-- Asks one level further inside, if the cap allows it. -/
def descend {r : Rule} (limit : Option Nat) (x : Run (Answer r)) : Run (Answer r) := do
  let s ← get
  if Parser.allows limit s.level then
    set { s with level := s.level + 1 }
    let a ← x
    leave
    return a
  else
    set { s with parse := { s.parse with refused := true } }
    return none

/-- Runs a program that looks ahead. -/
def look {α : Type} (o : Oracle Run) : Lookahead α → Run α
  | .done a => pure a
  | .query r i next => do look o (next (← o.query r i))
  | .inside r i next => do look o (next (← o.inside r i))
  | .distance lo hi next => if lo ≤ hi then look o (next (hi - lo)) else throw .distance

/-- What rule `r` says about token `i`, where questions may lead to questions at most `steps` times
in a row. -/
def answer (room : Room) (ts : Tokens) (limit : Option Nat) :
    (steps : Nat) → (r : Rule) → Nat → Run (Answer r)
  | 0, _, _ => throw .steps
  | steps + 1, r, i => do
    if i < ts.size then
      match ← remembered r i with
      | some a => return a
      | none =>
        let a ← look
          { query := answer room ts limit steps
            inside := fun r' j => descend limit (answer room ts limit steps r' j) } (r.body ts i)
        remember room r i a
        return a
    else return none

/-- How questions are answered. -/
def oracle (room : Room) (ts : Tokens) (limit : Option Nat) (steps : Nat) : Oracle Run where
  query := answer room ts limit steps
  inside r i := descend limit (answer room ts limit steps r i)

/-! ## Nothing goes wrong -/

variable {α β : Type} {ts : Tokens} {limit : Option Nat} {depth : Nat} {s : Parser.State}

theorem bind_ok {x : Run α} {f : α → Run β} {a : α} {s t : State} (h : x s = .ok (a, t)) :
    (x >>= f) s = f a t := by
  change Except.bind (x s) (fun r => f r.1 r.2) = f a t
  rw [h]
  rfl

/-- The checked run does what the unchecked one does, and ends at the level where it started. -/
def Confirms (depth : Nat) (x : Run α) (y : StateM Parser.State α) (s : Parser.State) : Prop :=
  x ⟨s, depth⟩ = .ok ((y s).1, ⟨(y s).2, depth⟩)

theorem confirms_pure (a : α) : Confirms depth (pure a) (pure a) s := rfl

theorem Confirms.bind {x : Run α} {y : StateM Parser.State α} {f : α → Run β}
    {g : α → StateM Parser.State β} (hx : Confirms depth x y s)
    (hf : Confirms depth (f (y s).1) (g (y s).1) (y s).2) :
    Confirms depth (x >>= f) (y >>= g) s := (bind_ok hx).trans hf

theorem confirms_remembered {r : Rule} {i : Nat} (hs : s.Sound ts) (hi : i < ts.size) :
    remembered r i ⟨s, depth⟩ = .ok (s.memo.get? r i, ⟨s, depth⟩) := by
  have hslot : i < s.memo.slots.size := Nat.lt_of_lt_of_eq hi hs.size.symm
  have hget : s.memo.slots[i]? = some s.memo.slots[i] := Array.getElem?_eq_getElem hslot
  unfold remembered
  rw [bind_ok (a := ⟨s, depth⟩) (t := ⟨s, depth⟩) rfl, hget, Memo.get?, hget]
  rfl

theorem confirms_remember {room : Room} {r : Rule} {i : Nat} {a : Answer r} (hs : s.Sound ts)
    (hi : i < ts.size) (ha : room.length a.length = true) :
    Confirms depth (remember room r i a) (Parser.remember r i a) s := by
  have hslot : i < s.memo.size := hs.size ▸ hi
  unfold remember
  rw [Confirms, bind_ok (a := ⟨s, depth⟩) (t := ⟨s, depth⟩) rfl, if_pos hslot, if_pos ha]
  rfl

/-- Going inside and back ends at the level where it started. -/
theorem confirms_descend {r : Rule} {x : Run (Answer r)} {y : StateM Parser.State (Answer r)}
    (h : Parser.allows limit depth = true → Confirms (depth + 1) x y s) :
    Confirms depth (descend limit x)
      (if Parser.allows limit depth then y else Parser.refuse) s := by
  unfold descend
  rw [Confirms, bind_ok (a := ⟨s, depth⟩) (t := ⟨s, depth⟩) rfl]
  split
  · next ha =>
    rw [bind_ok (a := ()) (t := ⟨s, depth + 1⟩) rfl, bind_ok (h ha),
      bind_ok (a := ()) (t := ⟨(y s).2, depth⟩) rfl]
    rfl
  · rfl

/-- A question is answered as by the unchecked run, in a sound state, and the answer stays inside
the stream. -/
structure Replies (ts : Tokens) (depth : Nat) {r : Rule} (j : Nat) (x : Run (Answer r))
    (y : StateM Parser.State (Answer r)) (s : Parser.State) : Prop where
  confirms : Confirms depth x y s
  sound : (y s).2.Sound ts
  fits : ts.Fits j (y s).1.length

/-- A program that keeps to its scope takes distances forward. -/
theorem look_confirms {σ : Scope} {F : α → Prop} {o : Oracle Run} {p : Oracle (StateM Parser.State)}
    (hquery : ∀ r j s, s.Sound ts → σ.Open j r.rank →
      Replies ts depth j (o.query r j) (p.query r j) s)
    (hinside : ∀ r j s, s.Sound ts → σ.Open j r.rank →
      Replies ts depth j (o.inside r j) (p.inside r j) s)
    {q : Lookahead α} (hq : q.Stays ts σ F) (hs : s.Sound ts) :
    Confirms depth (look o q) (q.run p) s ∧ (q.run p s).2.Sound ts ∧ F (q.run p s).1 := by
  induction q generalizing s with
  | done a => exact ⟨confirms_pure a, hs, hq⟩
  | query r j next ih =>
    obtain ⟨hconfirms, hsound, hfits⟩ := hquery r j s hs hq.1
    obtain ⟨hrest, hend⟩ := ih _ (hq.2 _ hfits) hsound
    exact ⟨hconfirms.bind hrest, hend⟩
  | inside r j next ih =>
    obtain ⟨hconfirms, hsound, hfits⟩ := hinside r j s hs hq.2.1
    obtain ⟨hrest, hend⟩ := ih _ (hq.2.2 _ hfits) hsound
    exact ⟨hconfirms.bind hrest, hend⟩
  | distance lo hi next ih =>
    obtain ⟨hrest, hend⟩ := ih _ hq.2 hs
    refine ⟨?_, hend⟩
    rw [look, if_pos hq.1]
    exact hrest

theorem replies_answer (wm : ts.WellMarked) (hs : s.Sound ts) {r : Rule} {i : Nat}
    {x : Run (Answer r)} (hx : Confirms depth x (Parser.answer ts limit r i depth) s) :
    Replies ts depth i x (Parser.answer ts limit r i depth) s :=
  ⟨hx, (Parser.answer_yields ts limit r i depth 0 s hs).1.sound, Parser.answer_fits wm hs r i⟩

theorem replies_inside (wm : ts.WellMarked) (hs : s.Sound ts) {r : Rule} {i : Nat}
    {x : Run (Answer r)} (hx : Confirms (depth + 1) x (Parser.answer ts limit r i (depth + 1)) s) :
    Replies ts depth i (descend limit x) (if Parser.allows limit depth then
      Parser.answer ts limit r i (depth + 1) else Parser.refuse) s := by
  have hdescend : Confirms depth (descend limit x) (if Parser.allows limit depth then
      Parser.answer ts limit r i (depth + 1) else Parser.refuse) s := confirms_descend fun _ => hx
  by_cases ha : Parser.allows limit depth = true
  · rw [if_pos ha] at hdescend ⊢
    have hreply := replies_answer wm hs hx
    exact ⟨hdescend, hreply.sound, hreply.fits⟩
  · rw [if_neg ha] at hdescend ⊢
    have hrefuse : Parser.Yields ts limit depth 0 (Parser.refuse (r := r)) fun _ inner => inner r i :=
      Parser.refuse_yields i (Bool.eq_false_iff.2 ha)
    exact ⟨hdescend, (hrefuse s hs).1.sound, Tokens.fits_zero ts i⟩

/-- The body of a rule, if the questions before the rule's own are answered. The guard of the
unchecked run lets every question of the body through. -/
theorem body_confirms (wm : ts.WellMarked) {room : Room} {steps : Nat} {r : Rule} {i : Nat}
    (hi : i < ts.size)
    (ih : ∀ r' j d s, Rule.Before r' j r i → s.Sound ts →
      Confirms d (answer room ts limit steps r' j) (Parser.answer ts limit r' j d) s)
    (hs : s.Sound ts) :
    let x := (r.body ts i).run (Parser.bodyOracle ts limit r i depth)
    Confirms depth (look (oracle room ts limit steps) (r.body ts i)) x s ∧
      (x s).2.Sound ts ∧ ts.Fits i (x s).1.length := by
  refine look_confirms (fun r' j s hs hb => ?_) (fun r' j s hs hb => ?_) (Rule.body_stays wm r hi) hs
  · have hbefore : Rule.Before r' j r i := hb
    simp only [Parser.bodyOracle, if_pos hbefore]
    exact replies_answer wm hs (ih r' j depth s hbefore hs)
  · have hbefore : Rule.Before r' j r i := hb
    simp only [Parser.bodyOracle, if_pos hbefore]
    exact replies_inside wm hs (ih r' j (depth + 1) s hbefore hs)

/-- A question leads to questions before it, so as many steps suffice as the question weighs. -/
theorem answer_confirms (wm : ts.WellMarked) {room : Room}
    (hroom : ∀ n ≤ ts.size, room.length n = true) (hs : s.Sound ts) {steps : Nat} {r : Rule}
    {i : Nat} (h : r.weight ts.size i < steps) :
    Confirms depth (answer room ts limit steps r i) (Parser.answer ts limit r i depth) s := by
  induction steps generalizing r i depth s with
  | zero => cases h
  | succ steps ih =>
    unfold answer
    rcases Nat.lt_or_ge i ts.size with hi | hi
    case inr =>
      rw [if_neg (Nat.not_lt_of_ge hi), Confirms, Parser.answer_past_end hi]
      rfl
    rw [if_pos hi, Confirms, bind_ok (confirms_remembered hs hi)]
    cases hm : s.memo.get? r i with
    | some a =>
      rw [Parser.answer_remembered hi hm]
      rfl
    | none =>
      have hbefore : ∀ r' j d s, Rule.Before r' j r i → s.Sound ts →
          Confirms d (answer room ts limit steps r' j) (Parser.answer ts limit r' j d) s :=
        fun r' j d s hb hs =>
          ih hs (Nat.lt_of_lt_of_le (Rule.weight_lt hi hb) (Nat.le_of_lt_succ h))
      obtain ⟨hbody, hsound, hfits⟩ := body_confirms wm hi hbefore hs
      rw [Parser.answer_fresh hi hm]
      unfold Confirms at hbody
      generalize (r.body ts i).run (Parser.bodyOracle ts limit r i depth) s = x at hbody hsound hfits
      have hlen : room.length x.1.length = true := hroom _ (by omega)
      dsimp only
      rw [Answer.stored_eq_self (a := x.1) (by omega)]
      exact (bind_ok hbody).trans (bind_ok (confirms_remember hsound hi hlen))

/-- As many steps as suffice for every question. -/
def enough (ts : Tokens) : Nat := (ts.size + 1) * Rule.ranks

theorem oracle_confirms (wm : ts.WellMarked) {room : Room}
    (hroom : ∀ n ≤ ts.size, room.length n = true) {steps : Nat} (h : enough ts ≤ steps) {σ : Scope}
    {F : α → Prop} {q : Lookahead α} (hq : q.Stays ts σ F) (hs : s.Sound ts) :
    Confirms depth (look (oracle room ts limit steps) q) (q.run (Parser.oracleAt ts limit depth)) s := by
  have hsteps : ∀ r i, Rule.weight ts.size r i < steps := fun r i =>
    Nat.lt_of_lt_of_le (Nat.lt_of_succ_le (Parser.weight_lt_top ts r i)) h
  exact (look_confirms
    (fun r j s hs _ => replies_answer wm hs (answer_confirms wm hroom hs (hsteps r j)))
    (fun r j s hs _ => replies_inside wm hs (answer_confirms wm hroom hs (hsteps r j))) hq hs).1

end Checked

end LessCss
