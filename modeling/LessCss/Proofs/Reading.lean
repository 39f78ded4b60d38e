import LessCss.Parser.Plain
import LessCss.Proofs.Order.Statements

/-! Readings of a stream: an answer to every question, such that each answer is what the body of
its rule gives from the others. A cap on nesting leaves some freedom: the questions that a body
asks further inside may all be refused. Without refusals there is one reading only, the meaning of
the rules.

The answers of a parse are found in an order that guards against circles. Since no rule asks
outside its scope, the guard never shows, and the equations of a reading need none. -/

namespace LessCss

namespace Lookahead

variable {α : Type} {ts : Tokens} {s : Scope}

/-- The result of a program that keeps to its scope is as promised, if the answers that it may get
stay inside the stream. -/
theorem Stays.result {tell inner : Answers} {q : Lookahead α} {F : α → Prop} (h : q.Stays ts s F)
    (ht : ∀ r j, s.Open j r.rank → ts.Fits j (tell r j).length)
    (hi : ∀ r j, s.Open j r.rank → ts.Fits j (inner r j).length) : F (q.result tell inner) := by
  induction q with
  | done a => exact h
  | query r j next ih => exact ih _ (h.2 _ (ht r j h.1))
  | inside r j next ih => exact ih _ (h.2.2 _ (hi r j h.2.1))
  | distance lo hi next ih => exact ih _ h.2

/-- Only the answers to questions in its scope matter to a program. -/
theorem Stays.result_congr {tell tell' inner inner' : Answers} {q : Lookahead α} {F : α → Prop}
    (h : q.Stays ts s F) (ht : ∀ r j, s.Open j r.rank → ts.Fits j (tell r j).length)
    (hi : ∀ r j, s.Open j r.rank → ts.Fits j (inner r j).length)
    (htt : ∀ r j, s.Open j r.rank → tell' r j = tell r j)
    (hii : s.deep = true → ∀ r j, s.Open j r.rank → inner' r j = inner r j) :
    q.result tell' inner' = q.result tell inner := by
  induction q with
  | done a => rfl
  | query r j next ih =>
    rw [result_query, result_query, htt r j h.1]
    exact ih _ (h.2 _ (ht r j h.1))
  | inside r j next ih =>
    rw [result_inside, result_inside, hii h.1 r j h.2.1]
    exact ih _ (h.2.2 _ (hi r j h.2.1))
  | distance lo hi next ih => exact ih _ h.2

theorem result_firstOf_cons {tell inner : Answers} (i : Nat) (shape : α)
    (scan : Nat → Lookahead Nat) (rest : List (α × (Nat → Lookahead Nat))) :
    (firstOf i ((shape, scan) :: rest)).result tell inner =
      (Match.of? ((scan i).result tell inner) shape).or ((firstOf i rest).result tell inner) := by
  rw [firstOf, result_bind]
  cases Match.of? ((scan i).result tell inner) shape with
  | none => rfl
  | some m => rfl

/-- The alternative that is taken is one of those that were tried. -/
theorem exists_of_firstOf {tell inner : Answers} {i : Nat}
    {alts : List (α × (Nat → Lookahead Nat))} {m : Match α}
    (h : (firstOf i alts).result tell inner = some m) :
    ∃ a ∈ alts, m.shape = a.1 ∧ m.length = (a.2 i).result tell inner := by
  induction alts with
  | nil => cases h
  | cons a rest ih =>
    obtain ⟨shape, scan⟩ := a
    rw [result_firstOf_cons] at h
    by_cases hn : 0 < (scan i).result tell inner
    · rw [Match.of?_pos hn] at h
      cases h
      exact ⟨_, List.mem_cons_self .., rfl, rfl⟩
    · rw [show (scan i).result tell inner = 0 by omega, Match.of?_zero] at h
      obtain ⟨a, ha, he⟩ := ih h
      exact ⟨a, List.mem_cons_of_mem _ ha, he⟩

/-- The answers to the questions that come before rule `r` at token `i`; to others there is
none. -/
def Answers.before (tell : Answers) (r : Rule) (i : Nat) : Answers :=
  fun r' j => if Rule.Before r' j r i then tell r' j else none

theorem Answers.before_of {tell : Answers} {r r' : Rule} {i j : Nat} (h : Rule.Before r' j r i) :
    tell.before r i r' j = tell r' j := if_pos h

end Lookahead

open Lookahead

/-- The answers to the questions further inside: the same as outside or, under a cap that has
refused some, none. -/
def Inner (capped : Bool) (tell inner : Answers) : Prop :=
  inner = tell ∨ capped = true ∧ inner = Answers.nothing

/-- An answer to every question, each of them what the body of its rule gives from the others. -/
structure Reading (ts : Tokens) (capped : Bool) where
  tell : Answers
  past_end : ∀ r i, ts.size ≤ i → tell r i = none
  fits : ∀ r i, ts.Fits i (tell r i).length
  explains : ∀ r i, i < ts.size → ∃ inner, Inner capped tell inner ∧
    tell r i = (r.body ts i).result tell inner

/-- What is remembered of what a rule says, given the answers to the questions before it. -/
def Rule.conclude (ts : Tokens) (tell inner : Answers) (r : Rule) (i : Nat) : Answer r :=
  ((r.body ts i).result (tell.before r i) (inner.before r i)).stored ts.size i

/-! ## Taking away the guard -/

section
variable {ts : Tokens} {capped : Bool} {tell inner : Answers} {r : Rule} {i : Nat}

theorem Inner.fits {s : Scope} (h : Inner capped tell inner)
    (ht : ∀ r j, s.Open j r.rank → ts.Fits j (tell r j).length) :
    ∀ r j, s.Open j r.rank → ts.Fits j (inner r j).length := by
  rcases h with rfl | ⟨_, rfl⟩
  · exact ht
  · intro r j _
    exact Tokens.fits_zero ts j

/-- Where the answers before a rule stay inside the stream, the guard changes nothing, and the
rule's own answer stays inside and is remembered as it is. -/
theorem Rule.conclude_eq (wm : ts.WellMarked) (hi : i < ts.size) (hinner : Inner capped tell inner)
    (ht : ∀ r' j, Before r' j r i → ts.Fits j (tell r' j).length) :
    r.conclude ts tell inner i = (r.body ts i).result tell inner ∧
      ts.Fits i ((r.body ts i).result tell inner).length := by
  have hs := Rule.body_stays wm r hi
  have hfits : ts.Fits i ((r.body ts i).result tell inner).length := hs.result ht (hinner.fits ht)
  have hguard : (r.body ts i).result (tell.before r i) (inner.before r i) =
      (r.body ts i).result tell inner :=
    hs.result_congr ht (hinner.fits ht) (fun _ _ h => Answers.before_of h)
      (fun _ _ _ h => Answers.before_of h)
  refine ⟨?_, hfits⟩
  rw [Rule.conclude, hguard]
  exact Answer.stored_eq_self (by omega)

/-- Answers that follow the guarded equations are a reading. -/
def Reading.ofConclusions (wm : ts.WellMarked)
    (past_end : ∀ r i, ts.size ≤ i → tell r i = none)
    (h : ∀ r i, i < ts.size → ∃ inner, Inner capped tell inner ∧
      tell r i = r.conclude ts tell inner i) : Reading ts capped :=
  have fits : ∀ w r i, r.weight ts.size i = w → ts.Fits i (tell r i).length := by
    intro w
    induction w using Nat.strongRecOn with
    | ind w ih =>
      intro r i hw
      rcases Nat.lt_or_ge i ts.size with hi | hi
      · obtain ⟨inner, hinner, he⟩ := h r i hi
        obtain ⟨hc, hf⟩ := Rule.conclude_eq (r := r) wm hi hinner fun r' j hb =>
          ih _ (hw ▸ Rule.weight_lt hi hb) r' j rfl
        rw [he, hc]
        exact hf
      · rw [past_end r i hi]
        exact Tokens.fits_zero ts i
  { tell
    past_end
    fits := fun r i => fits _ r i rfl
    explains := fun r i hi => by
      obtain ⟨inner, hinner, he⟩ := h r i hi
      refine ⟨inner, hinner, ?_⟩
      rw [he]
      exact (Rule.conclude_eq wm hi hinner fun r' j _ => fits _ r' j rfl).1 }

end

/-! ## What a reading makes of a program -/

namespace Reading

variable {ts : Tokens} {capped : Bool} (A : Reading ts capped)

/-- The result of a program. -/
def value {α : Type} (q : Lookahead α) : α := q.result A.tell A.tell

/-- How many tokens a rule covers. -/
def len (r : Rule) (i : Nat) : Nat := (A.tell r i).length

theorem len_eq (r : Rule) (i : Nat) : (A.tell r i).length = A.len r i := rfl

theorem lt_of_len {r : Rule} {i : Nat} (h : 0 < A.len r i) : i < ts.size := by
  rcases Nat.lt_or_ge i ts.size with hi | hi
  · exact hi
  · rw [len, A.past_end r i hi] at h
    cases h

theorem lt_of_tell {r : Rule} {i : Nat} {m : Match r.Shape} (h : A.tell r i = some m) :
    i < ts.size := by
  refine A.lt_of_len (r := r) ?_
  rw [len, h]
  exact m.length_pos

theorem len_le {r : Rule} {i : Nat} (h : 0 < A.len r i) : i + A.len r i ≤ ts.size := by
  have hf := A.fits r i
  rw [len_eq] at hf
  omega

theorem exists_of_len {r : Rule} {i : Nat} (h : 0 < A.len r i) :
    ∃ m, A.tell r i = some m ∧ m.length = A.len r i := by
  unfold len at h ⊢
  cases ht : A.tell r i with
  | none =>
    rw [ht] at h
    cases h
  | some m => exact ⟨m, rfl, rfl⟩

/-- A program that asks nothing further inside does not notice whether it would be refused. -/
theorem result_eq_value {α : Type} {s : Scope} {q : Lookahead α} {F : α → Prop}
    (h : q.Stays ts s F) (hd : s.deep = false) (inner : Answers) :
    q.result A.tell inner = A.value q :=
  h.result_congr (fun r j _ => A.fits r j) (fun r j _ => A.fits r j) (fun _ _ _ => rfl)
    fun hd' => by rw [hd] at hd'; cases hd'

/-- What is measured stays inside the stream. -/
theorem value_fits {s : Scope} {q : Lookahead Nat} {i : Nat} (h : q.Measures ts s i) :
    ts.Fits i (A.value q) :=
  h.result (fun r j _ => A.fits r j) (fun r j _ => A.fits r j)

/-- The equation of a rule that asks nothing further inside. -/
theorem tell_eq (wm : ts.WellMarked) {r : Rule} {i : Nat} (hr : r.nests = false)
    (hi : i < ts.size) : A.tell r i = A.value (r.body ts i) := by
  obtain ⟨inner, _, he⟩ := A.explains r i hi
  rw [he]
  exact A.result_eq_value (Rule.body_stays wm r hi) hr inner

theorem value_of_tell (wm : ts.WellMarked) {r : Rule} {i : Nat} {m : Match r.Shape}
    (hr : r.nests = false) (h : A.tell r i = some m) : A.value (r.body ts i) = some m := by
  rw [← A.tell_eq wm hr (A.lt_of_tell h)]
  exact h

/-- What a rule of alternatives has found is one of them. -/
theorem alternative (wm : ts.WellMarked) {r : Rule} {i : Nat} {m : Match r.Shape}
    {alts : List (r.Shape × (Nat → Lookahead Nat))} (hr : r.nests = false)
    (hb : r.body ts i = firstOf i alts) (h : A.tell r i = some m) :
    ∃ a ∈ alts, m.shape = a.1 ∧ m.length = A.value (a.2 i) ∧ 0 < A.value (a.2 i) := by
  have hbody := A.value_of_tell wm hr h
  rw [hb] at hbody
  obtain ⟨a, ha, hs, hl⟩ := exists_of_firstOf hbody
  have hl' : m.length = A.value (a.2 i) := hl
  exact ⟨a, ha, hs, hl', hl' ▸ m.length_pos⟩

section
variable {α β : Type}

@[simp] theorem value_pure (a : α) : A.value (pure a : Lookahead α) = a := rfl

@[simp] theorem value_bind (x : Lookahead α) (f : α → Lookahead β) :
    A.value (x >>= f) = A.value (f (A.value x)) := result_bind _ _ x f

@[simp] theorem value_map (f : α → β) (x : Lookahead α) : A.value (f <$> x) = f (A.value x) :=
  result_map _ _ f x

@[simp] theorem value_find (r : Rule) (i : Nat) : A.value (find r i) = A.tell r i := rfl

@[simp] theorem value_lengthOf (r : Rule) (i : Nat) : A.value (lengthOf r i) = A.len r i := rfl

@[simp] theorem value_tokensBetween (lo hi : Nat) : A.value (tokensBetween lo hi) = hi - lo := rfl

@[simp] theorem value_through (lo mid n : Nat) :
    A.value (through lo mid n) = if n = 0 then 0 else mid + n - lo := by
  unfold through
  split <;> rfl

@[simp] theorem value_orElse (x y : Lookahead Nat) :
    A.value (x <|> y) = if A.value x = 0 then A.value y else A.value x := by
  change A.value (orElse x fun _ => y) = _
  rw [orElse, value_bind]
  cases A.value x with
  | zero => rfl
  | succ n => rfl

theorem length_of? {r : Rule} (n : Nat) (shape : r.Shape) :
    Answer.length (r := r) (Match.of? n shape) = n := by
  by_cases hn : 0 < n
  · rw [Match.of?_pos hn]
    rfl
  · rw [show n = 0 by omega]
    rfl

/-- The equation of a rule with one form. -/
theorem len_of_sole (wm : ts.WellMarked) {r : Rule} {i : Nat} (hr : r.nests = false)
    (hi : i < ts.size) {q : Lookahead Nat} {u : r.Shape}
    (hb : r.body ts i = q >>= fun n => pure (Match.of? n u)) : A.len r i = A.value q := by
  rw [len, A.tell_eq wm hr hi, hb, value_bind, value_pure]
  exact length_of? _ _

theorem value_firstOf_cons {σ : Type} (i : Nat) (shape : σ) (scan : Nat → Lookahead Nat)
    (rest : List (σ × (Nat → Lookahead Nat))) :
    A.value (firstOf i ((shape, scan) :: rest)) =
      (Match.of? (A.value (scan i)) shape).or (A.value (firstOf i rest)) :=
  result_firstOf_cons i shape scan rest

theorem value_walk (stop : Nat) (step : Nat → Lookahead Step) (j : Nat) :
    A.value (walk stop step j) =
      if j < stop then
        if 0 < (A.value (step j)).length ∧ (A.value (step j)).more = true then
          A.value (walk stop step (j + (A.value (step j)).length))
        else j + (A.value (step j)).length
      else j := by
  rw [walk]
  split
  · change A.value (step j >>= _) = _
    rw [value_bind]
    split <;> rfl
  · rfl

end

end Reading

/-! ## The meaning of the rules -/

/-- The meaning of a rule follows its guarded equation. -/
theorem Rule.meaning_eq_result {ts : Tokens} {r : Rule} {i : Nat} (hi : i < ts.size) :
    r.meaning ts i = (r.body ts i).result (Answers.before (fun r j => r.meaning ts j) r i)
      (Answers.before (fun r j => r.meaning ts j) r i) := by
  rw [Rule.meaning, dif_pos hi]
  rfl

theorem Rule.meaning_past_end {ts : Tokens} (r : Rule) {i : Nat} (hi : ts.size ≤ i) :
    r.meaning ts i = none := by
  rw [Rule.meaning, dif_neg (by omega)]

namespace Reading

variable {ts : Tokens}

/-- Without refusals a reading is determined by the stream: it is the meaning of the rules. -/
theorem tell_eq_meaning (wm : ts.WellMarked) (A : Reading ts false) (r : Rule) (i : Nat) :
    A.tell r i = r.meaning ts i := by
  generalize hw : r.weight ts.size i = w
  induction w using Nat.strongRecOn generalizing r i with
  | ind w ih =>
    rcases Nat.lt_or_ge i ts.size with hi | hi
    · obtain ⟨inner, hinner, he⟩ := A.explains r i hi
      have hi' : inner = A.tell := hinner.resolve_right fun h => nomatch h.1
      subst hi'
      have hb : ∀ r' j, Rule.Before r' j r i →
          Answers.before (fun r j => r.meaning ts j) r i r' j = A.tell r' j := by
        intro r' j h
        rw [Answers.before_of h]
        exact (ih _ (hw ▸ Rule.weight_lt hi h) r' j rfl).symm
      rw [he, Rule.meaning_eq_result hi]
      exact ((Rule.body_stays wm r hi).result_congr (fun r j _ => A.fits r j)
        (fun r j _ => A.fits r j) hb fun _ => hb).symm
    · rw [A.past_end r i hi, Rule.meaning_past_end r hi]

end Reading

end LessCss
