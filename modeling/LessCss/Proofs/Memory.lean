import LessCss.Proofs.Reading

/-! The memory of a parse. Every remembered answer is what the body of its rule gives from other
remembered answers: not from those of some fixed reading, since under a cap an answer depends on how
deep it was first asked for, but from those of any reading that agrees with the memory. So the
memory never contradicts itself, only grows, and can be completed to a reading of the stream. -/

namespace LessCss.Parser

open Lookahead

/-- The answers agree with a memory, and past the end of the stream there are none. -/
structure Supports (ts : Tokens) (tell : Answers) (m : Memo) : Prop where
  past_end : ∀ r i, ts.size ≤ i → tell r i = none
  agrees : ∀ r i a, m.get? r i = some a → tell r i = a

/-- Each remembered answer follows from remembered answers. -/
structure State.Sound (ts : Tokens) (s : State) : Prop where
  size : s.memo.size = ts.size
  explained : ∀ r i a, s.memo.get? r i = some a → ∀ tell, Supports ts tell s.memo →
    ∃ inner, Inner s.refused tell inner ∧ a = r.conclude ts tell inner i

/-- What a step of a parse does to a state: the memory grows and stays sound, and without a cap
nothing is refused. -/
structure Grows (ts : Tokens) (limit : Option Nat) (s s' : State) : Prop where
  keeps : ∀ r i a, s.memo.get? r i = some a → s'.memo.get? r i = some a
  refused : s.refused = true → s'.refused = true
  uncapped : limit = none → s'.refused = s.refused
  sound : s'.Sound ts

/-- What looking ahead does to a state: the memory grows at questions of a weight below `w` only,
and no condition is checked. -/
structure Extends (ts : Tokens) (limit : Option Nat) (w : Nat) (s s' : State) : Prop
    extends Grows ts limit s s' where
  frame : ∀ r i, w ≤ r.weight ts.size i → s'.memo.get? r i = s.memo.get? r i
  broken : s'.broken = s.broken

/-- How the questions that a body asks further inside are answered, `depth` levels inside: like all
others if the cap allows it, and else, if there were any, not at all. -/
def Heeds (limit : Option Nat) (depth : Nat) (s : State) (tell inner : Answers) : Prop :=
  if allows limit depth then inner = tell else s.refused = true → inner = Answers.nothing

/-- An action extends sound states, and its result is `v` of any answers that support what is
remembered in the end. -/
def Yields {α : Type} (ts : Tokens) (limit : Option Nat) (depth w : Nat) (x : StateM State α)
    (v : Answers → Answers → α) : Prop :=
  ∀ s : State, s.Sound ts → Extends ts limit w s (x s).2 ∧
    ∀ tell inner, Supports ts tell (x s).2.memo → Heeds limit depth (x s).2 tell inner →
      (x s).1 = v tell inner

variable {α β : Type} {ts : Tokens} {limit : Option Nat} {depth w w' : Nat} {s s' s'' : State}
  {tell inner : Answers}

/-! ## Growing memories -/

theorem Grows.refl (h : s.Sound ts) : Grows ts limit s s :=
  ⟨fun _ _ _ h => h, id, fun _ => rfl, h⟩

theorem Grows.trans (h : Grows ts limit s s') (h' : Grows ts limit s' s'') :
    Grows ts limit s s'' where
  keeps r i a ha := h'.keeps r i a (h.keeps r i a ha)
  refused hr := h'.refused (h.refused hr)
  uncapped hl := (h'.uncapped hl).trans (h.uncapped hl)
  sound := h'.sound

theorem Extends.refl (h : s.Sound ts) : Extends ts limit w s s :=
  ⟨.refl h, fun _ _ _ => rfl, rfl⟩

theorem Extends.trans (h : Extends ts limit w s s') (h' : Extends ts limit w s' s'') :
    Extends ts limit w s s'' :=
  ⟨h.toGrows.trans h'.toGrows, fun r i hw => (h'.frame r i hw).trans (h.frame r i hw),
    h'.broken.trans h.broken⟩

theorem Extends.widen (h : Extends ts limit w s s') (hw : w ≤ w') : Extends ts limit w' s s' :=
  ⟨h.toGrows, fun r i hr => h.frame r i (Nat.le_trans hw hr), h.broken⟩

/-- Answers that support the larger memory support the smaller one. -/
theorem Supports.mono {m m' : Memo} (h : Supports ts tell m')
    (hk : ∀ r i a, m.get? r i = some a → m'.get? r i = some a) : Supports ts tell m :=
  ⟨h.past_end, fun r i a ha => h.agrees r i a (hk r i a ha)⟩

theorem Heeds.mono (h : Heeds limit depth s' tell inner)
    (hr : s.refused = true → s'.refused = true) : Heeds limit depth s tell inner := by
  unfold Heeds at *
  split at h
  · rw [if_pos ‹_›]
    exact h
  · rw [if_neg ‹_›]
    exact fun hs => h (hr hs)

/-- Inner answers can be chosen for every state, in a way that a reading allows. -/
theorem exists_heeds (limit : Option Nat) (depth : Nat) (s : State) (tell : Answers) :
    ∃ inner, Heeds limit depth s tell inner ∧ Inner s.refused tell inner := by
  unfold Heeds
  split
  · exact ⟨tell, rfl, Or.inl rfl⟩
  · cases hr : s.refused with
    | true => exact ⟨Answers.nothing, fun _ => rfl, Or.inr ⟨rfl, rfl⟩⟩
    | false => exact ⟨tell, fun h => (nomatch h), Or.inl rfl⟩

/-! ## Sequences of actions -/

theorem yields_pure (a : α) : Yields ts limit depth w (pure a) fun _ _ => a :=
  fun _ hs => ⟨.refl hs, fun _ _ _ _ => rfl⟩

theorem Yields.widen {x : StateM State α} {v : Answers → Answers → α}
    (h : Yields ts limit depth w x v) (hw : w ≤ w') : Yields ts limit depth w' x v :=
  fun s hs => ⟨(h s hs).1.widen hw, (h s hs).2⟩

theorem Yields.bind {x : StateM State α} {f : α → StateM State β} {v : Answers → Answers → α}
    {u : α → Answers → Answers → β} (hx : Yields ts limit depth w x v)
    (hf : ∀ a, Yields ts limit depth w (f a) (u a)) :
    Yields ts limit depth w (x >>= f) fun tell inner => u (v tell inner) tell inner := by
  intro s hs
  obtain ⟨he, hv⟩ := hx s hs
  obtain ⟨he', hu⟩ := hf (x s).1 (x s).2 he.sound
  refine ⟨he.trans he', fun tell inner ht hi => ?_⟩
  have ha := hv tell inner (ht.mono he'.keeps) (hi.mono he'.refused)
  exact (hu tell inner ht hi).trans (congrArg (u · tell inner) ha)

/-- A program yields its result if the oracle yields the answers. -/
theorem run_yields {o : Oracle (StateM State)} {outer inner : Answers → Answers → Answers}
    (hq : ∀ r j, Yields ts limit depth w (o.query r j) fun tell t => outer tell t r j)
    (hi : ∀ r j, Yields ts limit depth w (o.inside r j) fun tell t => inner tell t r j)
    (q : Lookahead α) :
    Yields ts limit depth w (q.run o) fun tell t => q.result (outer tell t) (inner tell t) := by
  induction q with
  | done a => exact yields_pure a
  | query r j next ih => exact (hq r j).bind ih
  | inside r j next ih => exact (hi r j).bind ih
  | distance lo hi next ih => exact ih _

/-! ## One question -/

theorem refuse_yields {r : Rule} (j : Nat) (h : allows limit depth = false) :
    Yields ts limit depth w (refuse (r := r)) fun _ inner => inner r j := by
  intro s hs
  refine ⟨⟨⟨fun _ _ _ h => h, fun _ => rfl, ?_, ⟨hs.size, ?_⟩⟩, fun _ _ _ => rfl, rfl⟩, ?_⟩
  · rintro rfl
    cases h
  · intro r i a ha tell ht
    obtain ⟨inner, hinner, he⟩ := hs.explained r i a ha tell ht
    exact ⟨inner, hinner.imp id fun h => ⟨rfl, h.2⟩, he⟩
  · intro tell inner _ hi
    rw [Heeds, h] at hi
    rw [hi rfl]
    rfl

/-- How the questions of the body of rule `r` at token `i` are answered. -/
def bodyOracle (ts : Tokens) (limit : Option Nat) (r : Rule) (i depth : Nat) :
    Oracle (StateM State) where
  query r' j := if Rule.Before r' j r i then answer ts limit r' j depth else return none
  inside r' j :=
    if allows limit depth then
      if Rule.Before r' j r i then answer ts limit r' j (depth + 1) else return none
    else refuse

theorem answer_past_end {r : Rule} {i : Nat} (hi : ts.size ≤ i) :
    answer ts limit r i depth s = (none, s) := by
  rw [answer, dif_neg (by omega)]
  rfl

theorem answer_remembered {r : Rule} {i : Nat} {a : Answer r} (hi : i < ts.size)
    (h : s.memo.get? r i = some a) : answer ts limit r i depth s = (a, s) := by
  rw [answer, dif_pos hi]
  change StateT.run (get >>= _) s = _
  rw [StateT.run_bind, StateT.run_get, pure_bind, h]
  rfl

theorem answer_fresh {r : Rule} {i : Nat} (hi : i < ts.size) (h : s.memo.get? r i = none) :
    answer ts limit r i depth s =
      let x := (r.body ts i).run (bodyOracle ts limit r i depth) s
      (x.1.stored ts.size i, { x.2 with memo := x.2.memo.insert r i (x.1.stored ts.size i) }) := by
  rw [answer, dif_pos hi]
  change StateT.run (get >>= _) s = _
  rw [StateT.run_bind, StateT.run_get, pure_bind, h]
  rfl

theorem same_or_ne (i j : Nat) (r r' : Rule) : (i = j ∧ r = r') ∨ (i ≠ j ∨ r ≠ r') := by
  by_cases hij : i = j
  · by_cases hr : r = r'
    · exact Or.inl ⟨hij, hr⟩
    · exact Or.inr (Or.inr hr)
  · exact Or.inr (Or.inl hij)

/-- Remembering what a body gives from what is already remembered keeps a state sound. -/
theorem remember_extends {r : Rule} {i : Nat} {a : Answer r} (hi : i < ts.size) (hs : s.Sound ts)
    (hfresh : s.memo.get? r i = none)
    (ha : ∀ tell, Supports ts tell s.memo →
      ∃ inner, Inner s.refused tell inner ∧ a = r.conclude ts tell inner i) :
    Extends ts limit (r.weight ts.size i + 1) s { s with memo := s.memo.insert r i a } := by
  have hkeeps : ∀ r' j b, s.memo.get? r' j = some b →
      (s.memo.insert r i a).get? r' j = some b := by
    intro r' j b hb
    rcases same_or_ne i j r r' with ⟨rfl, rfl⟩ | hne
    · rw [hfresh] at hb
      cases hb
    · rw [Memo.get?_insert_of_ne _ _ hne]
      exact hb
  refine ⟨⟨hkeeps, id, fun _ => rfl, ⟨by simpa using hs.size, ?_⟩⟩, ?_, rfl⟩
  · intro r' j b hb tell ht
    have ht' := ht.mono hkeeps
    rcases same_or_ne i j r r' with ⟨rfl, rfl⟩ | hne
    · rw [Memo.get?_insert_self _ _ _ _ (hs.size ▸ hi)] at hb
      cases hb
      exact ha tell ht'
    · rw [Memo.get?_insert_of_ne _ _ hne] at hb
      exact hs.explained r' j b hb tell ht'
  · intro r' j hw
    rcases same_or_ne i j r r' with ⟨rfl, rfl⟩ | hne
    · omega
    · exact Memo.get?_insert_of_ne _ _ hne

/-- The body of a rule, its questions answered before the rule's own. -/
theorem body_yields {r : Rule} {i : Nat} (hi : i < ts.size)
    (ih : ∀ r' j d, Rule.Before r' j r i → ∀ d', Yields ts limit d' (r'.weight ts.size j + 1)
      (answer ts limit r' j d) fun tell _ => tell r' j) :
    Yields ts limit depth (r.weight ts.size i) ((r.body ts i).run (bodyOracle ts limit r i depth))
      fun tell inner => (r.body ts i).result (tell.before r i) (inner.before r i) := by
  refine run_yields (fun r' j => ?_) (fun r' j => ?_) (r.body ts i)
  · simp only [bodyOracle, Answers.before]
    split
    · next hb => exact (ih r' j depth hb depth).widen (Rule.weight_lt hi hb)
    · exact yields_pure none
  · simp only [bodyOracle, Answers.before]
    split
    · next ha =>
      split
      · next hb =>
        -- what is allowed is answered like a question outside
        intro s hs
        obtain ⟨he, hv⟩ := (ih r' j (depth + 1) hb depth).widen (Rule.weight_lt hi hb) s hs
        refine ⟨he, fun tell inner ht hin => ?_⟩
        have hin' := hin
        rw [Heeds, if_pos ha] at hin'
        rw [hv tell inner ht hin, hin']
      · exact yields_pure none
    · next ha =>
      intro s hs
      obtain ⟨he, hv⟩ := refuse_yields (r := r') j (Bool.eq_false_iff.2 ha) s hs
      refine ⟨he, fun tell inner ht hin => ?_⟩
      have hn := hv tell inner ht hin
      split
      · exact hn
      · rfl

/-- A question is answered by what any supporting answers say. -/
theorem answer_yields (ts : Tokens) (limit : Option Nat) (r : Rule) (i depth d : Nat) :
    Yields ts limit d (r.weight ts.size i + 1) (answer ts limit r i depth)
      fun tell _ => tell r i := by
  generalize hw : r.weight ts.size i = w
  induction w using Nat.strongRecOn generalizing r i depth d with
  | ind w ih =>
    subst hw
    intro s hs
    rcases Nat.lt_or_ge i ts.size with hi | hi
    · cases hm : s.memo.get? r i with
      | some a =>
        rw [answer_remembered hi hm]
        exact ⟨.refl hs, fun tell inner ht _ => (ht.agrees r i a hm).symm⟩
      | none =>
        have hbody : Yields ts limit depth (r.weight ts.size i)
            ((r.body ts i).run (bodyOracle ts limit r i depth)) _ :=
          body_yields hi fun r' j d' hb d'' => ih _ (Rule.weight_lt hi hb) r' j d' d'' rfl
        obtain ⟨he, hv⟩ := hbody s hs
        rw [answer_fresh hi hm]
        generalize (r.body ts i).run (bodyOracle ts limit r i depth) s = x at he hv
        have hfresh : x.2.memo.get? r i = none := (he.frame r i (Nat.le_refl _)).trans hm
        have hnew : ∀ tell, Supports ts tell x.2.memo → ∃ inner, Inner x.2.refused tell inner ∧
            x.1.stored ts.size i = r.conclude ts tell inner i := by
          intro tell ht
          obtain ⟨inner, hh, hin⟩ := exists_heeds limit depth x.2 tell
          exact ⟨inner, hin, by rw [hv tell inner ht hh]; rfl⟩
        refine ⟨(he.widen (Nat.le_succ _)).trans (remember_extends hi he.sound hfresh hnew),
          fun tell inner ht _ => ?_⟩
        exact (ht.agrees r i _ (Memo.get?_insert_self _ _ _ _ (he.sound.size ▸ hi))).symm
    · rw [answer_past_end hi]
      exact ⟨.refl hs, fun tell inner ht _ => (ht.past_end r i hi).symm⟩

/-- An answer is what any answers say that agree with what is remembered behind it. -/
theorem answer_eq_tell {tell : Answers} {r : Rule} {i : Nat} (hs : s.Sound ts)
    (h : Supports ts tell (answer ts limit r i depth s).2.memo) :
    (answer ts limit r i depth s).1 = tell r i := by
  obtain ⟨inner, hheeds, -⟩ := exists_heeds limit 0 (answer ts limit r i depth s).2 tell
  exact (answer_yields ts limit r i depth 0 s hs).2 tell inner h hheeds

/-! ## Looking ahead -/

theorem weight_lt_top (ts : Tokens) (r : Rule) (i : Nat) :
    r.weight ts.size i + 1 ≤ (ts.size + 1) * Rule.ranks := by
  have hr := r.rank_lt
  simp only [Rule.weight, Rule.ranks] at *
  omega

/-- How questions are answered that are asked `depth` levels inside. -/
def oracleAt (ts : Tokens) (limit : Option Nat) (depth : Nat) : Oracle (StateM State) where
  query r i := answer ts limit r i depth
  inside r i := if allows limit depth then answer ts limit r i (depth + 1) else refuse

theorem oracleAt_yields (ts : Tokens) (limit : Option Nat) (depth : Nat) (q : Lookahead α) :
    Yields ts limit depth ((ts.size + 1) * Rule.ranks) (q.run (oracleAt ts limit depth))
      fun tell inner => q.result tell inner := by
  refine run_yields (fun r j => ?_) (fun r j => ?_) q
  · exact (answer_yields ts limit r j depth depth).widen (weight_lt_top ts r j)
  · simp only [oracleAt]
    split
    · next ha =>
      intro s hs
      obtain ⟨he, hv⟩ := (answer_yields ts limit r j (depth + 1) depth).widen
        (weight_lt_top ts r j) s hs
      refine ⟨he, fun tell inner ht hin => ?_⟩
      have hin' := hin
      rw [Heeds, if_pos ha] at hin'
      rw [hv tell inner ht hin, hin']
    · next ha => exact refuse_yields j (Bool.eq_false_iff.2 ha)

theorem oracle_yields (ts : Tokens) (limit : Option Nat) (q : Lookahead α) :
    Yields ts limit 0 ((ts.size + 1) * Rule.ranks) (q.run (oracle ts limit)) fun tell inner =>
      q.result tell inner := oracleAt_yields ts limit 0 q

/-- The result of looking ahead, in any reading that agrees with what is remembered in the end. -/
theorem oracleAt_run_eq {capped : Bool} {σ : Scope} {F : α → Prop} {q : Lookahead α}
    (hs : s.Sound ts) (hq : q.Stays ts σ F) (hd : σ.deep = false) (A : Reading ts capped)
    (hA : Supports ts A.tell (q.run (oracleAt ts limit depth) s).2.memo) :
    (q.run (oracleAt ts limit depth) s).1 = A.value q := by
  obtain ⟨inner, hh, _⟩ := exists_heeds limit depth (q.run (oracleAt ts limit depth) s).2 A.tell
  rw [(oracleAt_yields ts limit depth q s hs).2 A.tell inner hA hh]
  exact A.result_eq_value hq hd inner

/-! ## Completing a memory -/

/-- What is remembered, and where nothing is, what the body of the rule gives. -/
def completed (ts : Tokens) (m : Memo) (r : Rule) (i : Nat) : Answer r :=
  if _hi : i < ts.size then
    match m.get? r i with
    | some a => a
    | none =>
      let tell : Answers := fun r' j =>
        if _h : Rule.Before r' j r i then completed ts m r' j else none
      ((r.body ts i).result tell tell).stored ts.size i
  else none
termination_by r.weight ts.size i
decreasing_by exact Rule.weight_lt _hi _h

theorem lt_of_get? {m : Memo} {r : Rule} {i : Nat} {a : Answer r} (h : m.get? r i = some a) :
    i < m.size := by
  obtain ⟨slot, hslot, _⟩ := Option.bind_eq_some_iff.1 h
  rcases Nat.lt_or_ge i m.slots.size with hi | hi
  · exact hi
  · rw [Array.getElem?_eq_none hi] at hslot
    cases hslot

theorem completed_supports {m : Memo} (hm : m.size = ts.size) :
    Supports ts (completed ts m) m where
  past_end r i hi := by rw [completed, dif_neg (by omega)]
  agrees r i a ha := by rw [completed, dif_pos (hm ▸ lt_of_get? ha), ha]

theorem completed_eq_conclude {m : Memo} {r : Rule} {i : Nat} (hi : i < ts.size)
    (h : m.get? r i = none) :
    completed ts m r i = r.conclude ts (completed ts m) (completed ts m) i := by
  rw [completed, dif_pos hi, h]
  rfl

/-- In a parse of less than 2³² tokens, 32 bits hold every length that is remembered. -/
theorem State.Sound.toNat_length (hs : s.Sound ts) (hn : ts.size < UInt32.size) {r : Rule} {i : Nat}
    {a : Answer r} (h : s.memo.get? r i = some a) : (UInt32.ofNat a.length).toNat = a.length := by
  obtain ⟨inner, _, rfl⟩ := hs.explained r i a h _ (completed_supports hs.size)
  exact Answer.toNat_length_stored _ i hn

/-- The memory of a sound state is part of a reading. -/
theorem State.Sound.reading (wm : ts.WellMarked) (hs : s.Sound ts) :
    ∃ A : Reading ts s.refused, Supports ts A.tell s.memo := by
  have hsup := completed_supports hs.size
  refine ⟨Reading.ofConclusions wm hsup.past_end fun r i hi => ?_, hsup⟩
  cases hm : s.memo.get? r i with
  | none => exact ⟨_, Or.inl rfl, completed_eq_conclude hi hm⟩
  | some a =>
    obtain ⟨inner, hinner, he⟩ := hs.explained r i a hm _ hsup
    exact ⟨inner, hinner, (hsup.agrees r i a hm).trans he⟩

/-- An answer is one of a reading. -/
theorem exists_reading_of_answer (wm : ts.WellMarked) (hs : s.Sound ts) (limit : Option Nat)
    (r : Rule) (i depth : Nat) : ∃ A : Reading ts (answer ts limit r i depth s).2.refused,
      (answer ts limit r i depth s).1 = A.tell r i := by
  obtain ⟨A, hA⟩ := (answer_yields ts limit r i depth 0 s hs).1.sound.reading wm
  exact ⟨A, answer_eq_tell hs hA⟩

theorem answer_fits (wm : ts.WellMarked) (hs : s.Sound ts) (r : Rule) (i : Nat) :
    ts.Fits i (answer ts limit r i depth s).1.length := by
  obtain ⟨A, hA⟩ := exists_reading_of_answer wm hs limit r i depth
  rw [hA]
  exact A.fits r i

end LessCss.Parser
