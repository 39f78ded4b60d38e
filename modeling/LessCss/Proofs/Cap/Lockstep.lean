import LessCss.Proofs.Run

/-! Two caps in lockstep. Under a laxer cap a parse does the same steps, with the same memory, as
long as the stricter cap refuses nothing. From there on the two may differ in all that they find,
wrong answers remembered under the stricter cap included; but then the stricter one carries the mark
of a refusal, and its parse fails for that reason alone. -/

namespace LessCss.Parser

open Lookahead

/-- What the first cap allows, the second one allows too. -/
def Laxer (limit limit' : Option Nat) : Prop :=
  ∀ depth, allows limit depth = true → allows limit' depth = true

theorem laxer_none (limit : Option Nat) : Laxer limit none := fun _ _ => rfl

theorem laxer_some {n m : Nat} (h : n ≤ m) : Laxer (some n) (some m) := by
  intro depth hd
  simp only [allows, Option.all_some, decide_eq_true_eq] at hd ⊢
  omega

variable {α β : Type} {ts : Tokens} {limit limit' : Option Nat} {s : State}

/-! ## Looking ahead -/

/-- The second action does what the first one does, from every sound state from which the first one
ends without a mark. -/
structure Follows (ts : Tokens) (limit : Option Nat) (x x' : StateM State α) : Prop where
  grows : ∀ s : State, s.Sound ts → Grows ts limit s (x s).2
  same : ∀ s : State, s.Sound ts → (x s).2.refused = false → x' s = x s

theorem Grows.not_refused {s' : State} (h : Grows ts limit s s') (hr : s'.refused = false) :
    s.refused = false := by
  cases hs : s.refused with
  | false => rfl
  | true =>
    rw [h.refused hs] at hr
    cases hr

theorem follows_pure (a : α) : Follows ts limit (pure a) (pure a) :=
  ⟨fun _ hs => .refl hs, fun _ _ _ => rfl⟩

theorem Follows.bind {x x' : StateM State α} {f f' : α → StateM State β}
    (hx : Follows ts limit x x') (hf : ∀ a, Follows ts limit (f a) (f' a)) :
    Follows ts limit (x >>= f) (x' >>= f') where
  grows s hs := (hx.grows s hs).trans ((hf _).grows _ (hx.grows s hs).sound)
  same s hs hr := by
    have hg := hx.grows s hs
    have hrest := (hf (x s).1).grows _ hg.sound
    have hfirst := hx.same s hs (hrest.not_refused hr)
    change f' (x' s).1 (x' s).2 = f (x s).1 (x s).2
    rw [hfirst]
    exact (hf _).same _ hg.sound hr

/-- What refuses is followed by anything. -/
theorem follows_refuse {r : Rule} {depth : Nat} (h : allows limit depth = false)
    (x' : StateM State (Answer r)) : Follows ts limit refuse x' where
  grows s hs := (refuse_yields (w := 0) 0 h s hs).1.toGrows
  same _ _ hr := nomatch hr

theorem run_follows {o o' : Oracle (StateM State)}
    (hq : ∀ r j, Follows ts limit (o.query r j) (o'.query r j))
    (hi : ∀ r j, Follows ts limit (o.inside r j) (o'.inside r j)) (q : Lookahead α) :
    Follows ts limit (q.run o) (q.run o') := by
  induction q with
  | done a => exact follows_pure a
  | query r j next ih => exact (hq r j).bind ih
  | inside r j next ih => exact (hi r j).bind ih
  | distance lo hi next ih => exact ih _

/-- A question further inside is followed under a laxer cap, whether it is refused or not. -/
theorem follows_inside {r : Rule} {depth : Nat} {x x' : StateM State (Answer r)}
    (hl : Laxer limit limit') (h : Follows ts limit x x') :
    Follows ts limit (if allows limit depth then x else refuse)
      (if allows limit' depth then x' else refuse) := by
  by_cases ha : allows limit depth = true
  · rw [if_pos ha, if_pos (hl depth ha)]
    exact h
  · rw [if_neg ha]
    exact follows_refuse (Bool.eq_false_iff.2 ha) _

theorem answer_follows (hl : Laxer limit limit') (r : Rule) (i depth : Nat) :
    Follows ts limit (answer ts limit r i depth) (answer ts limit' r i depth) := by
  refine ⟨fun s hs => (answer_yields ts limit r i depth 0 s hs).1.toGrows, fun s hs => ?_⟩
  generalize hw : r.weight ts.size i = w
  induction w using Nat.strongRecOn generalizing r i depth s with
  | ind w ih =>
    subst hw
    intro hr
    rcases Nat.lt_or_ge i ts.size with hi | hi
    · cases hm : s.memo.get? r i with
      | some a => rw [answer_remembered hi hm, answer_remembered hi hm]
      | none =>
        -- the questions of the body come before the rule's own
        have hbefore : ∀ r' j d, Follows ts limit
            (if Rule.Before r' j r i then answer ts limit r' j d else return none)
            (if Rule.Before r' j r i then answer ts limit' r' j d else return none) := by
          intro r' j d
          by_cases hb : Rule.Before r' j r i
          · rw [if_pos hb, if_pos hb]
            exact ⟨fun s hs => (answer_yields ts limit r' j d 0 s hs).1.toGrows,
              fun s hs => ih _ (Rule.weight_lt hi hb) r' j d s hs rfl⟩
          · rw [if_neg hb, if_neg hb]
            exact follows_pure none
        have hbody : Follows ts limit ((r.body ts i).run (bodyOracle ts limit r i depth))
            ((r.body ts i).run (bodyOracle ts limit' r i depth)) :=
          run_follows (fun r' j => hbefore r' j depth)
            (fun r' j => follows_inside hl (hbefore r' j (depth + 1))) (r.body ts i)
        rw [answer_fresh hi hm] at hr ⊢
        rw [answer_fresh hi hm, hbody.same s hs hr]
    · rw [answer_past_end hi, answer_past_end hi]

theorem oracle_follows (hl : Laxer limit limit') (q : Lookahead α) :
    Follows ts limit (q.run (oracle ts limit)) (q.run (oracle ts limit')) :=
  run_follows (fun r j => answer_follows hl r j 0)
    (fun r j => follows_inside hl (answer_follows hl r j 1)) q

/-! ## Building -/

/-- The second action does what the first one does, from every sound state from which the first one
ends without a mark and does not fail for the cap. -/
structure Traces (ts : Tokens) (limit : Option Nat) (x x' : Action α) : Prop where
  grows : ∀ s : State, s.Sound ts → Grows ts limit s (x.run s).2
  same : ∀ s : State, s.Sound ts → (x.run s).2.refused = false →
    (x.run s).1 = .error .nestingTooDeep ∨ x'.run s = x.run s

theorem traces_refl {x : Action α} (h : ∀ s : State, s.Sound ts → Grows ts limit s (x.run s).2) :
    Traces ts limit x x := ⟨h, fun _ _ _ => Or.inr rfl⟩

theorem Follows.traces_bind {x x' : StateM State α} {f f' : α → Action β}
    (hx : Follows ts limit x x') (hf : ∀ a, Traces ts limit (f a) (f' a)) :
    Traces ts limit (ExceptT.lift x >>= f) (ExceptT.lift x' >>= f') where
  grows s hs := (hx.grows s hs).trans ((hf _).grows _ (hx.grows s hs).sound)
  same s hs hr := by
    have hg := hx.grows s hs
    rw [run_lift_bind] at hr
    have hrest := (hf (x s).1).grows _ hg.sound
    rw [run_lift_bind, run_lift_bind, hx.same s hs (hrest.not_refused hr)]
    exact (hf _).same _ hg.sound hr

theorem Traces.bind {x x' : Action α} {f f' : α → Action β} (hx : Traces ts limit x x')
    (hf : ∀ a, Traces ts limit (f a) (f' a)) : Traces ts limit (x >>= f) (x' >>= f') where
  grows s hs := by
    have hg := hx.grows s hs
    rw [run_bind]
    split
    · exact hg.trans ((hf _).grows _ hg.sound)
    · exact hg
  same s hs hr := by
    have hg := hx.grows s hs
    rw [run_bind] at hr ⊢
    cases hres : (x.run s).1 with
    | ok a =>
      rw [hres] at hr
      have hrest := (hf a).grows _ hg.sound
      rcases hx.same s hs (hrest.not_refused hr) with hdeep | heq
      · rw [hres] at hdeep
        cases hdeep
      · rw [run_bind, heq, hres]
        exact (hf a).same _ hg.sound hr
    | error e =>
      rw [hres] at hr
      rcases hx.same s hs hr with hdeep | heq
      · rw [hres] at hdeep
        cases hdeep
        exact Or.inl rfl
      · rw [run_bind, heq, hres]
        exact Or.inr rfl

theorem run_plan_traces {build build' : Interior → Nat → Action (List Node × Nat)}
    (hl : Laxer limit limit') (hb : ∀ part j, Traces ts limit (build part j) (build' part j))
    (p : Plan α) : Traces ts limit (p.run (host ts limit build)) (p.run (host ts limit' build')) := by
  induction p with
  | done a =>
    change Traces ts limit (pure a) (pure a)
    exact traces_refl fun _ hs => .refl hs
  | fail i =>
    change Traces ts limit (throw (ts.unexpected i)) (throw (ts.unexpected i))
    exact traces_refl fun _ hs => .refl hs
  | look q next ih => exact (oracle_follows hl q).traces_bind ih
  | ask r i next ih => exact (answer_follows hl r i 0).traces_bind ih
  | build part i next ih => exact (hb part i).bind ih
  | check holds next ih =>
    have hc : Follows ts limit (check holds) (check holds) :=
      ⟨fun _ hs => check_grows holds hs, fun _ _ _ => rfl⟩
    exact hc.traces_bind fun _ => ih
  | made node next ih => exact ih

theorem construct_traces (hl : Laxer limit limit') (part : Interior) (i depth : Nat) :
    Traces ts limit (construct ts limit part i depth) (construct ts limit' part i depth) := by
  generalize hn : ts.size - i = n
  induction n using Nat.strongRecOn generalizing part i depth with
  | ind n ih =>
    rw [construct, construct]
    by_cases hdeep : (part.nests && !allows limit depth) = true
    · rw [if_pos hdeep]
      exact ⟨fun _ hs => .refl hs, fun _ _ _ => Or.inl rfl⟩
    · have hdeep' : ¬ (part.nests && !allows limit' depth) = true := by
        intro h
        simp only [Bool.and_eq_true, Bool.not_eq_true'] at h hdeep
        refine hdeep ⟨h.1, Bool.eq_false_iff.2 fun ha => ?_⟩
        rw [hl depth ha] at h
        cases h.2
      rw [if_neg hdeep, if_neg hdeep']
      refine run_plan_traces hl (fun part' j => ?_) _
      split
      · exact ih _ (by omega) part' j _ rfl
      · exact traces_refl fun _ hs => .refl hs

theorem build_traces (hl : Laxer limit limit') (start : Symbol) :
    Traces ts limit (build ts limit start) (build ts limit' start) :=
  run_plan_traces hl (fun part j => construct_traces hl part j 0) (start.build ts 0)

/-! ## Whole parses -/

theorem not_refused_of_ne {f : Unit → Action α}
    (h : ((checkRefused >>= f).run s).1 ≠ .error .nestingTooDeep) : s.refused = false := by
  cases hr : s.refused with
  | false => rfl
  | true =>
    rw [run_checkRefused_of_refused hr] at h
    exact absurd rfl h

theorem ne_of_mk_bind {y : Except Error α} {f : α → Action β} {e : Error}
    (h : ((ExceptT.mk (pure y) >>= f : Action β).run s).1 ≠ .error e) : y ≠ .error e := by
  rintro rfl
  exact h rfl

/-- A parse that does not fail for its cap goes the same way under a laxer one. -/
theorem parse_lockstep (hl : Laxer limit limit') {start : Symbol}
    (h : ((Parser.parse ts limit start).run (.start ts.size)).1 ≠ .error .nestingTooDeep) :
    (Parser.parse ts limit' start).run (.start ts.size) =
      (Parser.parse ts limit start).run (.start ts.size) := by
  have hs := start_sound ts
  have hmeasure : Follows ts limit _ _ := oracle_follows hl (start.length ts 0)
  rw [Parser.parse, run_lift_bind] at h ⊢
  have hr := not_refused_of_ne h
  rw [Parser.parse, run_lift_bind, hmeasure.same _ hs hr]
  have hsound := (hmeasure.grows _ hs).sound
  generalize (start.length ts 0).run (oracle ts limit) (.start ts.size) = x at h hr hsound ⊢
  rw [run_checkRefused_bind hr] at h ⊢
  rw [run_checkRefused_bind hr]
  by_cases hn : x.1 < ts.size
  · rw [if_pos hn, if_pos hn]
  · rw [if_neg hn, run_lift_bind] at h ⊢
    rw [if_neg hn, run_lift_bind]
    have hr' := not_refused_of_ne h
    rw [run_checkRefused_bind hr'] at h
    rcases (build_traces hl start).same x.2 hsound hr' with hdeep | hsame
    · exact absurd hdeep (ne_of_mk_bind h)
    · rw [hsame]

theorem parse_eq_of_laxer (hl : Laxer limit limit') {start : Symbol}
    (h : LessCss.parse ts limit start ≠ .error .nestingTooDeep) :
    LessCss.parse ts limit' start = LessCss.parse ts limit start := by
  unfold LessCss.parse at h ⊢
  split at h
  · next hempty => rw [if_pos hempty, if_pos hempty]
  · next hempty =>
    rw [if_neg hempty, if_neg hempty]
    exact congrArg Prod.fst (parse_lockstep hl h)

end LessCss.Parser
