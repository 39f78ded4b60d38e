import LessCss.Proofs.Agreement

/-! How deep a parse can go. Every level of nesting, of a question or of an inside that is built, has
an opener of its own that has a closer and stands before the place where the level starts. So the
depth at a token is at most the number of such openers before it, and a cap with room for all openers
of the stream refuses nothing. -/

namespace LessCss

open Lookahead Grammar

/-- Whether the token opens a bracket and has a closer. -/
def Token.linked (t : Token) : Bool := t.kind.opens?.isSome && t.closer.isSome

namespace Tokens

/-- How many openers of the stream have a closer. -/
def openers (ts : Tokens) : Nat := ts.toList.countP Token.linked

/-- How many of them stand before token `i`. -/
def opened (ts : Tokens) (i : Nat) : Nat := (ts.toList.take i).countP Token.linked

variable {ts : Tokens} {i j o c : Nat} {k : Token.Kind}

theorem opened_le_openers (ts : Tokens) (i : Nat) : ts.opened i ≤ ts.openers :=
  (List.take_sublist i ts.toList).countP_le

theorem opened_mono (h : i ≤ j) : ts.opened i ≤ ts.opened j :=
  (List.take_sublist_take_left h).countP_le

theorem opened_succ (hk : k.opens?.isSome = true) (h : ts.closer? o k = some c) :
    ts.opened (o + 1) = ts.opened o + 1 := by
  obtain ⟨t, ht, hc⟩ := Option.bind_eq_some_iff.1 h
  split at hc
  · next hkind =>
    have hl : t.linked = true := by rw [Token.linked, hkind, hk, hc]; rfl
    rw [opened, List.take_add_one, Array.getElem?_toList, ht, List.countP_append]
    simp [opened, hl]
  · cases hc

/-- Where an inside stands that counts as a level, one more opener has been passed. -/
theorem Entered.opened_lt (h : ts.Entered j) (hij : i < j) : ts.opened i < ts.opened j := by
  obtain ⟨o, k, c, rfl, hk, hc⟩ := h
  rw [opened_succ hk hc]
  exact Nat.lt_succ_of_le (opened_mono (Nat.le_of_lt_succ hij))

end Tokens

/-- The cap has room for as many levels as there are openers. -/
def Tokens.Roomy (ts : Tokens) (limit : Option Nat) : Prop :=
  ∀ depth, depth < ts.openers → Parser.allows limit depth = true

/-! ## Questions further inside -/

/-- How deep a rule can be asked for at token `i`. A body is asked for at its opener, all else behind
the openers that it stands in. -/
def Rule.level (ts : Tokens) : Rule → Nat → Nat
  | .ruleBody, i => ts.opened (i + 1)
  | _, i => ts.opened i

section
variable {α β : Type} {ts : Tokens} {i j d : Nat}

theorem Rule.opened_le_level (r : Rule) (i : Nat) : ts.opened i ≤ r.level ts i := by
  cases r
  case ruleBody => exact Tokens.opened_mono (Nat.le_succ i)
  all_goals exact Nat.le_refl _

theorem Rule.level_le_openers (r : Rule) (i : Nat) : r.level ts i ≤ ts.openers := by
  cases r
  all_goals exact ts.opened_le_openers _

/-- What comes before a rule may be asked for as deep as the rule. -/
theorem Rule.Before.level_le {r r' : Rule} (h : Rule.Before r' j r i) :
    r.level ts i ≤ r'.level ts j := by
  rcases h with hlt | ⟨rfl, hrank⟩
  · have hr : r.level ts i ≤ ts.opened (i + 1) := by
      cases r
      case ruleBody => exact Nat.le_refl _
      all_goals exact Tokens.opened_mono (Nat.le_succ i)
    exact Nat.le_trans hr (Nat.le_trans (Tokens.opened_mono hlt) (r'.opened_le_level j))
  · have hr : r.level ts i = ts.opened i := by
      cases r
      case ruleBody => cases hrank
      all_goals rfl
    exact hr ▸ r'.opened_le_level i

/-- The questions that the program asks further inside stand behind more than `d` openers, and its
result satisfies `F`, whatever answers it gets that stay inside the stream. -/
def Lookahead.Delves (ts : Tokens) (d : Nat) : Lookahead α → (α → Prop) → Prop
  | done a, F => F a
  | query r j next, F => ∀ a : Answer r, ts.Fits j a.length → (next a).Delves ts d F
  | inside r j next, F =>
    d < r.level ts j ∧ ∀ a : Answer r, ts.Fits j a.length → (next a).Delves ts d F
  | distance lo hi next, F => (next (hi - lo)).Delves ts d F

theorem Lookahead.Delves.bind {x : Lookahead α} {f : α → Lookahead β} {R : α → Prop} {F : β → Prop}
    (h : x.Delves ts d R) (hf : ∀ a, R a → (f a).Delves ts d F) : (x >>= f).Delves ts d F := by
  change (x.bind f).Delves ts d F
  induction x with
  | done a => exact hf a h
  | query r j next ih => exact fun a ha => ih a (h a ha)
  | inside r j next ih => exact ⟨h.1, fun a ha => ih a (h.2 a ha)⟩
  | distance lo hi next ih => exact ih _ h

/-- A program that asks nothing further inside. -/
theorem Lookahead.Stays.delves {q : Lookahead α} {s : Scope} {F : α → Prop} (h : q.Stays ts s F)
    (hd : s.deep = false) : q.Delves ts d F := by
  induction q with
  | done a => exact h
  | query r j next ih => exact fun a ha => ih a (h.2 a ha)
  | inside r j next ih => exact absurd (hd.symm.trans h.1) Bool.false_ne_true
  | distance lo hi next ih => exact ih _ h.2

theorem Lookahead.Delves.trivial {q : Lookahead α} {F : α → Prop} (h : q.Delves ts d F) :
    q.Delves ts d fun _ => True := by
  rw [← bind_pure q]
  exact h.bind fun _ _ => True.intro

theorem Lookahead.firstOf_delves {σ : Type} {alts : List (σ × (Nat → Lookahead Nat))}
    (h : ∀ a ∈ alts, (a.2 j).Delves ts d fun _ => True) :
    (firstOf j alts).Delves ts d fun _ => True := by
  induction alts with
  | nil => exact True.intro
  | cons a rest ih =>
    obtain ⟨shape, scan⟩ := a
    refine Delves.bind (h (shape, scan) (List.mem_cons_self ..)) fun n _ => ?_
    cases Match.of? n shape with
    | none => exact ih fun a ha => h a (List.mem_cons_of_mem _ ha)
    | some m => exact True.intro

/-- The scope of the questions of a production at token `i` that asks nothing further inside. -/
def Lookahead.Scope.flat (i : Nat) : Scope := ⟨i, Rule.ranks, false⟩

theorem rulesRuleLength_delves (ts : Tokens) (i : Nat) :
    (rulesRuleLength ts i).Delves ts (ts.opened i) fun _ => True := by
  unfold rulesRuleLength
  refine Delves.bind ((atRuleHead_stays (s := .flat i) (Nat.le_refl i)).delves rfl) fun x hx => ?_
  split
  · exact True.intro
  · next k =>
    have hk := hx k rfl
    split
    · exact True.intro
    · next c hc =>
      have hlevel : ts.opened i < Rule.level ts .ruleBody k :=
        Tokens.Entered.opened_lt ⟨k, .leftCurly, c, rfl, rfl, hc⟩ (by omega)
      refine Delves.bind (R := fun _ => True) ⟨hlevel, fun _ _ => True.intro⟩ fun n _ => ?_
      split <;> exact True.intro

theorem atRuleMatch_delves (wm : ts.WellMarked) (i : Nat) :
    (atRuleMatch ts i).Delves ts (ts.opened i) fun _ => True := by
  refine firstOf_delves ?_
  simp only [List.forall_mem_cons, List.not_mem_nil, false_imp_iff, implies_true, and_true]
  have hi : (Scope.flat i).origin ≤ i := Nat.le_refl i
  exact ⟨((keyframesRuleLength_measures wm hi).delves rfl).trivial, rulesRuleLength_delves ts i,
    ((blockRuleLength_measures wm hi).delves rfl).trivial,
    ((bareRuleLength_measures hi).delves rfl).trivial⟩

theorem pseudoForm_delves {o c : Nat} {forms : List (PseudoShape × (Nat → Lookahead Nat))}
    (h : ∀ f ∈ forms, (f.2 o).Delves ts d fun _ => True) :
    (pseudoForm o c forms).Delves ts d fun _ => True := by
  induction forms with
  | nil => exact True.intro
  | cons f rest ih =>
    obtain ⟨shape, scan⟩ := f
    refine Delves.bind (h (shape, scan) (List.mem_cons_self ..)) fun n _ => ?_
    refine Delves.bind (R := fun _ => True) True.intro fun m _ => ?_
    split
    · exact True.intro
    · exact ih fun f hf => h f (List.mem_cons_of_mem _ hf)

theorem pseudoSelectorsLength_delves (wm : ts.WellMarked) {o c : Nat} (hio : i ≤ o)
    (hc : ts.closer? o .leftParen = some c) :
    (pseudoSelectorsLength ts o).Delves ts (ts.opened i) fun _ => True := by
  unfold pseudoSelectorsLength
  have hlevel : ts.opened i < Rule.level ts .selectorGroup (o + 1) :=
    Tokens.Entered.opened_lt ⟨o, .leftParen, c, rfl, rfl, hc⟩ (by omega)
  refine Delves.bind (R := fun _ => True) ⟨hlevel, fun _ _ => True.intro⟩ fun n _ => ?_
  split
  · exact True.intro
  · exact ((closedAt_measures (s := .top) wm).delves rfl).trivial

theorem pseudoClassMatch_delves (wm : ts.WellMarked) (i : Nat) :
    (pseudoClassMatch ts i).Delves ts (ts.opened i) fun _ => True := by
  have hbare : (pseudoBareMatch i).Delves ts (ts.opened i) fun _ => True :=
    ((pseudoBareMatch_matches (s := .flat i) (Nat.le_refl i)).delves rfl).trivial
  unfold pseudoClassMatch
  split
  · exact True.intro
  refine Delves.bind (R := fun _ => True) (fun _ _ => True.intro) fun name _ => ?_
  dsimp only
  split
  · exact hbare
  · next c hc =>
    split at hc
    · have ho : (Scope.flat i).origin ≤ i + 1 + name := by change i ≤ _; omega
      refine Delves.bind (pseudoForm_delves ?_) fun x _ => ?_
      · simp only [pseudoForms, List.forall_mem_cons, List.not_mem_nil, false_imp_iff,
          implies_true, and_true]
        exact ⟨((nthFormulaLength_measures wm ho).delves rfl).trivial,
          ((nthMultipleLength_measures wm ho).delves rfl).trivial,
          ((nthOffsetLength_measures wm ho).delves rfl).trivial,
          pseudoSelectorsLength_delves wm ho hc,
          ((pseudoIdentLength_measures wm ho).delves rfl).trivial⟩
      · split
        · exact True.intro
        · exact hbare
    · cases hc

/-- A body asks further inside only where more openers have been passed than at its own token. -/
theorem Rule.body_delves (wm : ts.WellMarked) (r : Rule) (hi : i < ts.size) :
    (r.body ts i).Delves ts (r.level ts i) fun _ => True := by
  cases hr : r.nests with
  | false => exact ((Rule.body_stays wm r hi).delves hr).trivial
  | true =>
    cases r
    case atRule => exact atRuleMatch_delves wm i
    case pseudoClass => exact pseudoClassMatch_delves wm i
    all_goals cases hr

end

namespace Parser

variable {α : Type} {ts : Tokens} {limit : Option Nat} {i j depth n : Nat} {s : State}

/-! ## Looking ahead under a cap with room -/

/-- Asking does not refuse anything. -/
def Spares (ts : Tokens) (x : StateM State α) : Prop :=
  ∀ s : State, s.Sound ts → s.refused = false → (x s).2.Sound ts ∧ (x s).2.refused = false

/-- The answers that an oracle gives stay inside the stream, and nothing is refused. -/
structure Answering (ts : Tokens) {r : Rule} (j : Nat) (x : StateM State (Answer r)) : Prop where
  spares : Spares ts x
  fits : ∀ s : State, s.Sound ts → ts.Fits j (x s).1.length

theorem answering_none {r : Rule} (j : Nat) :
    Answering ts j (return none : StateM State (Answer r)) :=
  ⟨fun _ hs hr => ⟨hs, hr⟩, fun _ _ => Tokens.fits_zero ts j⟩

theorem run_spares {o : Oracle (StateM State)} (hq : ∀ r j, Answering ts j (o.query r j))
    (hi : ∀ r j, depth < r.level ts j → Answering ts j (o.inside r j)) {q : Lookahead α}
    {F : α → Prop} (h : q.Delves ts depth F) : Spares ts (q.run o) := by
  induction q with
  | done a => exact fun _ hs hr => ⟨hs, hr⟩
  | query r j next ih =>
    intro s hs hr
    obtain ⟨hs', hr'⟩ := (hq r j).spares s hs hr
    exact ih _ (h _ ((hq r j).fits s hs)) _ hs' hr'
  | inside r j next ih =>
    intro s hs hr
    obtain ⟨hs', hr'⟩ := (hi r j h.1).spares s hs hr
    exact ih _ (h.2 _ ((hi r j h.1).fits s hs)) _ hs' hr'
  | distance lo hi next ih => exact ih _ h

theorem answer_answering (wm : ts.WellMarked) (hroom : ts.Roomy limit) (r : Rule) (i depth : Nat)
    (hd : depth ≤ r.level ts i) : Answering ts i (answer ts limit r i depth) := by
  refine ⟨fun s hs hr => ⟨(answer_yields ts limit r i depth 0 s hs).1.sound, ?_⟩,
    fun s hs => answer_fits wm hs r i⟩
  generalize hw : r.weight ts.size i = w
  induction w using Nat.strongRecOn generalizing r i depth s with
  | ind w ih =>
    subst hw
    rcases Nat.lt_or_ge i ts.size with hi | hi
    · cases hm : s.memo.get? r i with
      | some a => rwa [answer_remembered hi hm]
      | none =>
        rw [answer_fresh hi hm]
        have hbefore : ∀ r' j d, (Rule.Before r' j r i → d ≤ r'.level ts j) → Answering ts j
            (if Rule.Before r' j r i then answer ts limit r' j d else return none) := by
          intro r' j d hd'
          by_cases hb : Rule.Before r' j r i
          · rw [if_pos hb]
            exact ⟨fun s hs hr => ⟨(answer_yields ts limit r' j d 0 s hs).1.sound,
              ih _ (Rule.weight_lt hi hb) r' j d (hd' hb) s hs hr rfl⟩,
              fun s hs => answer_fits wm hs r' j⟩
          · rw [if_neg hb]
            exact answering_none j
        refine (run_spares (fun r' j => ?_) (fun r' j hlevel => ?_) (r.body_delves wm hi) s hs hr).2
        · exact hbefore r' j depth fun hb => Nat.le_trans hd hb.level_le
        · have hallowed : allows limit depth = true :=
            hroom depth (Nat.lt_of_le_of_lt hd (Nat.lt_of_lt_of_le hlevel (r'.level_le_openers j)))
          simp only [bodyOracle, hallowed, if_true]
          exact hbefore r' j (depth + 1) fun _ => Nat.lt_of_le_of_lt hd hlevel
    · rwa [answer_past_end hi]

/-- Looking ahead from outside all brackets. -/
theorem oracle_spares (wm : ts.WellMarked) (hroom : ts.Roomy limit) {q : Lookahead α} {σ : Scope}
    {F : α → Prop} (hq : q.Stays ts σ F) (hd : σ.deep = false) :
    Spares ts (q.run (oracle ts limit)) := by
  have hdelves : q.Delves ts ts.openers F := hq.delves hd
  refine run_spares (fun r j => ?_) (fun r j hlevel => ?_) hdelves
  · exact answer_answering wm hroom r j 0 (Nat.zero_le _)
  · exact absurd (r.level_le_openers j) (Nat.not_le_of_lt hlevel)

/-! ## Building under a cap with room -/

section
variable {capped : Bool} {A : Reading ts capped} {E : Nat → Prop} {lo : Nat}

/-- Building refuses nothing and does not fail for the cap, if the reading agrees with what is
remembered in the end. -/
def Unhindered (A : Reading ts capped) (x : Action α) : Prop :=
  ∀ s : State, s.Sound ts → Supports ts A.tell (x.run s).2.memo → s.refused = false →
    (x.run s).2.refused = false ∧ (x.run s).1 ≠ .error .nestingTooDeep

theorem run_plan_unhindered {build : Interior → Nat → Action (List Node × Nat)} {Q : α → Prop}
    (wm : ts.WellMarked) (hroom : ts.Roomy limit)
    (hg : ∀ part j s, s.Sound ts → Grows ts limit s ((build part j).run s).2)
    (hb : ∀ part j, lo < j → j ≤ ts.size → part.Ready A j →
      Delivers A E (build part j) (part.Filled A j) ∧ Unhindered A (build part j))
    {p : Plan α} (h : p.Meets A E lo Q) : Unhindered A (p.run (host ts limit build)) := by
  induction p with
  | done a => exact fun s _ _ hr => ⟨hr, fun h => nomatch h⟩
  | fail i => exact fun s _ _ hr => ⟨hr, fun h => nomatch h⟩
  | look q next ih =>
    intro s hs hA hr
    obtain ⟨⟨F, hq⟩, hnext⟩ := h
    obtain ⟨hs', hr'⟩ := oracle_spares wm hroom hq rfl s hs hr
    have hrest := run_plan_grows hg (next (q.run (oracle ts limit) s).1) hs'
    have hn : (q.run (oracle ts limit) s).1 = A.value q :=
      oracleAt_run_eq hs hq rfl A (hA.mono hrest.keeps)
    rw [← hn] at hnext
    exact ih _ hnext _ hs' hA hr'
  | ask r i next ih =>
    intro s hs hA hr
    obtain ⟨hs', hr'⟩ := (answer_answering wm hroom r i 0 (Nat.zero_le _)).spares s hs hr
    have hrest := run_plan_grows hg (next (answer ts limit r i 0 s).1) hs'
    have ha : (answer ts limit r i 0 s).1 = A.tell r i := answer_eq_tell hs (hA.mono hrest.keeps)
    rw [Plan.Meets, ← ha] at h
    exact ih _ h _ hs' hA hr'
  | build part i next ih =>
    intro s hs hA hr
    obtain ⟨⟨hlo, hi, hready⟩, hnext⟩ := h
    obtain ⟨hdelivers, hfree⟩ := hb part i hlo hi hready
    have hgrow := hg part i s hs
    change Supports ts A.tell ((build part i >>= fun x => (next x).run _).run s).2.memo at hA
    change ((build part i >>= fun x => (next x).run _).run s).2.refused = false ∧
      ((build part i >>= fun x => (next x).run _).run s).1 ≠ _
    rw [run_bind] at hA ⊢
    cases hres : ((build part i).run s).1 with
    | ok x =>
      rw [hres] at hA
      have hrest := run_plan_grows hg (next x) hgrow.sound
      obtain ⟨hr', _⟩ := hfree s hs (hA.mono hrest.keeps) hr
      obtain ⟨_, hout⟩ := hdelivers s hs (hA.mono hrest.keeps)
      rw [hres] at hout
      exact ih x (hnext x hout) _ hgrow.sound hA hr'
    | error e =>
      rw [hres] at hA
      obtain ⟨hr', hne⟩ := hfree s hs hA hr
      rw [hres] at hne
      exact ⟨hr', fun h => hne (congrArg Except.error (Except.error.inj h))⟩
  | check holds next ih =>
    intro s hs hA hr
    have hc : Grows ts limit s (check holds s).2 := check_grows holds hs
    exact ih h.2 _ hc.sound hA hr
  | made node next ih => exact ih h.2

/-- An inside that counts as a level stands behind one more opener. -/
theorem opened_of_ready {part : Interior} (h : part.Ready A j) (hij : i < j) :
    ts.opened i + part.nests.toNat ≤ ts.opened j := by
  cases part with
  | group | arguments _ | block _ => exact Tokens.Entered.opened_lt h hij
  | rules close =>
    obtain ⟨o, rfl, hc, _⟩ := h
    exact Tokens.Entered.opened_lt ⟨o, .leftCurly, close, rfl, rfl, hc⟩ hij
  | keyframes close =>
    obtain ⟨o, rfl, hc, _⟩ := h
    exact Tokens.Entered.opened_lt ⟨o, .leftCurly, close, rfl, rfl, hc⟩ hij
  | selectors | var => exact Tokens.opened_mono (Nat.le_of_lt hij)

theorem construct_unhindered (wm : ts.WellMarked) (hE : ∀ j, ts.Deferred j → E j)
    (hroom : ts.Roomy limit) (part : Interior) (i depth : Nat) (hready : part.Ready A i)
    (hd : depth + part.nests.toNat ≤ ts.opened i) :
    Unhindered A (construct ts limit part i depth) := by
  generalize hn : ts.size - i = n
  induction n using Nat.strongRecOn generalizing part i depth with
  | ind n ih =>
    have hle := ts.opened_le_openers i
    have hallowed : ¬ (part.nests && !allows limit depth) = true := by
      intro h
      rw [Bool.and_eq_true] at h
      rw [h.1] at hd
      rw [hroom depth (Nat.lt_of_lt_of_le hd hle)] at h
      cases h.2
    have hdepth : (if part.nests = true then depth + 1 else depth) ≤ ts.opened i := by
      cases hp : part.nests <;> simpa [hp] using hd
    rw [construct, if_neg hallowed]
    refine run_plan_unhindered wm hroom (fun part' j s hs => ?_) (fun part' j hlo hj hr => ?_)
      (content_runs wm hE part i hready)
    · split
      · exact construct_grows part' j _ hs
      · exact .refl hs
    · rw [dif_pos ⟨hlo, hj⟩]
      refine ⟨construct_delivers (content_runs wm hE) part' j _ hr,
        ih _ (by omega) part' j _ hr ?_ rfl⟩
      exact Nat.le_trans (Nat.add_le_add_right hdepth _) (opened_of_ready hr hlo)

end

/-- A start symbol that covers a whole stream is built without hindrance. -/
theorem build_unhindered (wm : ts.WellMarked) (hroom : ts.Roomy limit) (hne : 0 < ts.size)
    {start : Symbol} (hall : ts.size ≤ (measured ts limit start).1)
    (hr : (measured ts limit start).2.refused = false) :
    ((build ts limit start).run (measured ts limit start).2).2.refused = false ∧
      ((build ts limit start).run (measured ts limit start).2).1 ≠ .error .nestingTooDeep := by
  have hg := (oracle_yields ts limit (start.length ts 0) _ (start_sound ts)).1
  obtain ⟨A, hA, hv⟩ := exists_reading_of_build wm limit start
  have hmeets := start.build_runs (A := A) (i := 0) wm (by omega)
  refine run_plan_unhindered (E := fun _ => True) wm hroom
    (fun part j _ hs => construct_grows part j 0 hs) (fun part j hlo _ hready => ?_) hmeets _ hg.sound
    hA hr
  have hdepth := opened_of_ready hready hlo
  exact ⟨construct_delivers (content_runs wm fun _ _ => trivial) part j 0 hready,
    construct_unhindered wm (fun _ _ => trivial) hroom part j 0 hready (by omega)⟩

/-- Under a cap with room for all openers no parse fails for the cap. -/
theorem parse_ne_nestingTooDeep (wm : ts.WellMarked) (hroom : ts.Roomy limit) (start : Symbol) :
    LessCss.parse ts limit start ≠ .error .nestingTooDeep := by
  unfold LessCss.parse
  split
  · unfold parseEmpty
    split <;> exact fun h => nomatch h
  next hempty =>
  have hne : 0 < ts.size := by
    simpa [Nat.pos_iff_ne_zero] using hempty
  have hr : (measured ts limit start).2.refused = false :=
    (oracle_spares wm hroom (start.length_measures wm 0) rfl _ (start_sound ts) rfl).2
  have hmeasured : (start.length ts 0).run (oracle ts limit) (.start ts.size) =
      measured ts limit start := rfl
  change ((Parser.parse ts limit start).run (.start ts.size)).1 ≠ _
  rw [Parser.parse, run_lift_bind, hmeasured, run_checkRefused_bind hr]
  by_cases hn : (measured ts limit start).1 < ts.size
  · rw [if_pos hn]
    exact fun h => nomatch h
  obtain ⟨hr', hbuilt⟩ := build_unhindered wm hroom hne (Nat.le_of_not_lt hn) hr
  rw [if_neg hn, run_lift_bind, run_checkRefused_bind hr', run_bind]
  split
  · exact fun h => nomatch h
  · next e he =>
    have he' : ((build ts limit start).run (measured ts limit start).2).1 = .error e := he
    exact fun h => hbuilt (he'.trans (congrArg Except.error (Except.error.inj h)))

end Parser

end LessCss
