import LessCss.Proofs.Links
import LessCss.Proofs.Run

/-! The memory is transparent. Without a cap on nesting, what is remembered of a rule at a token is
the meaning of the rule there, in every state that a parse can reach. So looking ahead and building
give the same from all these states, and a parse gives what the plain functions of the stream
give. -/

namespace LessCss.Parser

open Lookahead

variable {α : Type} {ts : Tokens} {s : State}

/-- The answers of the rules. -/
abbrev meanings (ts : Tokens) : Answers := fun r i => r.meaning ts i

theorem tell_eq_meanings (wm : ts.WellMarked) (A : Reading ts false) : A.tell = meanings ts := by
  funext r i
  exact A.tell_eq_meaning wm r i

/-- A program gives in every reading what it gives by the meaning of the rules. -/
theorem value_eq_eval (wm : ts.WellMarked) (A : Reading ts false) (q : Lookahead α) :
    A.value q = q.eval ts := by
  rw [Reading.value, tell_eq_meanings wm A]
  rfl

/-- Where nothing was refused, the meaning of the rules agrees with what is remembered. -/
theorem meanings_supports (wm : ts.WellMarked) (hs : s.Sound ts) (hr : s.refused = false) :
    Supports ts (meanings ts) s.memo := by
  have hread := hs.reading wm
  rw [hr] at hread
  obtain ⟨A, hA⟩ := hread
  rw [← tell_eq_meanings wm A]
  exact hA

/-- The meaning of the rules is a reading. -/
theorem exists_plain_reading (wm : ts.WellMarked) :
    ∃ A : Reading ts false, A.tell = meanings ts := by
  obtain ⟨A, -⟩ := (start_sound ts).reading wm
  exact ⟨A, tell_eq_meanings wm A⟩

theorem meaning_eq_eval (wm : ts.WellMarked) (r : Rule) {i : Nat} (hi : i < ts.size) :
    r.meaning ts i = (r.body ts i).eval ts := by
  obtain ⟨A, hm⟩ := exists_plain_reading wm
  obtain ⟨inner, hinner, he⟩ := A.explains r i hi
  have hin : inner = A.tell := hinner.resolve_right fun h => nomatch h.1
  rw [hin, hm] at he
  exact he

/-! ## Looking ahead -/

theorem answer_eq_meaning (wm : ts.WellMarked) (hs : s.Sound ts) (hr : s.refused = false) (r : Rule)
    (i depth : Nat) : (answer ts none r i depth s).1 = r.meaning ts i := by
  obtain ⟨he, hv⟩ := answer_yields ts none r i depth 0 s hs
  exact hv _ _ (meanings_supports wm he.sound ((he.uncapped rfl).trans hr)) rfl

theorem oracle_run_eq_eval (wm : ts.WellMarked) (hs : s.Sound ts) (hr : s.refused = false)
    (q : Lookahead α) (depth : Nat) : (q.run (oracleAt ts none depth) s).1 = q.eval ts := by
  obtain ⟨he, hv⟩ := oracleAt_yields ts none depth q s hs
  exact hv _ _ (meanings_supports wm he.sound ((he.uncapped rfl).trans hr)) rfl

/-! ## Building -/

theorem run_plan_eq {build : Interior → Nat → Action (List Node × Nat)}
    {plain : Interior → Nat → Except Error (List Node × Nat)} (wm : ts.WellMarked)
    (hg : ∀ part j s, s.Sound ts → Grows ts none s ((build part j).run s).2)
    (hb : ∀ part j s, s.Sound ts → s.refused = false → ((build part j).run s).1 = plain part j)
    (p : Plan α) (hs : s.Sound ts) (hr : s.refused = false) :
    ((p.run (host ts none build)).run s).1 = p.run (Plan.plainHost ts plain) := by
  induction p generalizing s with
  | done a => rfl
  | fail i => rfl
  | look q next ih =>
    have he := (oracle_yields ts none q s hs).1
    have hn : (q.run (oracle ts none) s).1 = q.eval ts := oracle_run_eq_eval wm hs hr q 0
    exact (ih _ he.sound ((he.uncapped rfl).trans hr)).trans
      (congrArg (fun n => (next n).run (Plan.plainHost ts plain)) hn)
  | ask r i next ih =>
    have he := (answer_yields ts none r i 0 0 s hs).1
    have ha := answer_eq_meaning wm hs hr r i 0
    exact (ih _ he.sound ((he.uncapped rfl).trans hr)).trans
      (congrArg (fun a => (next a).run (Plan.plainHost ts plain)) ha)
  | build part i next ih =>
    have hgrow := hg part i s hs
    have heq := hb part i s hs hr
    change ((build part i >>= fun x => (next x).run _).run s).1 =
      plain part i >>= fun x => (next x).run (Plan.plainHost ts plain)
    rw [run_bind, ← heq]
    split
    · next a ha =>
      rw [ha]
      exact ih _ hgrow.sound ((hgrow.uncapped rfl).trans hr)
    · next e ha =>
      rw [ha]
      rfl
  | check holds next ih =>
    have hc : Grows ts none s (check holds s).2 := check_grows holds hs
    exact ih hc.sound ((hc.uncapped rfl).trans hr)
  | made node next ih => exact ih hs hr

theorem construct_eq_meaning (wm : ts.WellMarked) (part : Interior) (i depth : Nat)
    (hs : s.Sound ts) (hr : s.refused = false) :
    ((construct ts none part i depth).run s).1 = part.meaning ts i := by
  generalize hn : ts.size - i = n
  induction n using Nat.strongRecOn generalizing part i depth s with
  | ind n ih =>
    have hnot : ¬ ((part.nests && !allows none depth) = true) := by
      cases part.nests <;> simp [allows]
    rw [construct, Interior.meaning, if_neg hnot]
    refine run_plan_eq wm (fun part' j s' hs' => ?_) (fun part' j s' hs' hr' => ?_) _ hs hr
    · split
      · exact construct_grows part' j _ hs'
      · exact .refl hs'
    · split
      · exact ih _ (by omega) part' j _ hs' hr' rfl
      · rfl

/-- A builder's program gives the same from every sound state, as long as nothing was refused. -/
theorem run_plan_eq_eval (wm : ts.WellMarked) (p : Plan α) (depth : Nat) (hs : s.Sound ts)
    (hr : s.refused = false) :
    ((p.run (host ts none fun part j => construct ts none part j depth)).run s).1 = p.eval ts :=
  run_plan_eq wm (fun part j _ hs' => construct_grows part j depth hs')
    (fun part j _ hs' hr' => construct_eq_meaning wm part j depth hs' hr') p hs hr

/-! ## Whole parses -/

theorem build_run_eq (wm : ts.WellMarked) (start : Symbol) (hs : s.Sound ts)
    (hr : s.refused = false) : ((build ts none start).run s).1 = (start.build ts 0).eval ts :=
  run_plan_eq_eval wm (start.build ts 0) 0 hs hr

theorem parse_run_eq (wm : ts.WellMarked) (start : Symbol) :
    ((Parser.parse ts none start).run (.start ts.size)).1 =
      if (start.length ts 0).eval ts < ts.size then
        .error (ts.unexpected ((start.length ts 0).eval ts))
      else ((start.build ts 0).eval ts).map Prod.fst := by
  have hs := start_sound ts
  have he := (oracle_yields ts none (start.length ts 0) _ hs).1
  have hn : ((start.length ts 0).run (oracle ts none) (.start ts.size)).1 =
      (start.length ts 0).eval ts := oracle_run_eq_eval wm hs rfl (start.length ts 0) 0
  have hr := he.uncapped rfl
  rw [Parser.parse, run_lift_bind, run_checkRefused_bind hr, hn]
  generalize ((start.length ts 0).run (oracle ts none) (.start ts.size)).2 = s at he hr
  split
  · rfl
  · have hg : Grows ts none s _ := build_grows start he.sound
    rw [run_lift_bind, run_checkRefused_bind ((hg.uncapped rfl).trans hr),
      ← build_run_eq wm start he.sound hr]
    rw [run_bind]
    cases h : ((build ts none start).run s).1 with
    | ok a => rfl
    | error e => rfl

theorem parse_eq_parsePlain (wm : ts.WellMarked) (start : Symbol) :
    LessCss.parse ts none start = parsePlain ts start := by
  unfold LessCss.parse parsePlain
  split
  · rfl
  · exact parse_run_eq wm start

/-- How the plain functions succeed: on the empty stream, or by building what covers the stream. -/
theorem parsePlain_eq_ok_iff {start : Symbol} {node : Node} :
    parsePlain ts start = .ok node ↔
      ts.size = 0 ∧ start = .stylesheet ∧ node = .branch .stylesheet [] .origin ∨
      0 < ts.size ∧ ts.size ≤ (start.length ts 0).eval ts ∧
        ∃ k, (start.build ts 0).eval ts = .ok (node, k) := by
  unfold parsePlain
  rcases Nat.eq_zero_or_pos ts.size with hz | hp
  · have hempty : ts.isEmpty = true := by simp [Array.isEmpty, hz]
    rw [if_pos hempty, parseEmpty]
    split
    · next hs => simp [hz, hs, eq_comm]
    · next hs => simp [hz, hs]
  · have hempty : ¬ ts.isEmpty = true := by simpa [Array.isEmpty] using Nat.ne_of_gt hp
    rw [if_neg hempty]
    dsimp only
    split
    · next hlt =>
      refine ⟨fun h => ?_, ?_⟩
      · cases h
      · rintro (⟨hz, _⟩ | ⟨_, hle, _⟩) <;> omega
    · next hle =>
      refine ⟨fun h => Or.inr ⟨hp, by omega, ?_⟩, ?_⟩
      · cases hb : (start.build ts 0).eval ts with
        | error e =>
          rw [hb] at h
          cases h
        | ok r =>
          rw [hb] at h
          cases h
          exact ⟨r.2, rfl⟩
      · rintro (⟨hz, _⟩ | ⟨_, _, k, hk⟩)
        · omega
        · rw [hk]
          rfl

/-- How a parse without a cap succeeds: by building what covers the stream. -/
theorem parse_eq_ok_iff (wm : ts.WellMarked) {start : Symbol} (hstart : start ≠ .stylesheet)
    {node : Node} : LessCss.parse ts none start = .ok node ↔
      0 < ts.size ∧ ts.size ≤ (start.length ts 0).eval ts ∧
        ∃ k, (start.build ts 0).eval ts = .ok (node, k) := by
  rw [parse_eq_parsePlain wm, parsePlain_eq_ok_iff]
  exact or_iff_right fun h => hstart h.2.1

/-- How a parse of a start symbol that is a rule succeeds: the rule covers the stream, and its
builder gives the node. -/
theorem parse_rule_iff (wm : ts.WellMarked) (A : Reading ts false) {start : Symbol} {r : Rule}
    (hstart : start ≠ .stylesheet) (hr : start.length ts 0 = lengthOf r 0) {node : Node} :
    LessCss.parse ts none start = .ok node ↔
      0 < ts.size ∧ A.len r 0 = ts.size ∧ ∃ k, (start.build ts 0).eval ts = .ok (node, k) := by
  rw [parse_eq_ok_iff wm hstart, hr, ← value_eq_eval wm A, A.value_lengthOf]
  refine and_congr_right fun hpos => and_congr_left fun _ => ?_
  constructor
  · intro hle
    have hfits := A.len_le (Nat.lt_of_lt_of_le hpos hle)
    omega
  · exact fun h => Nat.le_of_eq h.symm

/-- The memory of a state does not show: what is remembered of a rule is its meaning, and so is
every answer; looking ahead and building give what the plain functions give. -/
structure State.Transparent (ts : Tokens) (s : State) : Prop where
  remembered : ∀ r i a, s.memo.get? r i = some a → a = r.meaning ts i
  answered : ∀ r i depth, (answer ts none r i depth s).1 = r.meaning ts i
  looked : ∀ {α : Type} (q : Lookahead α) (depth : Nat),
    (q.run (oracleAt ts none depth) s).1 = q.eval ts
  built : ∀ {α : Type} (p : Plan α) (depth : Nat),
    ((p.run (host ts none fun part j => construct ts none part j depth)).run s).1 = p.eval ts

theorem Reachable.transparent (wm : ts.WellMarked) (h : Reachable ts none s) :
    s.Transparent ts where
  remembered r i a ha := ((meanings_supports wm h.sound h.not_refused).agrees r i a ha).symm
  answered r i depth := answer_eq_meaning wm h.sound h.not_refused r i depth
  looked q depth := oracle_run_eq_eval wm h.sound h.not_refused q depth
  built p depth := run_plan_eq_eval wm p depth h.sound h.not_refused

/-- The tokens of a source are well marked; and in a well-marked stream, where the meaning of a rule
at a token is what its body gives from the meanings of the rules, and none past the end, the memory
does not show in any state that an uncapped parse can reach, and a parse gives what the plain
functions give. -/
theorem memory_transparent :
    (∀ source, Tokens.WellMarked (Token.lex source)) ∧
    ∀ ts : Tokens, ts.WellMarked →
      (∀ r i, Rule.meaning ts r i = if i < ts.size then (r.body ts i).eval ts else none) ∧
      (∀ s, Reachable ts none s → s.Transparent ts) ∧
      ∀ start, LessCss.parse ts none start = parsePlain ts start := by
  refine ⟨Token.lex_wellMarked, fun ts wm => ⟨fun r i => ?_, fun s h => h.transparent wm, ?_⟩⟩
  · split
    · next hi => exact meaning_eq_eval wm r hi
    · next hi => exact Rule.meaning_past_end r (by omega)
  · exact parse_eq_parsePlain wm

/-- A stylesheet with a rule inside an at-rule is parsed with a memory as without one. -/
theorem memory_transparent_nested :
    Tokens.WellMarked (Token.lex "@media print{a:hover{color:red}}") ∧
    LessCss.parse (Token.lex "@media print{a:hover{color:red}}") none .stylesheet =
      parsePlain (Token.lex "@media print{a:hover{color:red}}") .stylesheet :=
  ⟨memory_transparent.1 _, (memory_transparent.2 _ (memory_transparent.1 _)).2.2 _⟩

end LessCss.Parser
