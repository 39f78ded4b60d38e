import LessCss.Proofs.Build.Productions
import LessCss.Proofs.Links

/-! Measuring and building agree. Whatever a parse has done so far, and under any cap on nesting:
where a production was measured and covers tokens, its builder fails or stops right behind these
tokens, at that time or later in the parse. So no condition that builders rely on is ever broken,
and a parse that succeeds has used all tokens.

Under a cap the same question can be answered differently at different depths, but the first answer
is remembered. All answers that a builder gets are therefore those of one reading of the stream,
which also gave the measure. -/

namespace LessCss

open Lookahead Builder Grammar

namespace Production

/-- Measures the production at token `i`, `depth` levels inside. -/
def measure (ts : Tokens) (limit : Option Nat) (depth : Nat) (p : Production) (i : Nat) :
    StateM Parser.State Nat := (p.length ts i).run (Parser.oracleAt ts limit depth)

/-- Builds the production from token `i` on, `depth` levels inside; gives its nodes and the token
behind them. -/
def build (ts : Tokens) (limit : Option Nat) (depth : Nat) (p : Production) (i : Nat) :
    Parser.Action (List Node × Nat) :=
  (p.nodes ts i).run (Parser.host ts limit fun part j => Parser.construct ts limit part j depth)

/-- In state `s` and ever after, the builder of the production started at token `i` breaks no
condition, and fails or stops at token `j`, which for a stylesheet is the end of the stream. -/
def EndsAt (ts : Tokens) (limit : Option Nat) (p : Production) (i j : Nat) (s : Parser.State) :
    Prop :=
  ∀ s', Parser.Reaches ts limit s s' → ∀ depth,
    ((p.build ts limit depth i).run s').2.broken = s'.broken ∧
      ∀ ns k, ((p.build ts limit depth i).run s').1 = .ok (ns, k) →
        k = j ∧ (p = .symbol .stylesheet → k = ts.size)

end Production

namespace Parser

variable {α : Type} {ts : Tokens} {capped : Bool} {A : Reading ts capped} {E : Nat → Prop}
  {lo i depth : Nat} {limit : Option Nat} {s : State}

/-- A program keeps its contract when it is run, insides included. -/
theorem run_delivers (wm : ts.WellMarked) (hE : ∀ j, ts.Deferred j → E j) {p : Plan α}
    {Q : α → Prop} (h : p.Meets A E lo Q) (depth : Nat) :
    Delivers A E (p.run (host ts limit fun part j => construct ts limit part j depth)) Q :=
  run_plan_delivers (fun part j _ hs => construct_grows part j depth hs)
    (fun part j _ _ hr => construct_delivers (content_runs wm hE) part j depth hr) h

/-- The measure of a production is that of any reading that agrees with what is remembered. -/
theorem measure_eq (wm : ts.WellMarked) (p : Production) (hs : s.Sound ts) (A : Reading ts capped)
    (hA : Supports ts A.tell (p.measure ts limit depth i s).2.memo) :
    (p.measure ts limit depth i s).1 = A.value (p.length ts i) :=
  oracleAt_run_eq hs (p.length_measures wm i) rfl A hA

theorem measure_le (wm : ts.WellMarked) (p : Production) (hs : s.Sound ts)
    (h : 0 < (p.measure ts limit depth i s).1) :
    i + (p.measure ts limit depth i s).1 ≤ ts.size := by
  have hg := (oracleAt_yields ts limit depth (p.length ts i) s hs).1
  obtain ⟨A, hA⟩ := hg.sound.reading wm
  have hv := measure_eq wm p hs A hA
  have hfits := A.value_fits (p.length_measures wm i)
  omega

theorem measure_endsAt (wm : ts.WellMarked) (p : Production) (hs : s.Sound ts)
    (h : 0 < (p.measure ts limit depth i s).1) :
    p.EndsAt ts limit i (i + (p.measure ts limit depth i s).1)
      (p.measure ts limit depth i s).2 := by
  intro s' hr depth'
  have hg := (oracleAt_yields ts limit depth (p.length ts i) s hs).1
  have hs' := hr.grows hg.sound
  have hbuilt : Grows ts limit s' ((p.build ts limit depth' i).run s').2 :=
    run_plan_grows (fun part j _ hs => construct_grows part j depth' hs) (p.nodes ts i) hs'.sound
  -- a reading that agrees with the memory at the end agrees with it from the measure on
  obtain ⟨A, hA⟩ := hbuilt.sound.reading wm
  have hv := measure_eq wm p hs A ((hA.mono hbuilt.keeps).mono hs'.keeps)
  have hmeets := p.nodes_run (A := A) wm (hv ▸ h)
  obtain ⟨hbroken, hout⟩ := run_delivers wm (fun _ _ => trivial) hmeets depth' s' hs'.sound hA
  refine ⟨hbroken, fun ns k hk => ?_⟩
  unfold Production.build at hk
  rw [hk] at hout
  exact ⟨hv ▸ hout.1, hout.2.1⟩

/-! ## Whole parses -/

/-- The measure of a start symbol at the beginning of a stream, and the state behind it. -/
def measured (ts : Tokens) (limit : Option Nat) (start : Symbol) : Nat × State :=
  (start.length ts 0).run (oracle ts limit) (.start ts.size)

/-- One reading explains both phases of a parse: it agrees with what is remembered after building,
and gives the measure. -/
theorem exists_reading_of_build (wm : ts.WellMarked) (limit : Option Nat) (start : Symbol) :
    ∃ A : Reading ts ((build ts limit start).run (measured ts limit start).2).2.refused,
      Supports ts A.tell ((build ts limit start).run (measured ts limit start).2).2.memo ∧
      (measured ts limit start).1 = A.value (start.length ts 0) := by
  have hs := start_sound ts
  have hg := (oracle_yields ts limit (start.length ts 0) _ hs).1
  have hbuilt : Grows ts limit _ ((build ts limit start).run (measured ts limit start).2).2 :=
    build_grows start hg.sound
  obtain ⟨A, hA⟩ := hbuilt.sound.reading wm
  refine ⟨A, hA, ?_⟩
  change ((start.length ts 0).run (oracleAt ts limit 0) (.start ts.size)).1 = _
  exact oracleAt_run_eq hs (start.length_measures wm 0) rfl A (hA.mono hbuilt.keeps)

/-- A start symbol that covers a whole stream is built without breaking a condition. Building ends
with the stream, and the node stands for all tokens; or it fails behind an opener. -/
theorem build_delivers (wm : ts.WellMarked) (hne : 0 < ts.size) {start : Symbol}
    (hall : ts.size ≤ (measured ts limit start).1) :
    ((build ts limit start).run (measured ts limit start).2).2.broken = false ∧
      match ((build ts limit start).run (measured ts limit start).2).1 with
        | .ok a => a.2 = ts.size ∧ Covers ts 0 ts.size a.1
        | .error e => ErrorIn ts ts.Deferred e := by
  have hg := (oracle_yields ts limit (start.length ts 0) _ (start_sound ts)).1
  obtain ⟨A, hA, hv⟩ := exists_reading_of_build wm limit start
  have hfits := A.value_fits (start.length_measures wm 0)
  have hmeets := start.build_runs_in (A := A) (i := 0) wm (fun _ h => h) (by omega) (by omega)
  obtain ⟨hbroken, hout⟩ := run_delivers wm (fun _ h => h) hmeets 0 _ hg.sound hA
  refine ⟨hbroken.trans hg.broken, ?_⟩
  cases hres : ((build ts limit start).run (measured ts limit start).2).1 with
  | ok a =>
    unfold build measured at hres
    rw [hres] at hout
    obtain ⟨hend, _, hcovers⟩ := hout
    have hsize : a.2 = ts.size := by omega
    exact ⟨hsize, hsize ▸ hcovers⟩
  | error e =>
    unfold build measured at hres
    rw [hres] at hout
    exact hout

theorem build_all (wm : ts.WellMarked) (hne : 0 < ts.size) {start : Symbol}
    (hall : ts.size ≤ (measured ts limit start).1) :
    ((build ts limit start).run (measured ts limit start).2).2.broken = false ∧
      ∀ node k, ((build ts limit start).run (measured ts limit start).2).1 = .ok (node, k) →
        k = ts.size ∧ Covers ts 0 ts.size node := by
  obtain ⟨hbroken, hout⟩ := build_delivers wm hne hall
  refine ⟨hbroken, fun node k hk => ?_⟩
  rw [hk] at hout
  exact hout

/-- How a parse ends: with an error, after measuring or after building what covers the stream; or
with a node that was built, when it is checked that building has reached the end. -/
theorem parse_cases (ts : Tokens) (limit : Option Nat) (start : Symbol) :
    let x := measured ts limit start
    let y := (build ts limit start).run x.2
    let z := (Parser.parse ts limit start).run (.start ts.size)
    (∃ e, z.1 = .error e) ∧ (z.2 = x.2 ∨ ts.size ≤ x.1 ∧ z.2 = y.2) ∨
      ∃ node k, z.1 = .ok node ∧ ts.size ≤ x.1 ∧ y.1 = .ok (node, k) ∧
        z.2 = (check (k = ts.size) y.2).2 := by
  intro x y z
  have hz : z = (checkRefused >>= fun _ =>
      if x.1 < ts.size then throw (ts.unexpected x.1)
      else do
        let result ← ExceptT.lift (build ts limit start).run
        checkRefused
        let built ← ExceptT.mk (return result)
        ExceptT.lift (check (built.2 = ts.size))
        return built.1 : Action Node).run x.2 := rfl
  by_cases hx : x.2.refused = true
  · rw [hz, run_checkRefused_of_refused hx]
    exact Or.inl ⟨⟨_, rfl⟩, Or.inl rfl⟩
  rw [run_checkRefused_bind (Bool.eq_false_iff.2 hx)] at hz
  by_cases hn : x.1 < ts.size
  · rw [if_pos hn] at hz
    rw [hz]
    exact Or.inl ⟨⟨_, rfl⟩, Or.inl rfl⟩
  have hall : ts.size ≤ x.1 := Nat.le_of_not_lt hn
  have hlift : ((build ts limit start).run x.2) = y := rfl
  rw [if_neg hn, run_lift_bind, hlift] at hz
  by_cases hy : y.2.refused = true
  · rw [hz, run_checkRefused_of_refused hy]
    exact Or.inl ⟨⟨_, rfl⟩, Or.inr ⟨hall, rfl⟩⟩
  rw [run_checkRefused_bind (Bool.eq_false_iff.2 hy), run_bind] at hz
  cases hres : y.1 with
  | error e =>
    rw [hres] at hz
    rw [hz]
    exact Or.inl ⟨⟨_, rfl⟩, Or.inr ⟨hall, rfl⟩⟩
  | ok a =>
    obtain ⟨node, k⟩ := a
    rw [hres] at hz
    rw [hz]
    exact Or.inr ⟨node, k, rfl, hall, rfl, rfl⟩

/-- No parse breaks a condition. -/
theorem parse_unbroken (wm : ts.WellMarked) (hne : 0 < ts.size) (start : Symbol) :
    ((Parser.parse ts limit start).run (.start ts.size)).2.broken = false := by
  have hg := (oracle_yields ts limit (start.length ts 0) _ (start_sound ts)).1
  have hx : (measured ts limit start).2.broken = false := hg.broken
  rcases parse_cases ts limit start with ⟨_, hz | ⟨hall, hz⟩⟩ | ⟨node, k, _, hall, hy, hz⟩
  · rw [hz]
    exact hx
  · rw [hz]
    exact (build_all wm hne hall).1
  · obtain ⟨hbroken, hend⟩ := build_all wm hne hall
    obtain ⟨rfl, _⟩ := hend node k hy
    rw [hz]
    change (State.broken _ || !decide (ts.size = ts.size)) = false
    rw [hbroken, decide_eq_true rfl]
    rfl

/-- A parse that succeeds has built its node from the whole stream. -/
theorem parse_ok (wm : ts.WellMarked) (hne : 0 < ts.size) {start : Symbol} {node : Node}
    (h : ((Parser.parse ts limit start).run (.start ts.size)).1 = .ok node) :
    ((build ts limit start).run (measured ts limit start).2).1 = .ok (node, ts.size) ∧
      Covers ts 0 ts.size node := by
  rcases parse_cases ts limit start with ⟨⟨e, he⟩, _⟩ | ⟨node', k, hn, hall, hy, _⟩
  · rw [he] at h
    cases h
  · rw [hn] at h
    cases h
    obtain ⟨rfl, hcovers⟩ := (build_all wm hne hall).2 node k hy
    exact ⟨hy, hcovers⟩

/-- The tokens of a source are well marked; and in a well-marked stream, under any cap: wherever a
production is measured in a state that a parse can reach and covers tokens, these are tokens of the
stream, and from then on its builder fails or stops right behind them. No parse breaks a condition,
and one that succeeds has built its node up to the end of the stream. -/
theorem building_agrees_with_measuring :
    (∀ source, Tokens.WellMarked (Token.lex source)) ∧
    ∀ ts : Tokens, ts.WellMarked → ∀ limit : Option Nat,
      (∀ (p : Production) (i depth : Nat) (s : State), Reachable ts limit s →
        0 < (p.measure ts limit depth i s).1 →
          i + (p.measure ts limit depth i s).1 ≤ ts.size ∧
          p.EndsAt ts limit i (i + (p.measure ts limit depth i s).1)
            (p.measure ts limit depth i s).2) ∧
      ∀ start, ts.isEmpty = false →
        ((Parser.parse ts limit start).run (.start ts.size)).2.broken = false ∧
        ∀ node, LessCss.parse ts limit start = .ok node →
          ((build ts limit start).run (measured ts limit start).2).1 = .ok (node, ts.size) := by
  refine ⟨Token.lex_wellMarked, fun ts wm limit => ⟨fun p i depth s hr hpos => ?_,
    fun start hempty => ?_⟩⟩
  · exact ⟨measure_le wm p hr.sound hpos, measure_endsAt wm p hr.sound hpos⟩
  · have hne : 0 < ts.size := by
      refine Nat.pos_of_ne_zero fun hz => ?_
      rw [Array.isEmpty, hz] at hempty
      cases hempty
    refine ⟨parse_unbroken wm hne start, fun node h => ?_⟩
    rw [LessCss.parse, hempty] at h
    exact (parse_ok wm hne h).1

/-- A ruleset that is measured at the second statement of a stylesheet, under a cap. -/
theorem building_agrees_with_measuring_ruleset :
    ((Production.symbol .ruleset).measure (Token.lex "@a b;c:hover{d:e}") (some 2) 0 5
        (.start (Token.lex "@a b;c:hover{d:e}").size)).1 = 8 ∧
      (Production.symbol .ruleset).EndsAt (Token.lex "@a b;c:hover{d:e}") (some 2) 5 13
        ((Production.symbol .ruleset).measure (Token.lex "@a b;c:hover{d:e}") (some 2) 0 5
          (.start (Token.lex "@a b;c:hover{d:e}").size)).2 := by
  have hlen : ((Production.symbol .ruleset).measure (Token.lex "@a b;c:hover{d:e}") (some 2) 0 5
      (.start (Token.lex "@a b;c:hover{d:e}").size)).1 = 8 := by decide +kernel
  have hends := (building_agrees_with_measuring.2 _ (building_agrees_with_measuring.1 _) (some 2)).1
    (.symbol .ruleset) 5 0 (.start (Token.lex "@a b;c:hover{d:e}").size) .refl
    (Nat.lt_of_lt_of_eq (by decide) hlen.symm)
  rw [hlen] at hends
  exact ⟨hlen, hends.2⟩

end Parser

end LessCss
