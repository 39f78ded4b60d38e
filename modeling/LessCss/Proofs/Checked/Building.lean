import LessCss.Proofs.Checked

/-! Building with all checks. The conditions that builders rely on have to hold, repetitions have to
move, the places of every node that is made have to be such as can be held, and insides are built
without a guard on where they start. Where a production was measured, nothing goes wrong: the checked
run does what the unchecked one does, and so does a whole parse. -/

namespace LessCss

open Lookahead

/-- The room is large enough for a stream: for lengths up to its size, and for nodes that stand for
some of its tokens. -/
structure Room.Suffices (room : Room) (ts : Tokens) : Prop where
  length : ∀ n ≤ ts.size, room.length n = true
  node : ∀ i j n, Covers ts i j n → room.node n = true
  empty : room.node (.branch .stylesheet [] .origin) = true

namespace Checked

/-- An action of a checked run. -/
abbrev Action : Type → Type := ExceptT Error Run

/-- A condition that has to hold. -/
def require (holds : Bool) (fault : Fault) : Run Unit := if holds then pure () else throw fault

/-- How the requests of a builder are met, where `build` builds insides. -/
def host (room : Room) (ts : Tokens) (limit : Option Nat) (steps : Nat)
    (build : Interior → Nat → Action (List Node × Nat)) : Plan.Host Action where
  look q := ExceptT.lift (look (oracle room ts limit steps) q)
  ask r i := ExceptT.lift (answer room ts limit steps r i)
  build := build
  check holds := ExceptT.lift (require holds .condition)
  made node := ExceptT.lift (require (room.node node) .place)
  fail _ i := throw (ts.unexpected i)

/-- Builds the inside of a construct from token `i` on, `depth` levels inside, where insides may
stand in each other at most `steps` times. -/
def construct (room : Room) (ts : Tokens) (limit : Option Nat) :
    (steps : Nat) → Interior → Nat → Nat → Action (List Node × Nat)
  | 0, _, _, _ => ExceptT.lift (throw .steps)
  | steps + 1, part, i, depth =>
    if part.nests && !Parser.allows limit depth then throw .nestingTooDeep
    else
      let depth := if part.nests then depth + 1 else depth
      (part.content ts i).run <| host room ts limit (steps + 1) fun part' j =>
        construct room ts limit steps part' j depth

/-- Runs a program that builds, `depth` levels inside. -/
def build {α : Type} (room : Room) (ts : Tokens) (limit : Option Nat) (steps depth : Nat)
    (p : Plan α) : Action α :=
  p.run (host room ts limit steps fun part j => construct room ts limit steps part j depth)

/-- Fails if the cap has refused a question. -/
def checkRefused : Action Unit := do
  if (← get).parse.refused then throw .nestingTooDeep

/-- Measures, then builds. -/
def parse (room : Room) (ts : Tokens) (limit : Option Nat) (steps : Nat) (start : Symbol) :
    Action Node := do
  let n ← ExceptT.lift (look (oracle room ts limit steps) (start.length ts 0))
  checkRefused
  if n < ts.size then throw (ts.unexpected n)
  else
    let result ← ExceptT.lift (build room ts limit steps 0 (start.build ts 0)).run
    checkRefused
    let (node, stop) ← ExceptT.mk (return result)
    ExceptT.lift (require (stop = ts.size) .condition)
    return node

end Checked

/-- Parses a token stream as a start symbol, with all checks. -/
def parseChecked (room : Room) (ts : Tokens) (limit : Option Nat) (steps : Nat) (start : Symbol) :
    Except Fault (Except Error Node) :=
  if ts.isEmpty then
    match parseEmpty start with
    | .ok node => if room.node node then .ok (.ok node) else .error .place
    | .error e => .ok (.error e)
  else ((Checked.parse room ts limit steps start).run.run ⟨.start ts.size, 0⟩).map Prod.fst

namespace Checked

variable {α β : Type} {ts : Tokens} {limit : Option Nat} {depth steps : Nat} {s : Parser.State}
  {room : Room} {capped : Bool} {A : Reading ts capped} {E : Nat → Prop} {lo : Nat}

/-! ## Sequences of actions -/

theorem confirms_lift_bind {x : Run α} {y : StateM Parser.State α} {f : α → Action β}
    {g : α → Parser.Action β} (hx : Confirms depth x y s)
    (hf : Confirms depth (f (y s).1).run (g (y s).1).run (y s).2) :
    Confirms depth (ExceptT.lift x >>= f).run (ExceptT.lift y >>= g).run s := by
  rw [ExceptT.run_bind_lift, ExceptT.run_bind_lift]
  exact hx.bind hf

theorem confirms_bind {x : Action α} {y : Parser.Action α} {f : α → Action β}
    {g : α → Parser.Action β} (hx : Confirms depth x.run y.run s)
    (hf : ∀ a, (y.run s).1 = .ok a → Confirms depth (f a).run (g a).run (y.run s).2) :
    Confirms depth (x >>= f).run (y >>= g).run s := by
  rw [ExceptT.run_bind, ExceptT.run_bind]
  refine hx.bind ?_
  cases hy : (y.run s).1 with
  | ok a => exact hf a hy
  | error e => exact confirms_pure _

theorem confirms_require {holds : Bool} {fault : Fault} {y : StateM Parser.State Unit}
    (h : holds = true) (hy : (y s).2 = s) : Confirms depth (require holds fault) y s := by
  rw [Confirms, require, if_pos h, hy]
  rfl

theorem confirms_check {holds : Bool} (h : holds = true) :
    Confirms depth (require holds .condition) (Parser.check holds) s := by
  refine confirms_require h ?_
  subst h
  change { s with broken := s.broken || false } = s
  rw [Bool.or_false]

theorem confirms_checkRefused : Confirms depth checkRefused.run Parser.checkRefused.run s := by
  rw [Confirms, Parser.run_checkRefused]
  change (if s.refused = true then throw .nestingTooDeep else pure () : Action Unit).run ⟨s, depth⟩ = _
  split <;> rfl

/-! ## Building -/

/-- A program that meets its contract is run without a fault, if insides are. -/
theorem plan_confirms (wm : ts.WellMarked) (hroom : room.Suffices ts) (hsteps : enough ts ≤ steps)
    {build : Interior → Nat → Parser.Action (List Node × Nat)}
    {inside : Interior → Nat → Action (List Node × Nat)} {Q : α → Prop}
    (hg : ∀ part j s, s.Sound ts → Parser.Grows ts limit s ((build part j).run s).2)
    (hd : ∀ part j, lo < j → j ≤ ts.size → part.Ready A j →
      Parser.Delivers A E (build part j) (part.Filled A j))
    (hb : ∀ part j s, lo < j → j ≤ ts.size → part.Ready A j → s.Sound ts →
      Parser.Supports ts A.tell ((build part j).run s).2.memo →
        Confirms 0 (inside part j).run (build part j).run s)
    {p : Plan α} (h : p.Meets A E lo Q) (hs : s.Sound ts)
    (hA : Parser.Supports ts A.tell ((p.run (Parser.host ts limit build)).run s).2.memo) :
    Confirms 0 (p.run (host room ts limit steps inside)).run
      (p.run (Parser.host ts limit build)).run s := by
  induction p generalizing s with
  | done a => exact confirms_pure _
  | fail i => exact confirms_pure _
  | look q next ih =>
    obtain ⟨⟨F, hq⟩, hnext⟩ := h
    have he := (Parser.oracle_yields ts limit q s hs).1
    have hrest := Parser.run_plan_grows hg (next (q.run (Parser.oracle ts limit) s).1) he.sound
    have hn : (q.run (Parser.oracle ts limit) s).1 = A.value q :=
      Parser.oracleAt_run_eq hs hq rfl A (hA.mono hrest.keeps)
    rw [← hn] at hnext
    exact confirms_lift_bind (oracle_confirms wm hroom.length hsteps hq hs) (ih _ hnext he.sound hA)
  | ask r i next ih =>
    have he := (Parser.answer_yields ts limit r i 0 0 s hs).1
    have hrest := Parser.run_plan_grows hg (next (Parser.answer ts limit r i 0 s).1) he.sound
    have ha : (Parser.answer ts limit r i 0 s).1 = A.tell r i :=
      Parser.answer_eq_tell hs (hA.mono hrest.keeps)
    rw [Plan.Meets, ← ha] at h
    have hanswer : Confirms 0 (answer room ts limit steps r i) (Parser.answer ts limit r i 0) s :=
      answer_confirms wm hroom.length hs
        (Nat.lt_of_lt_of_le (Nat.lt_of_succ_le (Parser.weight_lt_top ts r i)) hsteps)
    exact confirms_lift_bind hanswer (ih _ h he.sound hA)
  | build part i next ih =>
    obtain ⟨⟨hlo, hi, hready⟩, hnext⟩ := h
    have hgrow := hg part i s hs
    change Parser.Supports ts A.tell ((build part i >>= fun x => (next x).run _).run s).2.memo at hA
    rw [Parser.run_bind] at hA
    cases hres : ((build part i).run s).1 with
    | ok x =>
      rw [hres] at hA
      have hmid := hA.mono (Parser.run_plan_grows hg (next x) hgrow.sound).keeps
      obtain ⟨_, hout⟩ := hd part i hlo hi hready s hs hmid
      rw [hres] at hout
      refine confirms_bind (hb part i s hlo hi hready hs hmid) fun x' hx' => ?_
      cases hres.symm.trans hx'
      exact ih x (hnext x hout) hgrow.sound hA
    | error e =>
      rw [hres] at hA
      refine confirms_bind (hb part i s hlo hi hready hs hA) fun x' hx' => ?_
      cases hres.symm.trans hx'
  | check holds next ih =>
    obtain ⟨rfl, hnext⟩ := h
    have hc : Parser.Grows ts limit s (Parser.check true s).2 := Parser.check_grows true hs
    exact confirms_lift_bind (confirms_check rfl) (ih hnext hc.sound hA)
  | made node next ih =>
    obtain ⟨⟨i, j, hcovers⟩, hnext⟩ := h
    exact confirms_lift_bind (y := pure ()) (confirms_require (hroom.node i j node hcovers) rfl)
      (ih hnext hs hA)

/-- Insides that are ready are built without a fault: each stands further on than the one around
it. -/
theorem construct_confirms (wm : ts.WellMarked) (hroom : room.Suffices ts) {part : Interior}
    {i : Nat} (hsteps : enough ts + (ts.size - i) < steps) (hready : part.Ready A i)
    (hs : s.Sound ts)
    (hA : Parser.Supports ts A.tell ((Parser.construct ts limit part i depth).run s).2.memo) :
    Confirms 0 (construct room ts limit steps part i depth).run
      (Parser.construct ts limit part i depth).run s := by
  induction steps generalizing part i depth s with
  | zero => cases hsteps
  | succ steps ih =>
    rw [construct, Parser.construct]
    rw [Parser.construct] at hA
    split
    · exact confirms_pure _
    · next hdeep =>
      rw [if_neg hdeep] at hA
      refine plan_confirms (E := fun _ => True) wm hroom (by omega) (fun part' j s hs => ?_)
        (fun part' j hlo hj hr => ?_) (fun part' j s hlo hj hr hs hA' => ?_)
        (content_runs wm (fun _ _ => trivial) part i hready) hs hA
      · split
        · exact Parser.construct_grows part' j _ hs
        · exact .refl hs
      · rw [dif_pos ⟨hlo, hj⟩]
        exact Parser.construct_delivers (content_runs wm fun _ _ => trivial) part' j _ hr
      · rw [dif_pos ⟨hlo, hj⟩] at hA' ⊢
        exact ih (by omega) hr hs hA'

/-- As many steps as suffice for a parse: for the questions, and for insides that stand in each
other. -/
def bound (ts : Tokens) : Nat := enough ts + ts.size + 1

theorem enough_le_bound (ts : Tokens) : enough ts ≤ bound ts :=
  Nat.le_succ_of_le (Nat.le_add_right _ _)

/-- A program that meets its contract is run without a fault, insides included. -/
theorem build_confirms (wm : ts.WellMarked) (hroom : room.Suffices ts)
    (hsteps : bound ts ≤ steps) {p : Plan α} {Q : α → Prop}
    (h : p.Meets A (fun _ => True) lo Q) (hs : s.Sound ts)
    (hA : Parser.Supports ts A.tell ((p.run (Parser.host ts limit fun part j =>
      Parser.construct ts limit part j depth)).run s).2.memo) :
    Confirms 0 (build room ts limit steps depth p).run (p.run (Parser.host ts limit fun part j =>
      Parser.construct ts limit part j depth)).run s :=
  plan_confirms wm hroom (Nat.le_trans (enough_le_bound ts) hsteps)
    (fun part j _ hs => Parser.construct_grows part j depth hs)
    (fun part j _ _ hr =>
      Parser.construct_delivers (content_runs wm fun _ _ => trivial) part j depth hr)
    (fun part j _ _ _ hr hs hA => construct_confirms wm hroom
      (Nat.lt_of_lt_of_le (Nat.lt_succ_of_le (by omega)) hsteps) hr hs hA) h hs hA

/-! ## Productions and whole parses -/

/-- Any production is measured without a fault, anywhere. -/
theorem measure_confirms (wm : ts.WellMarked) (hroom : room.Suffices ts)
    (hsteps : bound ts ≤ steps) (p : Production) (i : Nat) (hs : s.Sound ts) :
    Confirms depth (look (oracle room ts limit steps) (p.length ts i))
      (p.measure ts limit depth i) s :=
  oracle_confirms wm hroom.length (Nat.le_trans (enough_le_bound ts) hsteps)
    (p.length_measures wm i) hs

/-- From where a production was measured on, it is built without a fault. -/
theorem production_confirms (wm : ts.WellMarked) (hroom : room.Suffices ts)
    (hsteps : bound ts ≤ steps) (p : Production) {i : Nat} (hs : s.Sound ts)
    (h : 0 < (p.measure ts limit depth i s).1) {s' : Parser.State}
    (hr : Parser.Reaches ts limit (p.measure ts limit depth i s).2 s') (depth' : Nat) :
    Confirms 0 (build room ts limit steps depth' (p.nodes ts i)).run
      (p.build ts limit depth' i).run s' := by
  have hg := (Parser.oracleAt_yields ts limit depth (p.length ts i) s hs).1
  have hs' := hr.grows hg.sound
  have hbuilt : Parser.Grows ts limit s' ((p.build ts limit depth' i).run s').2 :=
    Parser.run_plan_grows (fun part j _ hs => Parser.construct_grows part j depth' hs)
      (p.nodes ts i) hs'.sound
  obtain ⟨A, hA⟩ := hbuilt.sound.reading wm
  have hv := Parser.measure_eq wm p hs A ((hA.mono hbuilt.keeps).mono hs'.keeps)
  exact build_confirms wm hroom hsteps (p.nodes_run (A := A) wm (hv ▸ h)) hs'.sound hA

theorem parse_confirms (wm : ts.WellMarked) (hroom : room.Suffices ts)
    (hsteps : bound ts ≤ steps) (hne : 0 < ts.size) (start : Symbol) :
    Confirms 0 (parse room ts limit steps start).run (Parser.parse ts limit start).run
      (.start ts.size) := by
  have hs := Parser.start_sound ts
  have hg := (Parser.oracle_yields ts limit (start.length ts 0) _ hs).1
  refine confirms_lift_bind
    (oracle_confirms wm hroom.length (Nat.le_trans (enough_le_bound ts) hsteps)
      (start.length_measures wm 0) hs) ?_
  refine confirms_bind confirms_checkRefused fun _ _ => ?_
  rw [Parser.run_checkRefused]
  split
  · exact confirms_pure _
  · next hn =>
    have hall : ts.size ≤ (Parser.measured ts limit start).1 := Nat.le_of_not_lt hn
    obtain ⟨A, hA, hv⟩ := Parser.exists_reading_of_build wm limit start
    have hfits := A.value_fits (start.length_measures wm 0)
    refine confirms_lift_bind (build_confirms wm hroom hsteps
      (start.build_runs (A := A) (i := 0) wm (by omega)) hg.sound hA) ?_
    refine confirms_bind confirms_checkRefused fun _ _ => confirms_bind (confirms_pure _) fun r hr => ?_
    obtain ⟨hend, _⟩ := (Parser.build_all wm hne hall).2 r.1 r.2 hr
    exact confirms_lift_bind (confirms_check (decide_eq_true hend)) (confirms_pure _)

/-- With enough steps a checked parse finds no fault and gives what the unchecked one gives. -/
theorem parseChecked_eq (wm : ts.WellMarked) (hroom : room.Suffices ts)
    (hsteps : bound ts ≤ steps) (limit : Option Nat) (start : Symbol) :
    parseChecked room ts limit steps start = .ok (LessCss.parse ts limit start) := by
  unfold parseChecked LessCss.parse
  split
  · next hempty =>
    by_cases hstart : start = .stylesheet
    · rw [parseEmpty, if_pos hstart]
      exact if_pos hroom.empty
    · rw [parseEmpty, if_neg hstart]
  · next hempty =>
    have hne : 0 < ts.size := by
      refine Nat.pos_of_ne_zero fun hz => hempty ?_
      rw [Array.isEmpty, hz]
      rfl
    have hrun : (parse room ts limit steps start).run.run ⟨.start ts.size, 0⟩ = .ok _ :=
      parse_confirms wm hroom hsteps hne start
    rw [hrun]
    rfl

end Checked

end LessCss
