import LessCss.Parser
import LessCss.Proofs.Memory

/-! The states of a parse. Whatever is asked or built from a sound state leads to a sound state with
a larger memory, so every state that a parse can reach is sound. -/

namespace LessCss

/-- An error names the line of its token, and past the end that of the last one. -/
theorem Tokens.unexpected_eq {ts : Tokens} {i : Nat} {t : Token}
    (h : ts[min i (ts.size - 1)]? = some t) :
    ts.unexpected i = .unexpectedToken t.start.line := by
  have hlt := Tokens.lt_of_getElem? h
  have hget : (ts[i]?.or ts.back?) = some t := by
    rcases Nat.lt_or_ge i ts.size with hi | hi
    · rw [show min i (ts.size - 1) = i by omega] at h
      rw [h]
      rfl
    · rw [show min i (ts.size - 1) = ts.size - 1 by omega] at h
      rw [Array.getElem?_eq_none hi]
      exact h
  rw [Tokens.unexpected, Tokens.lineAt, hget]
  rfl

namespace Parser

open Lookahead

variable {α β : Type} {ts : Tokens} {limit : Option Nat} {s : State}

/-! ## Running an action -/

theorem run_lift_bind (x : StateM State α) (f : α → Action β) (s : State) :
    (ExceptT.lift x >>= f).run s = (f (x s).1).run (x s).2 := rfl

theorem run_bind (x : Action α) (f : α → Action β) (s : State) :
    (x >>= f).run s = match (x.run s).1 with
      | .ok a => (f a).run (x.run s).2
      | .error e => (.error e, (x.run s).2) := by
  change ExceptT.bindCont f (x.run s).1 (x.run s).2 = _
  cases (x.run s).1 <;> rfl

theorem run_checkRefused (s : State) : checkRefused.run s =
    (if s.refused = true then .error .nestingTooDeep else .ok (), s) := by
  change (if s.refused = true then throw .nestingTooDeep else pure () : Action Unit).run s = _
  split <;> rfl

theorem run_checkRefused_bind {f : Unit → Action α} (hr : s.refused = false) :
    (checkRefused >>= f).run s = (f ()).run s := by
  rw [run_bind, run_checkRefused, hr]
  rfl

theorem run_checkRefused_of_refused {f : Unit → Action α} (hr : s.refused = true) :
    (checkRefused >>= f).run s = (.error .nestingTooDeep, s) := by
  rw [run_bind, run_checkRefused, hr]
  rfl

/-! ## Building -/

theorem check_grows (holds : Bool) (hs : s.Sound ts) : Grows ts limit s (check holds s).2 :=
  ⟨fun _ _ _ h => h, id, fun _ => rfl, ⟨hs.size, hs.explained⟩⟩

theorem run_plan_grows {build : Interior → Nat → Action (List Node × Nat)}
    (hb : ∀ part j s, s.Sound ts → Grows ts limit s ((build part j).run s).2) (p : Plan α)
    (hs : s.Sound ts) : Grows ts limit s ((p.run (host ts limit build)).run s).2 := by
  induction p generalizing s with
  | done a => exact .refl hs
  | fail i => exact .refl hs
  | look q next ih =>
    have hg := (oracle_yields ts limit q s hs).1.toGrows
    exact hg.trans (ih _ hg.sound)
  | ask r i next ih =>
    have hg := (answer_yields ts limit r i 0 0 s hs).1.toGrows
    exact hg.trans (ih _ hg.sound)
  | build part i next ih =>
    have hg := hb part i s hs
    change Grows ts limit s ((build part i >>= fun x => (next x).run _).run s).2
    rw [run_bind]
    split
    · exact hg.trans (ih _ hg.sound)
    · exact hg
  | check holds next ih =>
    have hg : Grows ts limit s (check holds s).2 := check_grows holds hs
    exact hg.trans (ih hg.sound)
  | made node next ih => exact ih hs

theorem construct_grows (part : Interior) (i depth : Nat) (hs : s.Sound ts) :
    Grows ts limit s ((construct ts limit part i depth).run s).2 := by
  generalize hn : ts.size - i = n
  induction n using Nat.strongRecOn generalizing part i depth s with
  | ind n ih =>
    rw [construct]
    split
    · exact .refl hs
    · refine run_plan_grows (fun part' j s' hs' => ?_) _ hs
      split
      · exact ih _ (by omega) part' j _ hs' rfl
      · exact .refl hs'

theorem build_grows (start : Symbol) (hs : s.Sound ts) :
    Grows ts limit s ((build ts limit start).run s).2 :=
  run_plan_grows (fun part j _ hs' => construct_grows part j 0 hs') (start.build ts 0) hs

/-! ## Reachable states -/

theorem start_sound (ts : Tokens) : (State.start ts.size).Sound ts where
  size := Memo.size_empty ts.size
  explained r i a ha := by
    rw [State.start, Memo.get?_empty] at ha
    cases ha

/-- What a parse can do to a state: ask any question and run any program that looks ahead, at any
depth, and run any program that builds. -/
inductive Reaches (ts : Tokens) (limit : Option Nat) (s : State) : State → Prop
  | refl : Reaches ts limit s s
  | asked {s' : State} (r : Rule) (i depth : Nat) :
    Reaches ts limit s s' → Reaches ts limit s (answer ts limit r i depth s').2
  | looked {s' : State} {α : Type} (q : Lookahead α) (depth : Nat) :
    Reaches ts limit s s' → Reaches ts limit s (q.run (oracleAt ts limit depth) s').2
  | built {s' : State} {α : Type} (p : Plan α) (depth : Nat) : Reaches ts limit s s' →
    Reaches ts limit s
      ((p.run (host ts limit fun part j => construct ts limit part j depth)).run s').2

/-- The states that a parse can be in. -/
def Reachable (ts : Tokens) (limit : Option Nat) (s : State) : Prop :=
  Reaches ts limit (.start ts.size) s

theorem Reaches.grows {s s' : State} (h : Reaches ts limit s s') (hs : s.Sound ts) :
    Grows ts limit s s' := by
  induction h with
  | refl => exact .refl hs
  | asked r i depth _ ih => exact ih.trans (answer_yields ts limit r i depth 0 _ ih.sound).1.toGrows
  | looked q depth _ ih => exact ih.trans (oracleAt_yields ts limit depth q _ ih.sound).1.toGrows
  | built p depth _ ih =>
    exact ih.trans (run_plan_grows (fun part j _ hs => construct_grows part j depth hs) p ih.sound)

/-- A reachable state has grown out of the state at the start. -/
theorem Reachable.grows (h : Reachable ts limit s) : Grows ts limit (.start ts.size) s :=
  Reaches.grows h (start_sound ts)

theorem Reachable.sound (h : Reachable ts limit s) : s.Sound ts := h.grows.sound

/-- Without a cap nothing is ever refused. -/
theorem Reachable.not_refused (h : Reachable ts none s) : s.refused = false := h.grows.uncapped rfl

end Parser

end LessCss
