import LessCss.Proofs.Run
import LessCss.Proofs.Twins.Statements

/-! Two parses side by side. On streams that the grammar cannot tell apart, a parse goes from the same
states to the same states and ends alike: with trees of the same outline, with the cap on nesting, or
at the same token. What is built `depth` levels inside has no more levels of its own than the cap
leaves. -/

namespace LessCss.Parser

open Lookahead Node

variable {texts : Bool} {room limit : Option Nat} {α β : Type} {R : α → β → Prop} {ts ts' : Tokens}

/-- Two outcomes: results in `R`, twice the cap on nesting, or twice the same token. -/
inductive SameEnd (ts ts' : Tokens) (R : α → β → Prop) : Except Error α → Except Error β → Prop
  | ok {a : α} {b : β} (related : R a b) : SameEnd ts ts' R (.ok a) (.ok b)
  | tooDeep : SameEnd ts ts' R (.error .nestingTooDeep) (.error .nestingTooDeep)
  | unexpected (i : Nat) : SameEnd ts ts' R (.error (ts.unexpected i)) (.error (ts'.unexpected i))

theorem SameEnd.mono {S : α → β → Prop} {r : Except Error α} {r' : Except Error β}
    (h : SameEnd ts ts' R r r') (hRS : ∀ a b, R a b → S a b) : SameEnd ts ts' S r r' := by
  cases h with
  | ok related => exact .ok (hRS _ _ related)
  | tooDeep => exact .tooDeep
  | unexpected i => exact .unexpected i

/-- From every state the actions go to the same state and end alike. -/
def SameRun (ts ts' : Tokens) (R : α → β → Prop) (x : Action α) (x' : Action β) : Prop :=
  ∀ s, (x.run s).2 = (x'.run s).2 ∧ SameEnd ts ts' R (x.run s).1 (x'.run s).1

theorem SameRun.bind {γ δ : Type} {S : γ → δ → Prop} {x : Action α} {x' : Action β}
    {f : α → Action γ} {f' : β → Action δ} (h : SameRun ts ts' R x x')
    (hf : ∀ a b, R a b → SameRun ts ts' S (f a) (f' b)) :
    SameRun ts ts' S (x >>= f) (x' >>= f') := by
  intro s
  obtain ⟨hstate, hend⟩ := h s
  rw [run_bind, run_bind, ← hstate]
  generalize (x.run s).1 = r at hend
  generalize (x'.run s).1 = r' at hend
  cases hend with
  | ok related => exact hf _ _ related _
  | tooDeep => exact ⟨rfl, .tooDeep⟩
  | unexpected i => exact ⟨rfl, .unexpected i⟩

theorem SameRun.mono {S : α → β → Prop} {x : Action α} {x' : Action β} (h : SameRun ts ts' R x x')
    (hRS : ∀ a b, R a b → S a b) : SameRun ts ts' S x x' :=
  fun s => ⟨(h s).1, (h s).2.mono hRS⟩

theorem sameRun_lift_bind {γ δ : Type} {S : γ → δ → Prop} (x : StateM State α)
    {f : α → Action γ} {f' : α → Action δ} (hf : ∀ a, SameRun ts ts' S (f a) (f' a)) :
    SameRun ts ts' S (ExceptT.lift x >>= f) (ExceptT.lift x >>= f') :=
  fun s => hf (x s).1 (x s).2

/-- What follows an action may go on from its outcome, also from a failure. -/
theorem SameRun.attempt {γ δ : Type} {S : γ → δ → Prop} {x : Action α} {x' : Action β}
    {f : Except Error α → Action γ} {f' : Except Error β → Action δ} (h : SameRun ts ts' R x x')
    (hf : ∀ r r', SameEnd ts ts' R r r' → SameRun ts ts' S (f r) (f' r')) :
    SameRun ts ts' S (ExceptT.lift x.run >>= f) (ExceptT.lift x'.run >>= f') := by
  intro s
  obtain ⟨hstate, hend⟩ := h s
  rw [run_lift_bind, run_lift_bind, show (x'.run s).2 = (x.run s).2 from hstate.symm]
  exact hf _ _ hend _

theorem sameRun_pure {a : α} {b : β} (h : R a b) :
    SameRun ts ts' R (pure a : Action α) (pure b : Action β) := fun _ => ⟨rfl, .ok h⟩

theorem sameRun_checkRefused {γ δ : Type} {S : γ → δ → Prop} {f : Unit → Action γ}
    {f' : Unit → Action δ} (hf : SameRun ts ts' S (f ()) (f' ())) :
    SameRun ts ts' S (checkRefused >>= f) (checkRefused >>= f') := by
  refine SameRun.bind (R := Eq) (fun s => ?_) fun _ _ _ => hf
  rw [run_checkRefused]
  split
  · exact ⟨rfl, .tooDeep⟩
  · exact ⟨rfl, .ok rfl⟩

/-- Paired programs run alike. -/
theorem run_pairs (h : ts.Alike ts') {build build' : Interior → Nat → Action (List Node × Nat)}
    (hb : ∀ part j, SameRun ts ts' (part.Twins texts room) (build part j) (build' part j))
    {p : Plan α} {p' : Plan β} (hp : p.Pairs texts room R p') :
    SameRun ts ts' R (p.run (host ts limit build)) (p'.run (host ts' limit build')) := by
  induction hp with
  | done related => exact sameRun_pure related
  | fail i => exact fun _ => ⟨rfl, .unexpected i⟩
  | @look q next next' _ ih =>
    change SameRun ts ts' R (ExceptT.lift (q.run (oracle ts limit)) >>= _)
      (ExceptT.lift (q.run (oracle ts' limit)) >>= _)
    rw [oracle_alike h]
    exact sameRun_lift_bind _ ih
  | @ask r i next next' _ ih =>
    change SameRun ts ts' R (ExceptT.lift ((oracle ts limit).query r i) >>= _)
      (ExceptT.lift ((oracle ts' limit).query r i) >>= _)
    rw [oracle_alike h]
    exact sameRun_lift_bind _ ih
  | @build part i next next' _ ih => exact (hb part i).bind ih
  | @check holds next next' _ ih => exact sameRun_lift_bind (check holds) fun _ => ih
  | made _ ih => exact ih

/-- What the cap leaves, `depth` levels inside. -/
def roomAt (limit : Option Nat) (depth : Nat) : Option Nat := limit.map (· - depth)

theorem roomAt_succ {depth : Nat} (h : allows limit depth = true) :
    roomAt limit depth = (roomAt limit (depth + 1)).map (· + 1) := by
  cases limit with
  | none => rfl
  | some n =>
    have hlt : depth < n := by simpa [allows] using h
    simp only [roomAt, Option.map_some, Option.some.injEq]
    omega

theorem construct_twins (h : ts.Twins texts ts') (limit : Option Nat) (part : Interior)
    (i depth : Nat) :
    SameRun ts ts' (part.Twins texts (roomAt limit depth)) (construct ts limit part i depth)
      (construct ts' limit part i depth) := by
  generalize hn : ts.size - i = n
  induction n using Nat.strongRecOn generalizing part i depth with
  | ind n ih =>
    rw [construct, construct.eq_def ts']
    by_cases hdeep : (part.nests && !allows limit depth) = true
    · rw [if_pos hdeep, if_pos hdeep]
      exact fun _ => ⟨rfl, .tooDeep⟩
    rw [if_neg hdeep, if_neg hdeep]
    have hinside : ∀ depth' part' j, SameRun ts ts' (part'.Twins texts (roomAt limit depth'))
        (if _h : i < j ∧ j ≤ ts.size then construct ts limit part' j depth'
          else throw (ts.unexpected j))
        (if _h : i < j ∧ j ≤ ts'.size then construct ts' limit part' j depth'
          else throw (ts'.unexpected j)) := by
      intro depth' part' j
      rw [← h.size]
      split
      · exact ih _ (by omega) part' j depth' rfl
      · exact fun _ => ⟨rfl, .unexpected j⟩
    refine SameRun.mono (run_pairs h.toAlike (hinside _) (Interior.content_twins h part i)) ?_
    rintro x x' ⟨hnodes, hstop⟩
    refine ⟨hstop, ?_⟩
    cases hpart : part.nests with
    | false =>
      rw [hpart] at hnodes
      exact hnodes
    | true =>
      rw [hpart] at hnodes hdeep
      exact ⟨_, roomAt_succ (by simpa using hdeep), hnodes⟩

theorem build_twins (h : ts.Twins texts ts') (start : Symbol) :
    SameRun ts ts' (fun r r' => r.1.Twin texts limit r'.1 ∧ r.2 = r'.2) (build ts limit start)
      (build ts' limit start) := by
  refine run_pairs h.toAlike (fun part j => ?_) (start.build_twins h 0)
  have hroom : roomAt limit 0 = limit := congrFun Option.map_id_fun' limit
  have hinside := construct_twins h limit part j 0
  rwa [hroom] at hinside

/-- Parses of streams that the grammar cannot tell apart end alike. -/
theorem parse_twins (h : ts.Twins texts ts') (limit : Option Nat) (start : Symbol) :
    SameEnd ts ts' (Node.Twin texts limit) (LessCss.parse ts limit start)
      (LessCss.parse ts' limit start) := by
  have hempty : ts'.isEmpty = ts.isEmpty := by
    rw [Array.isEmpty, Array.isEmpty, h.size]
  have hrun : SameRun ts ts' (Node.Twin texts limit) (Parser.parse ts limit start)
      (Parser.parse ts' limit start) := by
    unfold Parser.parse
    rw [← oracle_alike h.toAlike, ← start.length_alike h.toAlike, ← h.size]
    refine sameRun_lift_bind _ fun n => sameRun_checkRefused ?_
    split
    · exact fun _ => ⟨rfl, .unexpected n⟩
    · refine (build_twins h start).attempt fun r r' hr => sameRun_checkRefused ?_
      have hgiven : SameRun ts ts' _ (ExceptT.mk (return r)) (ExceptT.mk (return r')) :=
        fun _ => ⟨rfl, hr⟩
      refine hgiven.bind ?_
      rintro ⟨node, stop⟩ ⟨node', _⟩ ⟨hnode, rfl⟩
      exact sameRun_lift_bind _ fun _ => sameRun_pure hnode
  unfold LessCss.parse
  rw [hempty]
  split
  · next hts =>
    rw [Array.isEmpty_iff.1 hts, Array.isEmpty_iff.1 (hempty.trans hts), parseEmpty]
    split
    · exact .ok (Twins.nil.branch (congrFun Option.map_id_fun' limit).symm _ _)
    · exact .unexpected 0
  · exact h.size ▸ (hrun _).2

end LessCss.Parser
