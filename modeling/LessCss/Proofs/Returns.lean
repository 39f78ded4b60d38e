import LessCss.Proofs.Schema.Statements
import LessCss.Proofs.Transparency

/-! What builders end with. `Returns` says of a program, run with the answers of a reading, that it
ends with a result and does not fail. For a program that meets its contract this is what a run on
the plain functions of the stream gives, whether it is guarded like the inside of a construct or
not. Results of a sequence are put together from those of its parts, and a repetition that makes
nodes is taken apart into its rounds. -/

namespace LessCss

open Lookahead Builder Grammar

/-- The program, run with the answers of the reading, ends with `a`; insides are requested behind
token `lo`. -/
def Plan.Returns {ts : Tokens} {α : Type} (A : Reading ts false) (lo : Nat) : Plan α → α → Prop
  | .done b, a => b = a
  | .fail _, _ => False
  | .look q next, a => (next (A.value q)).Returns A lo a
  | .ask r i next, a => (next (A.tell r i)).Returns A lo a
  | .build part i next, a =>
    (lo < i ∧ i ≤ ts.size) ∧ ∃ x, part.meaning ts i = .ok x ∧ (next x).Returns A lo a
  | .check _ next, a => next.Returns A lo a
  | .made _ next, a => next.Returns A lo a

namespace Plan

variable {ts : Tokens} {A : Reading ts false} {α β : Type} {lo : Nat}

theorem returns_bind {p : Plan α} {f : α → Plan β} {b : β} :
    (p >>= f).Returns A lo b ↔ ∃ a, p.Returns A lo a ∧ (f a).Returns A lo b := by
  change (p.bind f).Returns A lo b ↔ _
  induction p with
  | done c => exact ⟨fun h => ⟨c, rfl, h⟩, fun ⟨_, ha, h⟩ => ha ▸ h⟩
  | fail i => exact ⟨False.elim, fun ⟨_, ha, _⟩ => ha.elim⟩
  | look q next ih => exact ih _
  | ask r i next ih => exact ih _
  | build part i next ih =>
    constructor
    · rintro ⟨hi, x, hx, hnext⟩
      obtain ⟨a, ha, hb⟩ := (ih x).1 hnext
      exact ⟨a, ⟨hi, x, hx, ha⟩, hb⟩
    · rintro ⟨a, ⟨hi, x, hx, ha⟩, hb⟩
      exact ⟨hi, x, hx, (ih x).2 ⟨a, ha, hb⟩⟩
  | check holds next ih => exact ih
  | made node next ih => exact ih

theorem Returns.bind {p : Plan α} {f : α → Plan β} {a : α} {b : β} (h : p.Returns A lo a)
    (hf : (f a).Returns A lo b) : (p >>= f).Returns A lo b := returns_bind.2 ⟨a, h, hf⟩

theorem Returns.eq {p : Plan α} {a b : α} (h : p.Returns A lo a) (h' : p.Returns A lo b) :
    a = b := by
  induction p with
  | done c => exact h.symm.trans h'
  | fail i => exact h.elim
  | look q next ih => exact ih _ h h'
  | ask r i next ih => exact ih _ h h'
  | build part i next ih =>
    obtain ⟨_, x, hx, hnext⟩ := h
    obtain ⟨_, y, hy, hnext'⟩ := h'
    cases hx.symm.trans hy
    exact ih x hnext hnext'
  | check holds next ih => exact ih h h'
  | made node next ih => exact ih h h'

theorem Returns.mono {lo' : Nat} {p : Plan α} {a : α} (h : p.Returns A lo a) (hlo : lo' ≤ lo) :
    p.Returns A lo' a := by
  induction p with
  | done b => exact h
  | fail i => exact h
  | look q next ih => exact ih _ h
  | ask r i next ih => exact ih _ h
  | build part i next ih =>
    obtain ⟨hi, x, hx, hnext⟩ := h
    exact ⟨⟨Nat.lt_of_le_of_lt hlo hi.1, hi.2⟩, x, hx, ih x hnext⟩
  | check holds next ih => exact ih h
  | made node next ih => exact ih h

theorem Returns.run (wm : ts.WellMarked) {p : Plan α} {a : α} (h : p.Returns A lo a)
    {build : Interior → Nat → Except Error (List Node × Nat)}
    (hb : ∀ part i, lo < i ∧ i ≤ ts.size → build part i = part.meaning ts i) :
    p.run (plainHost ts build) = .ok a := by
  have hA := Parser.tell_eq_meanings wm A
  induction p with
  | done c => exact congrArg Except.ok h
  | fail i => exact h.elim
  | look q next ih =>
    rw [Returns, Parser.value_eq_eval wm A] at h
    exact ih _ h
  | ask r i next ih =>
    rw [Returns, hA] at h
    exact ih _ h
  | build part i next ih =>
    obtain ⟨hi, x, hx, hnext⟩ := h
    change (build part i >>= fun x => (next x).run _) = .ok a
    rw [hb part i hi, hx]
    exact ih x hnext
  | check holds next ih => exact ih h
  | made node next ih => exact ih h

theorem Returns.eval (wm : ts.WellMarked) {p : Plan α} {a : α} (h : p.Returns A lo a) :
    p.eval ts = .ok a := h.run wm fun _ _ _ => rfl

theorem Returns.meaning (wm : ts.WellMarked) {part : Interior} {i : Nat} {x : List Node × Nat}
    (h : (part.content ts i).Returns A i x) : part.meaning ts i = .ok x := by
  rw [Interior.meaning]
  exact h.run wm fun _ _ hi => dif_pos hi

/-! ## Programs that meet their contracts -/

section
variable {E : Nat → Prop} {p : Plan α} {Q : α → Prop} {a : α}

/-- A result is as the contract promises. -/
theorem Meets.of_returns (wm : ts.WellMarked) (h : p.Meets A E lo Q) (ha : p.Returns A lo a) :
    Q a := by
  have hA := Parser.tell_eq_meanings wm A
  induction p with
  | done b => exact ha ▸ h
  | fail i => exact ha.elim
  | look q next ih => exact ih _ h.2 ha
  | ask r i next ih => exact ih _ h ha
  | build part i next ih =>
    obtain ⟨_, x, hx, hnext⟩ := ha
    exact ih x (h.2 x ((meaning_formed wm hA part i x hx).filled h.1.2.2)) hnext
  | check holds next ih => exact ih h.2 ha
  | made node next ih => exact ih h.2 ha

/-- A result is as is ensured. -/
theorem Ensures.of_returns (wm : ts.WellMarked) (h : p.Ensures A Q) (ha : p.Returns A lo a) :
    Q a := by
  have hA := Parser.tell_eq_meanings wm A
  exact h.run hA (fun part i x hx => meaning_formed wm hA part i x hx) (ha.eval wm)

/-- A run on the plain functions of the stream ends with what the program returns. -/
theorem Meets.run_eq_ok_iff (wm : ts.WellMarked) (h : p.Meets A E lo Q)
    {build : Interior → Nat → Except Error (List Node × Nat)}
    (hb : ∀ part i, lo < i ∧ i ≤ ts.size → build part i = part.meaning ts i) :
    p.run (plainHost ts build) = .ok a ↔ p.Returns A lo a := by
  refine ⟨fun ha => ?_, fun ha => ha.run wm hb⟩
  have hA := Parser.tell_eq_meanings wm A
  induction p with
  | done b => exact Except.ok.inj ha
  | fail i => cases ha
  | look q next ih =>
    change (next (q.eval ts)).run (plainHost ts build) = .ok a at ha
    rw [← Parser.value_eq_eval wm A] at ha
    exact ih _ h.2 ha
  | ask r i next ih =>
    change (next (Parser.meanings ts r i)).run (plainHost ts build) = .ok a at ha
    rw [← hA] at ha
    exact ih _ h ha
  | build part i next ih =>
    obtain ⟨⟨hlo, hi, hready⟩, hnext⟩ := h
    change (build part i >>= fun x => (next x).run _) = .ok a at ha
    rw [hb part i ⟨hlo, hi⟩] at ha
    cases hx : part.meaning ts i with
    | error e =>
      rw [hx] at ha
      cases ha
    | ok x =>
      rw [hx] at ha
      exact ⟨⟨hlo, hi⟩, x, hx, ih x (hnext x ((meaning_formed wm hA part i x hx).filled hready)) ha⟩
  | check holds next ih => exact ih h.2 ha
  | made node next ih => exact ih h.2 ha

theorem Meets.eval_eq_ok_iff (wm : ts.WellMarked) (h : p.Meets A E lo Q) :
    p.eval ts = .ok a ↔ p.Returns A lo a := h.run_eq_ok_iff wm fun _ _ _ => rfl

end

end Plan

/-- What is built inside a construct that is ready. -/
theorem Interior.meaning_eq_ok_iff {ts : Tokens} {A : Reading ts false} (wm : ts.WellMarked)
    {part : Interior} {i : Nat} {x : List Node × Nat} (h : part.Ready A i) :
    part.meaning ts i = .ok x ↔ (part.content ts i).Returns A i x := by
  rw [Interior.meaning]
  exact Plan.Meets.run_eq_ok_iff wm (content_runs (E := fun _ => True) wm (fun _ _ => trivial)
    part i h) fun _ _ hi => dif_pos hi

namespace Builder

variable {ts : Tokens} {A : Reading ts false} {α β : Type} {lo i j k stop : Nat}

section
variable {x y : Builder β} {r : Rule} {q : Nat → Lookahead Nat}

theorem returns_cursor {f : Nat → Builder β} :
    ((cursor >>= f) i).Returns A lo = (f i i).Returns A lo := rfl

theorem returns_ask {f : Answer r → Builder β} :
    ((ask r >>= f) i).Returns A lo = (f (A.tell r i) i).Returns A lo := rfl

theorem returns_of_starts (h : 0 < A.len r i) :
    (choose (starts r) x y i).Returns A lo = (x i).Returns A lo := by
  change ((if decide (0 < A.len r i) = true then x else y) i).Returns A lo = _
  rw [decide_eq_true h]
  rfl

theorem returns_of_not_starts (h : A.len r i = 0) :
    (choose (starts r) x y i).Returns A lo = (y i).Returns A lo := by
  change ((if decide (0 < A.len r i) = true then x else y) i).Returns A lo = _
  rw [h]
  rfl

theorem returns_of_sees (h : 0 < A.value (q i)) :
    (choose (sees q) x y i).Returns A lo = (x i).Returns A lo := by
  change ((if decide (0 < A.value (q i)) = true then x else y) i).Returns A lo = _
  rw [decide_eq_true h]
  rfl

theorem returns_of_not_sees (h : A.value (q i) = 0) :
    (choose (sees q) x y i).Returns A lo = (y i).Returns A lo := by
  change ((if decide (0 < A.value (q i)) = true then x else y) i).Returns A lo = _
  rw [h]
  rfl

end

/-- A builder that returns ends where its contract says. -/
theorem GivesAll.ends (wm : ts.WellMarked) {x : Builder (List Node)} {ns : List Node}
    (h : GivesAll A x i j) (hlo : lo ≤ i) (hx : (x i).Returns A lo (ns, k)) : k = j :=
  (Plan.Meets.of_returns wm (h (fun _ => True) lo ⟨fun _ _ => trivial, hlo⟩) hx).1

/-! ## What stands between brackets -/

section
variable {content x : Builder (List Node)} {node : Node} {nodes : List Node} {kind : Node.Kind}

theorem returns_branch : (branch ts kind content i).Returns A lo (node, j) ↔
    ∃ nodes, (content i).Returns A lo (nodes, j) ∧ .branch kind nodes (ts.position i) = node := by
  change ((content i) >>= fun y => .made (.branch kind y.1 (ts.position i))
    (.done (Node.branch kind y.1 (ts.position i), y.2))).Returns A lo (node, j) ↔ _
  rw [Plan.returns_bind]
  constructor
  · rintro ⟨⟨nodes, l⟩, hcontent, he⟩
    obtain ⟨hnode, rfl⟩ := Prod.mk.inj he
    exact ⟨nodes, hcontent, hnode⟩
  · rintro ⟨nodes, hcontent, rfl⟩
    exact ⟨(nodes, j), hcontent, rfl⟩

/-- Where there is a closer, the nodes are those between the brackets. -/
theorem returns_enclosed {closer? : Nat → Option Nat} {inner : Nat → Builder (List Node)} {c : Nat}
    (h : closer? i = some c) : (enclosed closer? inner i).Returns A lo (nodes, k) ↔
      ∃ j, (inner c (i + 1)).Returns A lo (nodes, j) ∧ j + 1 = k := by
  rw [enclosed, returns_cursor, h]
  change ((inner c (i + 1)) >>= fun y => .done (y.1, y.2 + 1)).Returns A lo (nodes, k) ↔ _
  rw [Plan.returns_bind]
  constructor
  · rintro ⟨⟨ns, j⟩, hinner, he⟩
    obtain ⟨rfl, hk⟩ := Prod.mk.inj he
    exact ⟨j, hinner, hk⟩
  · rintro ⟨j, hinner, rfl⟩
    exact ⟨(nodes, j), hinner, rfl⟩

theorem returns_expectAt {c : Nat} :
    ((do let nodes ← x; expectAt c; return nodes : Builder (List Node)) i).Returns A lo (nodes, j) ↔
      j = c ∧ (x i).Returns A lo (nodes, c) := by
  change ((x i) >>= fun y => ((if y.2 ≠ c then unexpected else pure ()) >>= fun _ => pure y.1 :
    Builder (List Node)) y.2).Returns A lo (nodes, j) ↔ _
  rw [Plan.returns_bind]
  constructor
  · rintro ⟨⟨ns, l⟩, hx, hrest⟩
    by_cases hl : l = c
    · subst hl
      rw [if_neg (fun h => h rfl)] at hrest
      obtain ⟨rfl, rfl⟩ := Prod.mk.inj hrest
      exact ⟨rfl, hx⟩
    · rw [if_pos hl] at hrest
      exact hrest.elim
  · rintro ⟨rfl, hx⟩
    refine ⟨(nodes, j), hx, ?_⟩
    rw [if_neg (fun h => h rfl)]
    rfl

/-- An inside that fills the brackets. -/
theorem returns_filling {part : Nat → Interior} {c : Nat} :
    (filling part c i).Returns A lo (nodes, j) ↔
      j = c ∧ (lo < i ∧ i ≤ ts.size) ∧ (part c).meaning ts i = .ok (nodes, c) := by
  rw [filling, returns_expectAt]
  refine and_congr Iff.rfl (and_congr Iff.rfl ⟨?_, fun h => ⟨_, h, rfl⟩⟩)
  rintro ⟨_, hmeaning, rfl⟩
  exact hmeaning

end

/-! ## Nodes in a row -/

/-- The nodes are those that a builder makes from token `i` on, and then those of which `P` holds
where it ends. -/
def Cut (A : Reading ts false) (lo : Nat) (x : Builder (List Node)) (P : Nat → List Node → Prop)
    (i : Nat) (ns : List Node) : Prop :=
  ∃ front back j, ns = front ++ back ∧ (x i).Returns A lo (front, j) ∧ P j back

theorem Cut.congr {x : Builder (List Node)} {P R : Nat → List Node → Prop} {ns : List Node}
    (h : ∀ front j back, (x i).Returns A lo (front, j) → (P j back ↔ R j back)) :
    Cut A lo x P i ns ↔ Cut A lo x R i ns := by
  constructor
  · rintro ⟨front, back, j, rfl, hx, hP⟩
    exact ⟨front, back, j, rfl, hx, (h front j back hx).1 hP⟩
  · rintro ⟨front, back, j, rfl, hx, hR⟩
    exact ⟨front, back, j, rfl, hx, (h front j back hx).2 hR⟩

/-- Nodes of two builders, one after the other. -/
theorem cut_append {x y : Builder (List Node)} {P : Nat → List Node → Prop} {ns : List Node} :
    Cut A lo (do return (← x) ++ (← y)) P i ns ↔ Cut A lo x (Cut A lo y P) i ns := by
  constructor
  · rintro ⟨front, back, k, rfl, hxy, hP⟩
    obtain ⟨⟨a, j⟩, hx, hrest⟩ := Plan.returns_bind.1 hxy
    obtain ⟨⟨b, l⟩, hy, he⟩ := Plan.returns_bind.1 hrest
    obtain ⟨rfl, rfl⟩ := Prod.mk.inj he
    exact ⟨a, b ++ back, j, List.append_assoc .., hx, b, back, _, rfl, hy, hP⟩
  · rintro ⟨a, _, j, rfl, hx, b, back, k, rfl, hy, hP⟩
    exact ⟨a ++ b, back, k, (List.append_assoc ..).symm,
      Plan.Returns.bind hx (Plan.Returns.bind hy rfl), hP⟩

/-- A builder that makes nothing of nothing. -/
theorem cut_none {x : Builder (List Node)} {P : Nat → List Node → Prop} {ns : List Node}
    (h : (x i).Returns A lo ([], i)) : Cut A lo x P i ns ↔ P i ns := by
  constructor
  · rintro ⟨front, back, j, rfl, hx, hP⟩
    obtain ⟨rfl, rfl⟩ := Prod.mk.inj (hx.eq h)
    exact hP
  · intro hP
    exact ⟨[], ns, i, rfl, h, hP⟩

/-! ## Repetition -/

section
variable {round : Builder Chunk} {sofar : List Node}

theorem returns_collectFrom {c : Chunk} {a : List Node × Nat} (hi : i < stop) (hij : i < j)
    (hc : c.more = true) (hround : (round i).Returns A lo (c, j))
    (hrest : (collectFrom stop round (c.nodes.reverse ++ sofar) j).Returns A lo a) :
    (collectFrom stop round sofar i).Returns A lo a := by
  rw [collectFrom, dif_pos hi]
  refine Plan.Returns.bind hround ?_
  dsimp only
  rw [dif_pos ⟨hij, hc⟩]
  exact hrest

theorem returns_collectFrom_end
    (hround : i < stop → (round i).Returns A lo (⟨[], false⟩, i)) :
    (collectFrom stop round sofar i).Returns A lo (sofar.reverse, i) := by
  rw [collectFrom]
  split
  · next hi =>
    refine Plan.Returns.bind (hround hi) ?_
    dsimp only
    rw [dif_neg fun h => Bool.false_ne_true h.2]
    rfl
  · rfl

end

/-- Rounds from token `i` up to token `k`, which is the first one not before `stop`, and their nodes
one after the other. -/
inductive Rounds (A : Reading ts false) (lo stop : Nat) (round : Builder (List Node)) (k : Nat) :
    Nat → List Node → Prop
  | done (h : stop ≤ k) : Rounds A lo stop round k k []
  | round {i j : Nat} {front back : List Node} (lt : i < stop)
    (first : (round i).Returns A lo (front, j)) (moves : i < j)
    (rest : Rounds A lo stop round k j back) : Rounds A lo stop round k i (front ++ back)

namespace Rounds

variable {round : Builder (List Node)} {ns : List Node}

theorem le (h : Rounds A lo stop round k i ns) : i ≤ k := by
  induction h with
  | done _ => exact Nat.le_refl k
  | round _ _ moves _ ih => omega

theorem eq_nil (h : Rounds A lo stop round k k ns) : ns = [] := by
  cases h with
  | done _ => rfl
  | round _ _ moves rest => exact absurd rest.le (by omega)

/-- Where the repetition has come to its end, there are no more rounds. -/
theorem end_iff (hle : stop ≤ i) : Rounds A lo stop round k i ns ↔ i = k ∧ ns = [] := by
  constructor
  · intro h
    cases h with
    | done _ => exact ⟨rfl, rfl⟩
    | round lt _ _ _ => omega
  · rintro ⟨rfl, rfl⟩
    exact .done hle

theorem not_of_fails (hlt : i < stop) (h : ∀ front j, ¬ (round i).Returns A lo (front, j)) :
    ¬ Rounds A lo stop round k i ns := by
  intro hr
  cases hr with
  | done hk => omega
  | round _ first _ _ => exact h _ _ first

/-- Where the repetition has not come to its end, there is a round. -/
theorem cut_iff (hlt : i < stop)
    (hmoves : ∀ front j, (round i).Returns A lo (front, j) → i < j) :
    Rounds A lo stop round k i ns ↔ Cut A lo round (Rounds A lo stop round k) i ns := by
  constructor
  · intro h
    cases h with
    | done hk => omega
    | round _ first _ rest => exact ⟨_, _, _, rfl, first, rest⟩
  · rintro ⟨front, back, j, rfl, first, rest⟩
    exact .round hlt first (hmoves front j first) rest

/-- A repetition gives the nodes of its rounds. -/
theorem returns (h : Rounds A lo stop round k i ns) (sofar : List Node) :
    (collectFrom stop (do return ⟨← round, true⟩) sofar i).Returns A lo (sofar.reverse ++ ns, k) := by
  induction h generalizing sofar with
  | done hk =>
    rw [collectFrom, dif_neg (Nat.not_lt_of_le hk), List.append_nil]
    rfl
  | @round i j front back lt first moves rest ih =>
    refine returns_collectFrom (c := ⟨front, true⟩) lt moves rfl (Plan.Returns.bind first rfl) ?_
    have hrest := ih (front.reverse ++ sofar)
    rwa [List.reverse_append, List.reverse_reverse, List.append_assoc] at hrest

end Rounds

/-- A repetition is its rounds, if each of them moves; `I` says where one can start. -/
theorem returns_collectFrom_iff {round : Builder (List Node)} {sofar all : List Node}
    {I : Nat → Prop} (hI : I i)
    (hmoves : ∀ m front l, I m → m < stop → (round m).Returns A lo (front, l) → m < l ∧ I l) :
    (collectFrom stop (do return ⟨← round, true⟩) sofar i).Returns A lo (all, k) ↔
      ∃ ns, all = sofar.reverse ++ ns ∧ Rounds A lo stop round k i ns := by
  constructor
  · intro h
    generalize hn : stop - i = n
    induction n using Nat.strongRecOn generalizing i sofar with
    | ind n ih =>
      rw [collectFrom] at h
      split at h
      · next hlt =>
        obtain ⟨⟨c, j⟩, hround, hrest⟩ := Plan.returns_bind.1 h
        obtain ⟨⟨front, l⟩, hfront, he⟩ := Plan.returns_bind.1 hround
        obtain ⟨rfl, rfl⟩ := Prod.mk.inj he
        obtain ⟨hil, hl⟩ := hmoves i front l hI hlt hfront
        dsimp only at hrest
        rw [dif_pos ⟨hil, rfl⟩] at hrest
        obtain ⟨ns, rfl, hns⟩ := ih _ (by omega) hl hrest rfl
        refine ⟨front ++ ns, ?_, .round hlt hfront hil hns⟩
        rw [List.reverse_append, List.reverse_reverse, List.append_assoc]
      · next hge =>
        obtain ⟨rfl, rfl⟩ := Prod.mk.inj h
        exact ⟨[], (List.append_nil _).symm, .done (by omega)⟩
  · rintro ⟨ns, rfl, hns⟩
    exact hns.returns sofar

/-- A repetition up to a token is its rounds. -/
theorem returns_collectTo_iff {round : Builder (List Node)} {ns : List Node} {I : Nat → Prop}
    (hI : I i)
    (hmoves : ∀ m front l, I m → m < stop → (round m).Returns A lo (front, l) → m < l ∧ I l) :
    (collectTo stop round i).Returns A lo (ns, k) ↔ Rounds A lo stop round k i ns := by
  refine (returns_collectFrom_iff hI hmoves).trans ⟨?_, fun h => ⟨ns, rfl, h⟩⟩
  rintro ⟨_, rfl, h⟩
  exact h

end Builder

end LessCss
