import LessCss.Proofs.Paths.Rules
import LessCss.Proofs.Returns

/-! Paths through what is built. What is built inside a construct is made of pieces that the
lookahead finds, so a path leads from where it starts to where it ends. -/

namespace LessCss

open Lookahead Builder Grammar Tokens

variable {ts : Tokens} {A : Reading ts false} {s i j : Nat}

namespace Builder

/-- Started at token `i`, the builder ends at token `j`, if it does not fail. -/
def EndsAt {α : Type} (A : Reading ts false) (s : Nat) (x : Builder α) (i j : Nat) : Prop :=
  s ≤ i → ∀ a k, (x i).Returns A s (a, k) → k = j

theorem GivesAll.endsAt (wm : ts.WellMarked) {x : Builder (List Node)} (h : GivesAll A x i j) :
    EndsAt A s x i j := fun hs _ _ hx => h.ends wm hs hx

theorem Gives.endsAt (wm : ts.WellMarked) {x : Builder Node} (h : Gives A x i j) :
    EndsAt A s x i j := fun hs _ _ hx =>
  (Plan.Meets.of_returns wm (h (fun _ => True) s ⟨fun _ _ => trivial, hs⟩) hx).1

theorem EndsAt.bind {α β : Type} {x : Builder α} {f : α → Builder β} {k : Nat}
    (h : EndsAt A s x i j) (hij : i ≤ j) (hf : ∀ a, EndsAt A s (f a) j k) :
    EndsAt A s (x >>= f) i k := by
  intro hs b l hret
  obtain ⟨⟨a, m⟩, ha, hb⟩ := Plan.returns_bind.1 hret
  obtain rfl := h hs a m ha
  exact hf a (Nat.le_trans hs hij) b l hb

theorem EndsAt.map {α β : Type} {x : Builder α} (h : EndsAt A s x i j) (f : α → β) :
    EndsAt A s (do return f (← x)) i j := by
  intro hs b k hret
  obtain ⟨⟨a, l⟩, ha, he⟩ := Plan.returns_bind.1 hret
  obtain ⟨_, rfl⟩ := Prod.mk.inj he
  exact h hs a _ ha

/-- What a branch holds ends where the branch does. -/
theorem EndsAt.content {k : Node.Kind} {xs : Builder (List Node)}
    (h : EndsAt A s (branch ts k xs) i j) : EndsAt A s xs i j :=
  fun hs ns l hret => h hs _ l (returns_branch.2 ⟨ns, hret, rfl⟩)

/-- An inside that was read by the lookahead ends where it was read to. -/
theorem enter_endsAt (wm : ts.WellMarked) {part : Interior} (hready : part.Ready A i)
    (hends : ∀ k, part.Ends A i k → k = j) : EndsAt A s (enter part) i j := by
  rintro _ ns k ⟨_, _, hx, rfl⟩
  exact hends _ ((meaning_formed wm (Parser.tell_eq_meanings wm A) part _ _ hx).filled hready).2

/-- What is built of the answer to a question ends where the answer says. -/
theorem answer_endsAt (wm : ts.WellMarked) {r : Rule} {f : Answer r → Builder (List Node)}
    (hnone : f none = unexpected)
    (hn : ∀ m, A.tell r i = some m → GivesAll A (f (some m)) i (i + m.length)) :
    EndsAt A s (ask r >>= f) i (i + A.len r i) := by
  intro hs ns k hret
  rw [returns_ask] at hret
  rw [Reading.len]
  cases ht : A.tell r i with
  | none =>
    rw [ht, hnone] at hret
    exact hret.elim
  | some m =>
    rw [ht] at hret
    exact (hn m ht).ends wm hs hret

/-- A repetition up to a token goes along a path if its rounds do. -/
theorem Rounds.path {stop k : Nat} {round : Builder (List Node)} {ns : List Node}
    (h : Rounds A s stop round k i ns) (hs : s ≤ i)
    (hround : ∀ j front l, s ≤ j → (round j).Returns A s (front, l) → ts.Path j l) :
    ts.Path i k := by
  induction h with
  | done _ => exact path_self ts k
  | round _ first moves _ ih => exact (hround _ _ _ hs first).trans (ih (by omega))

theorem collectTo_path {stop k : Nat} {round : Builder (List Node)} {ns : List Node}
    (h : (collectTo stop round i).Returns A s (ns, k)) (hs : s ≤ i)
    (hround : ∀ j front l, s ≤ j → (round j).Returns A s (front, l) → j < l ∧ ts.Path j l) :
    ts.Path i k := by
  refine ((returns_collectTo_iff (I := fun j => s ≤ j) hs fun j front l hj _ hret => ?_).1 h).path
    hs fun j front l hj hret => (hround j front l hj hret).2
  have hlt := (hround j front l hj hret).1
  exact ⟨hlt, by omega⟩

/-- A round of an argument list moves over a declaration, an argument or a class. -/
theorem argumentRound_path (hr : ts.Regular) {front : List Node} {l : Nat} (hs : s ≤ i)
    (h : (choose (starts .declaration) (single (declarationNode ts)) (do
      match (← ask .argument).shape? with
      | some part => argumentNodes ts part
      | none => choose (starts .classSelector) (single (classNode ts)) unexpected) i).Returns A s
        (front, l)) :
    i < l ∧ ts.Path i l := by
  rcases Nat.eq_zero_or_pos (A.len .declaration i) with hz | hpos
  · rw [returns_of_not_starts hz, returns_ask] at h
    cases ht : A.tell .argument i with
    | some m =>
      rw [ht] at h
      have hlen : m.length = A.len .argument i := by rw [Reading.len, ht]; rfl
      obtain rfl := (argumentNodes_gives hr.wm ht).ends hr.wm hs h
      exact ⟨Nat.lt_add_of_pos_right m.length_pos, hlen ▸ argument_path hr i⟩
    | none =>
      rw [ht] at h
      change (choose (starts .classSelector) (single (classNode ts)) unexpected i).Returns A s
        (front, l) at h
      rcases Nat.eq_zero_or_pos (A.len .classSelector i) with hz | hpos
      · rw [returns_of_not_starts hz] at h
        exact h.elim
      · rw [returns_of_starts hpos] at h
        obtain rfl := (classNode_gives hr.wm hpos).single.ends hr.wm hs h
        exact ⟨Nat.lt_add_of_pos_right hpos, classSelector_path hr i⟩
  · rw [returns_of_starts hpos] at h
    obtain rfl := (declarationNode_gives hr.wm hpos).single.ends hr.wm hs h
    exact ⟨Nat.lt_add_of_pos_right hpos, declaration_path hr i⟩

/-- A round of a block moves over a chunk. -/
theorem blockRound_path (hr : ts.Regular) {front : List Node} {l : Nat} (hs : s ≤ i)
    (h : ((do
      match (← ask .blockChunk).shape? with
      | some shape => blockChunkNodes ts shape
      | none => unexpected : Builder (List Node)) i).Returns A s (front, l)) :
    i < l ∧ ts.Path i l := by
  rw [returns_ask] at h
  cases ht : A.tell .blockChunk i with
  | some m =>
    rw [ht] at h
    have hlen : m.length = A.len .blockChunk i := by rw [Reading.len, ht]; rfl
    obtain rfl := (blockChunkNodes_gives hr.wm ht).ends hr.wm hs h
    exact ⟨Nat.lt_add_of_pos_right m.length_pos, hlen ▸ blockChunk_path hr i⟩
  | none =>
    rw [ht] at h
    exact h.elim

end Builder

/-- A path leads through the inside of a construct. -/
theorem Interior.meaning_path (hr : ts.Regular) {part : Interior} {x : List Node × Nat}
    (hready : part.Ready A i) (hx : part.meaning ts i = .ok x) : ts.Path i x.2 := by
  have hends := ((meaning_formed hr.wm (Parser.tell_eq_meanings hr.wm A) part i x hx).filled
    hready).2
  obtain ⟨ns, k⟩ := x
  have hret := (meaning_eq_ok_iff hr.wm hready).1 hx
  cases part with
  | group => exact (preludeNodes_gives hr.wm A i).ends hr.wm (Nat.le_refl i) hret ▸ prelude_path hr i
  | arguments c => exact collectTo_path hret (Nat.le_refl i) fun _ _ _ => argumentRound_path hr
  | block c => exact collectTo_path hret (Nat.le_refl i) fun _ _ _ => blockRound_path hr
  | rules c =>
    obtain ⟨o, rfl, hc, hbody⟩ := hready
    obtain rfl : k = c := hends
    refine (ruleBody_trail hr.wm ?_ hbody).flatten fun j l hl => ?_
    · exact Nat.lt_trans (hr.wm.closer_lt hc).1 (hr.wm.closer_lt hc).2
    · rw [hl.2]
      exact nestedRule_path hr j
  | keyframes c =>
    obtain ⟨o, rfl, hc, hpos⟩ := hready
    obtain rfl : k = c := hends
    obtain ⟨c, hc', _, htrail⟩ := keyframes_cases hr.wm hpos
    cases hc.symm.trans hc'
    exact htrail.flatten fun _ _ => keyframesPiece_path hr
  | selectors =>
    obtain rfl : k = i + A.len .selectorGroup i := hends
    exact selectorGroup_path hr i
  | var =>
    obtain rfl : k = i + A.len .var i := hends
    exact var_path hr i

end LessCss
