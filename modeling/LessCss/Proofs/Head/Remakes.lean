import LessCss.Proofs.Head.Outer
import LessCss.Proofs.Paths.Insides
import LessCss.Proofs.Recurrence.Compounds

/-! What is built at the head of a stream. A builder that ends in the shorter stream when it is run
in the longer one makes the same nodes in both: what it asks for ends no later than it does itself,
so the answers are the same, and texts and places are those of the tokens. -/

namespace LessCss

open Lookahead Builder Grammar Tokens

variable {ts ts' : Tokens} {A : Reading ts false} {B : Reading ts' false} {s i j k : Nat}

namespace Builder

variable {α β : Type}

/-- What the second builder, started at token `i` of the longer stream, ends with stands at that
token or behind it; and if it ends in the shorter stream, then there the first builder ends with
the same. Insides are requested behind token `s`. -/
def Remakes (A : Reading ts false) (B : Reading ts' false) (s : Nat) (x x' : Builder α)
    (i : Nat) : Prop :=
  s ≤ i → ∀ a k, (x' i).Returns B s (a, k) →
    i ≤ k ∧ (k ≤ ts.size → (x i).Returns A s (a, k))

theorem Remakes.bind {x x' : Builder α} {f f' : α → Builder β} (hx : Remakes A B s x x' i)
    (hf : ∀ a j, s ≤ i → i ≤ j → (x' i).Returns B s (a, j) → Remakes A B s (f a) (f' a) j) :
    Remakes A B s (x >>= f) (x' >>= f') i := by
  intro hs b k hret
  obtain ⟨⟨a, j⟩, ha, hb⟩ := Plan.returns_bind.1 hret
  obtain ⟨hij, hxa⟩ := hx hs a j ha
  obtain ⟨hjk, hfb⟩ := hf a j hs hij ha (Nat.le_trans hs hij) b k hb
  exact ⟨Nat.le_trans hij hjk,
    fun hk => Plan.Returns.bind (hxa (Nat.le_trans hjk hk)) (hfb hk)⟩

theorem Remakes.then {x x' : Builder α} {f f' : α → Builder β} (hx : Remakes A B s x x' i)
    (hf : ∀ a j, Remakes A B s (f a) (f' a) j) : Remakes A B s (x >>= f) (x' >>= f') i :=
  hx.bind fun a j _ _ _ => hf a j

/-- A sequence whose first part is known to end at token `j`. -/
theorem Remakes.thenAt {x x' : Builder α} {f f' : α → Builder β} (hx : Remakes A B s x x' i)
    (hend : EndsAt B s x' i j) (hf : ∀ a, Remakes A B s (f a) (f' a) j) :
    Remakes A B s (x >>= f) (x' >>= f') i :=
  hx.bind fun a _ hs _ hret => hend hs a _ hret ▸ hf a

theorem remakes_pure (a : α) : Remakes A B s (pure a) (pure a) i := by
  rintro _ _ _ ⟨⟩
  exact ⟨Nat.le_refl i, fun _ => rfl⟩

theorem Remakes.single {x x' : Builder Node} (h : Remakes A B s x x' i) :
    Remakes A B s (Builder.single x) (Builder.single x') i := h.then fun n _ => remakes_pure [n]

/-- What has been told of a window of both streams. -/
theorem Copies.remakes {x x' : Builder α} (h : Copies A B 0 s x x' i j) (hij : i ≤ j) :
    Remakes A B s x x' i := by
  intro _ a k hret
  obtain ⟨b, hb, hb'⟩ := h
  rw [Nat.zero_add, Nat.zero_add, Nat.zero_add] at hb'
  obtain ⟨rfl, rfl⟩ := Prod.mk.inj (hret.eq hb')
  exact ⟨hij, fun _ => hb⟩

/-- What ends behind the shorter stream need not be made there. -/
theorem remakes_of_fits {x x' : Builder α} (hend : EndsAt B s x' i j) (hij : i ≤ j)
    (h : j ≤ ts.size → Remakes A B s x x' i) : Remakes A B s x x' i := by
  intro hs a k hret
  obtain rfl := hend hs a k hret
  exact ⟨hij, fun hk => (h hk hs a k hret).2 hk⟩

/-! ## Single steps -/

section
variable {x x' y y' : Builder β} {r : Rule} {q q' : Nat → Lookahead Nat}

theorem remakes_cursor {f f' : Nat → Builder β} (h : Remakes A B s (f i) (f' i) i) :
    Remakes A B s (cursor >>= f) (cursor >>= f') i := h

theorem remakes_skip {n : Nat} {f f' : Unit → Builder β}
    (h : Remakes A B s (f ()) (f' ()) (i + n)) :
    Remakes A B s (skip n >>= f) (skip n >>= f') i := by
  intro hs a k hret
  obtain ⟨hik, ha⟩ := h (Nat.le_add_right_of_le hs) a k hret
  exact ⟨Nat.le_trans (Nat.le_add_right i n) hik, ha⟩

theorem remakes_check {b b' : Bool} {f f' : Unit → Builder β} (h : Remakes A B s (f ()) (f' ()) i) :
    Remakes A B s (check b >>= f) (check b' >>= f') i := h

theorem remakes_unexpected : Remakes A B s x unexpected i := fun _ _ _ hret => hret.elim

theorem remakes_expectAt {c : Nat} {f f' : Unit → Builder β}
    (h : i = c → Remakes A B s (f ()) (f' ()) i) :
    Remakes A B s (expectAt c >>= f) (expectAt c >>= f') i := by
  change Remakes A B s ((if i ≠ c then unexpected else pure ()) >>= f)
    ((if i ≠ c then unexpected else pure ()) >>= f') i
  by_cases hc : i = c
  · rw [if_neg fun h => h hc]
    exact h hc
  · rw [if_pos hc]
    exact fun _ _ _ hret => hret.elim

/-- A measure, if it is the same wherever the builder ends in the shorter stream. -/
theorem remakes_look_of {f f' : Nat → Builder β}
    (hq : ∀ a k, s ≤ i → ((look q' >>= f') i).Returns B s (a, k) → k ≤ ts.size →
      A.value (q i) = B.value (q' i))
    (h : Remakes A B s (f (B.value (q' i))) (f' (B.value (q' i))) i) :
    Remakes A B s (look q >>= f) (look q' >>= f') i := by
  intro hs a k hret
  obtain ⟨hik, ha⟩ := h hs a k hret
  refine ⟨hik, fun hk => ?_⟩
  change ((f (A.value (q i))) i).Returns A s (a, k)
  rw [hq a k hs hret hk]
  exact ha hk

theorem remakes_look {f f' : Nat → Builder β} (hq : A.value (q i) = B.value (q' i))
    (h : Remakes A B s (f (B.value (q' i))) (f' (B.value (q' i))) i) :
    Remakes A B s (look q >>= f) (look q' >>= f') i := remakes_look_of (fun _ _ _ _ _ => hq) h

/-- An answer, if it is the same wherever the builder ends in the shorter stream. -/
theorem remakes_ask_of {f f' : Answer r → Builder β}
    (hr : ∀ a k, s ≤ i → ((ask r >>= f') i).Returns B s (a, k) → k ≤ ts.size →
      A.tell r i = B.tell r i)
    (h : Remakes A B s (f (B.tell r i)) (f' (B.tell r i)) i) :
    Remakes A B s (ask r >>= f) (ask r >>= f') i := by
  intro hs a k hret
  obtain ⟨hik, ha⟩ := h hs a k hret
  refine ⟨hik, fun hk => ?_⟩
  change ((f (A.tell r i)) i).Returns A s (a, k)
  rw [hr a k hs hret hk]
  exact ha hk

theorem remakes_tell {f f' : Answer r → Builder β} (hr : A.tell r i = B.tell r i)
    (h : Remakes A B s (f (B.tell r i)) (f' (B.tell r i)) i) :
    Remakes A B s (ask r >>= f) (ask r >>= f') i := remakes_ask_of (fun _ _ _ _ _ => hr) h

/-- An answer that is kept, where the builder moves over what is found. -/
theorem remakes_ask {f f' : Answer r → Builder β} (hr : A.Keeps B r i)
    (hend : EndsAt B s (ask r >>= f') i (i + B.len r i))
    (h : Remakes A B s (f (B.tell r i)) (f' (B.tell r i)) i) :
    Remakes A B s (ask r >>= f) (ask r >>= f') i :=
  remakes_ask_of (fun a k hs hret hk => hr (hend hs a k hret ▸ hk)) h

/-- What is built of an answer that is kept. -/
theorem remakes_answer {f f' : Answer r → Builder (List Node)} (wm : ts'.WellMarked)
    (hr : A.Keeps B r i) (hnone : f' none = unexpected)
    (hgives : ∀ m, B.tell r i = some m → GivesAll B (f' (some m)) i (i + m.length))
    (hnodes : ∀ m, B.tell r i = some m → Remakes A B s (f (some m)) (f' (some m)) i) :
    Remakes A B s (ask r >>= f) (ask r >>= f') i := by
  refine remakes_ask hr (answer_endsAt wm hnone hgives) ?_
  cases ht : B.tell r i with
  | none =>
    rw [hnone]
    exact remakes_unexpected
  | some m => exact hnodes m ht

/-- An answer about a token further on, if it is the same wherever the builder ends in the shorter
stream. -/
theorem remakes_ahead_of {f f' : Answer r → Builder β}
    (hr : ∀ a k, s ≤ i → ((do f' (← askAhead r (← look q'))) i).Returns B s (a, k) →
      k ≤ ts.size → A.tell r (i + A.value (q i)) = B.tell r (i + B.value (q' i)))
    (h : Remakes A B s (f (B.tell r (i + B.value (q' i)))) (f' (B.tell r (i + B.value (q' i)))) i) :
    Remakes A B s (do f (← askAhead r (← look q))) (do f' (← askAhead r (← look q'))) i := by
  intro hs a k hret
  obtain ⟨hik, ha⟩ := h hs a k hret
  refine ⟨hik, fun hk => ?_⟩
  change ((f (A.tell r (i + A.value (q i)))) i).Returns A s (a, k)
  rw [hr a k hs hret hk]
  exact ha hk

theorem remakes_enter {part : Interior} (h : ∀ x, s < i → part.meaning ts' i = .ok x →
    i ≤ x.2 ∧ (x.2 ≤ ts.size → part.meaning ts i = .ok x)) :
    Remakes A B s (enter part) (enter part) i := by
  rintro _ ns k ⟨⟨hs, _⟩, x, hx, rfl⟩
  obtain ⟨hik, hmeaning⟩ := h _ hs hx
  exact ⟨hik, fun hk => ⟨⟨hs, Nat.le_trans hik hk⟩, _, hmeaning hk, rfl⟩⟩

/-! ## Choice -/

theorem remakes_choose_starts (hr : ts.Kept i (A.len r i) (B.len r i))
    (hend : 0 < B.len r i → EndsAt B s x' i (i + B.len r i))
    (hx : 0 < B.len r i → Remakes A B s x x' i) (hy : B.len r i = 0 → Remakes A B s y y' i) :
    Remakes A B s (choose (starts r) x y) (choose (starts r) x' y') i := by
  intro hs a k hret
  rcases Nat.eq_zero_or_pos (B.len r i) with hz | hpos
  · rw [returns_of_not_starts hz] at hret
    obtain ⟨hik, ha⟩ := hy hz hs a k hret
    refine ⟨hik, fun hk => ?_⟩
    rw [returns_of_not_starts (by rw [hr (by omega), hz])]
    exact ha hk
  · rw [returns_of_starts hpos] at hret
    obtain ⟨hik, ha⟩ := hx hpos hs a k hret
    refine ⟨hik, fun hk => ?_⟩
    rw [returns_of_starts (by rw [hr (hend hpos hs a k hret ▸ hk)]; exact hpos)]
    exact ha hk

theorem remakes_choose_sees (hq : ts.Kept i (A.value (q i)) (B.value (q' i)))
    (hend : 0 < B.value (q' i) → EndsAt B s x' i (i + B.value (q' i)))
    (hx : 0 < B.value (q' i) → Remakes A B s x x' i)
    (hy : B.value (q' i) = 0 → Remakes A B s y y' i) :
    Remakes A B s (choose (sees q) x y) (choose (sees q') x' y') i := by
  intro hs a k hret
  rcases Nat.eq_zero_or_pos (B.value (q' i)) with hz | hpos
  · rw [returns_of_not_sees hz] at hret
    obtain ⟨hik, ha⟩ := hy hz hs a k hret
    refine ⟨hik, fun hk => ?_⟩
    rw [returns_of_not_sees (by rw [hq (by omega), hz])]
    exact ha hk
  · rw [returns_of_sees hpos] at hret
    obtain ⟨hik, ha⟩ := hx hpos hs a k hret
    refine ⟨hik, fun hk => ?_⟩
    rw [returns_of_sees (by rw [hq (hend hpos hs a k hret ▸ hk)]; exact hpos)]
    exact ha hk

theorem remakes_given {c : Bool} {xs xs' : Builder (List Node)}
    (h : c = true → Remakes A B s xs xs' i) : Remakes A B s (given c xs) (given c xs') i := by
  cases c with
  | true => exact h rfl
  | false => exact remakes_pure []

end

/-! ## Repetition -/

section
variable {round round' : Builder Chunk} {sofar : List Node} {stop stop' : Nat} {I : Nat → Prop}

/-- A repetition of rounds that are remade, up to the same token in both streams or up to the ends
of the streams. The invariant `I` says which tokens it comes to. -/
theorem remakes_collectFrom (hle : stop ≤ stop')
    (hstop : stop = stop' ∨ stop = ts.size ∧ ∀ c, I ts.size → s ≤ ts.size →
      (round' ts.size).Returns B s (c, ts.size) → c.nodes = [])
    (hnext : ∀ j c l, I j → s ≤ j → j < stop' → (round' j).Returns B s (c, l) → I l)
    (hround : ∀ j, I j → j < stop' → Remakes A B s round round' j) (hI : I i) :
    Remakes A B s (collectFrom stop round sofar) (collectFrom stop' round' sofar) i := by
  generalize hn : stop' - i = n
  induction n using Nat.strongRecOn generalizing i sofar with
  | ind n ih =>
    intro hs ns k hret
    rw [collectFrom] at hret
    split at hret
    · next hlt =>
      obtain ⟨⟨c, j⟩, hc, hrest⟩ := Plan.returns_bind.1 hret
      obtain ⟨hij, hA⟩ := hround i hI hlt hs c j hc
      dsimp only at hrest
      split at hrest
      · next hgo =>
        obtain ⟨hjk, hrestA⟩ := ih (stop' - j) (by omega) (hnext i c j hI hs hlt hc) rfl
          (Nat.le_trans hs hij) ns k hrest
        refine ⟨Nat.le_trans hij hjk, fun hk => ?_⟩
        exact returns_collectFrom (by omega) hgo.1 hgo.2 (hA (Nat.le_trans hjk hk)) (hrestA hk)
      · next hend =>
        obtain ⟨rfl, rfl⟩ := Prod.mk.inj hrest
        refine ⟨hij, fun hk => ?_⟩
        by_cases hlt' : i < stop
        · rw [collectFrom, dif_pos hlt']
          refine Plan.Returns.bind (hA hk) ?_
          dsimp only
          rw [dif_neg hend]
          rfl
        · -- the shorter stream has come to its end
          rcases hstop with rfl | ⟨rfl, hidle⟩
          · exact absurd hlt hlt'
          · obtain rfl : i = ts.size := by omega
            obtain rfl : j = ts.size := by omega
            rw [hidle c hI hs hc, collectFrom, dif_neg hlt']
            rfl
    · next hge =>
      obtain ⟨rfl, rfl⟩ := Prod.mk.inj hret
      refine ⟨Nat.le_refl _, fun hk => ?_⟩
      rw [collectFrom, dif_neg (by omega)]
      rfl

end

/-- A round is remade, and where it does not move, it gives nothing. -/
def RemakesRound (A : Reading ts false) (B : Reading ts' false) (s : Nat)
    (round round' : Builder Chunk) (i : Nat) : Prop :=
  Remakes A B s round round' i ∧
    (s ≤ i → ∀ c, (round' i).Returns B s (c, i) → c.nodes = [])

theorem remakes_collect {round round' : Builder Chunk} {I : Nat → Prop} (h : ts.Head ts')
    (hnext : ∀ j c l, I j → s ≤ j → j < ts'.size → (round' j).Returns B s (c, l) → I l)
    (hround : ∀ j, I j → RemakesRound A B s round round' j) (hI : I i) :
    Remakes A B s (collect ts.size round) (collect ts'.size round') i :=
  remakes_collectFrom h.le_size (Or.inr ⟨rfl, fun c hI hs => (hround _ hI).2 hs c⟩) hnext
    (fun j hj _ => (hround j hj).1) hI

theorem remakes_collectTo {round round' : Builder (List Node)} {stop : Nat} {I : Nat → Prop}
    (hnext : ∀ j front l, I j → s ≤ j → j < stop → (round' j).Returns B s (front, l) → I l)
    (hround : ∀ j, I j → j < stop → Remakes A B s round round' j) (hI : I i) :
    Remakes A B s (collectTo stop round) (collectTo stop round') i := by
  refine remakes_collectFrom (Nat.le_refl stop) (Or.inl rfl) (fun j c l hj hs hlt hret => ?_)
    (fun j hj hlt => (hround j hj hlt).then fun ns _ => remakes_pure _) hI
  obtain ⟨⟨front, l'⟩, hfront, he⟩ := Plan.returns_bind.1 hret
  obtain ⟨_, rfl⟩ := Prod.mk.inj he
  exact hnext j front _ hj hs hlt hfront

/-- A repetition that goes through the rounds of a trail. -/
theorem remakes_collectTrail {P : Nat → Nat → Prop} {round round' : Builder (List Node)}
    (ht : Trail P i k) (hend : ∀ j l, P j l → EndsAt B s round' j l)
    (hround : ∀ j l, Trail P i j → P j l → Remakes A B s round round' j) :
    Remakes A B s (collectTo k round) (collectTo k round') i := by
  refine remakes_collectTo (I := fun j => Trail P i j ∧ Trail P j k)
    (fun j front l hj hs hlt hret => ?_) (fun j hj hlt => ?_) ⟨.refl i, ht⟩
  · obtain ⟨before, behind⟩ := hj
    cases behind with
    | refl => exact absurd hlt (Nat.lt_irrefl _)
    | step first lt rest =>
      obtain rfl := hend _ _ first hs front l hret
      exact ⟨before.trans (.single first lt), rest⟩
  · obtain ⟨before, behind⟩ := hj
    cases behind with
    | refl => exact absurd hlt (Nat.lt_irrefl _)
    | step first _ _ => exact hround _ _ before first

theorem remakesRound_none : RemakesRound A B s (return ⟨[], false⟩) (return ⟨[], false⟩) i := by
  refine ⟨remakes_pure _, ?_⟩
  rintro _ _ ⟨⟩
  rfl

theorem Remakes.round {x x' : Builder Chunk} (h : Remakes A B s x x' i) (hend : EndsAt B s x' i j)
    (hij : i < j) : RemakesRound A B s x x' i :=
  ⟨h, fun hs c hret => absurd (hend hs c i hret) (Nat.ne_of_lt hij)⟩

/-- A round of one node. -/
theorem Remakes.chunk {x x' : Builder Node} (h : Remakes A B s x x' i) :
    Remakes A B s (do return ⟨[← x], true⟩ : Builder Chunk) (do return ⟨[← x'], true⟩) i :=
  h.then fun n _ => remakes_pure (⟨[n], true⟩ : Chunk)

section
variable {x x' y y' : Builder Chunk} {r : Rule} {q q' : Nat → Lookahead Nat}

theorem remakesRound_starts (hr : ts.Kept i (A.len r i) (B.len r i))
    (hend : 0 < B.len r i → EndsAt B s x' i (i + B.len r i))
    (hx : 0 < B.len r i → Remakes A B s x x' i) (hy : RemakesRound A B s y y' i) :
    RemakesRound A B s (choose (starts r) x y) (choose (starts r) x' y') i := by
  refine ⟨remakes_choose_starts hr hend hx fun _ => hy.1, fun hs c hret => ?_⟩
  rcases Nat.eq_zero_or_pos (B.len r i) with hz | hpos
  · rw [returns_of_not_starts hz] at hret
    exact hy.2 hs c hret
  · rw [returns_of_starts hpos] at hret
    exact ((hx hpos).round (hend hpos) (Nat.lt_add_of_pos_right hpos)).2 hs c hret

theorem remakesRound_sees (hq : ts.Kept i (A.value (q i)) (B.value (q' i)))
    (hend : 0 < B.value (q' i) → EndsAt B s x' i (i + B.value (q' i)))
    (hx : 0 < B.value (q' i) → Remakes A B s x x' i) (hy : RemakesRound A B s y y' i) :
    RemakesRound A B s (choose (sees q) x y) (choose (sees q') x' y') i := by
  refine ⟨remakes_choose_sees hq hend hx fun _ => hy.1, fun hs c hret => ?_⟩
  rcases Nat.eq_zero_or_pos (B.value (q' i)) with hz | hpos
  · rw [returns_of_not_sees hz] at hret
    exact hy.2 hs c hret
  · rw [returns_of_sees hpos] at hret
    exact ((hx hpos).round (hend hpos) (Nat.lt_add_of_pos_right hpos)).2 hs c hret

end

/-! ## Nodes -/

section
variable (h : ts.Head ts')
include h

theorem Remakes.branch (kind : Node.Kind) {xs xs' : Builder (List Node)}
    (hxs : Remakes A B s xs xs' i) :
    Remakes A B s (branch ts kind xs) (branch ts' kind xs') i := by
  intro hs n k hret
  obtain ⟨nodes, hnodes, rfl⟩ := returns_branch.1 hret
  obtain ⟨hik, hA⟩ := hxs hs nodes k hnodes
  refine ⟨hik, fun hk => returns_branch.2 ⟨nodes, hA hk, ?_⟩⟩
  rw [h.position_eq (Nat.le_trans hik hk)]

theorem remakes_leaf (kind : Node.Kind) {n n' : Nat} (hn : ts.Kept i n n') :
    Remakes A B s (leaf ts kind n) (leaf ts' kind n') i := by
  rintro _ _ _ ⟨⟩
  refine ⟨Nat.le_add_right i n', fun hk => ?_⟩
  change (_, _) = (_, _)
  rw [hn hk, h.join_eq (Nat.le_add_right i n') hk,
    h.position_eq (Nat.le_trans (Nat.le_add_right i n') hk)]

/-- A leaf of one token. -/
theorem remakes_mark (kind : Node.Kind) (i : Nat) :
    Remakes A B s (leaf ts kind 1) (leaf ts' kind 1) i := remakes_leaf h kind fun _ => rfl

theorem remakes_leafOf (kind : Node.Kind) {q q' : Nat → Lookahead Nat}
    (hq : ts.Kept i (A.value (q i)) (B.value (q' i))) :
    Remakes A B s (leafOf ts kind q) (leafOf ts' kind q') i :=
  remakes_leaf (A := A) (B := B) h kind hq

end

end Builder

end LessCss
