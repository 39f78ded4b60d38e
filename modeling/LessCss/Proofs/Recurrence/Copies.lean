import LessCss.Proofs.Recurrence.Walls
import LessCss.Proofs.Returns

/-! Nodes that recur. Where looking ahead finds the same in two streams, a builder makes the same of
them: it moves as far in both, and its nodes are equal, since texts and places are those of the
tokens. `Copies` says so of a builder that is started at token `i` of the one stream and `d` tokens
further on in the other; the productions follow one by one, each in a window with the walls that
hold back what it reads. -/

namespace LessCss

open Lookahead Builder Grammar Tokens

namespace Builder

variable {ts ts' : Tokens} {A : Reading ts false} {B : Reading ts' false} {α β : Type}
  {walls : List Token.Kind} {d s lo hi i j k : Nat}

/-- The builders, started at token `i` and `d` tokens further on, end at token `j` and `d` tokens
further on, with the same result. They request insides only behind token `s`. -/
def Copies (A : Reading ts false) (B : Reading ts' false) (d s : Nat) (x x' : Builder α)
    (i j : Nat) : Prop :=
  ∃ a, (x i).Returns A s (a, j) ∧ (x' (d + i)).Returns B (d + s) (a, d + j)

theorem Copies.then {x x' : Builder α} {f f' : α → Builder β} (h : Copies A B d s x x' i j)
    (hf : ∀ a, Copies A B d s (f a) (f' a) j k) : Copies A B d s (x >>= f) (x' >>= f') i k := by
  obtain ⟨a, ha, ha'⟩ := h
  obtain ⟨b, hb, hb'⟩ := hf a
  exact ⟨b, Plan.Returns.bind ha hb, Plan.Returns.bind ha' hb'⟩

theorem copies_pure (a : α) : Copies A B d s (pure a) (pure a) i i := ⟨a, rfl, rfl⟩

theorem Copies.cast {x x' : Builder α} (h : Copies A B d s x x' i j) (hjk : j = k) :
    Copies A B d s x x' i k := hjk ▸ h

/-! ## Single steps -/

section
variable {x x' y y' : Builder β} {r : Rule} {q q' : Nat → Lookahead Nat}

theorem copies_cursor {f f' : Nat → Builder β} (h : Copies A B d s (f i) (f' (d + i)) i j) :
    Copies A B d s (cursor >>= f) (cursor >>= f') i j := h

theorem copies_skip {n : Nat} {f f' : Unit → Builder β}
    (h : Copies A B d s (f ()) (f' ()) (i + n) j) :
    Copies A B d s (skip n >>= f) (skip n >>= f') i j := by
  obtain ⟨a, ha, ha'⟩ := h
  rw [← Nat.add_assoc] at ha'
  exact ⟨a, ha, ha'⟩

theorem copies_check {b b' : Bool} {f f' : Unit → Builder β}
    (h : Copies A B d s (f ()) (f' ()) i j) :
    Copies A B d s (check b >>= f) (check b' >>= f') i j := h

theorem copies_look {f f' : Nat → Builder β} (hq : B.value (q' (d + i)) = A.value (q i))
    (h : Copies A B d s (f (A.value (q i))) (f' (A.value (q i))) i j) :
    Copies A B d s (look q >>= f) (look q' >>= f') i j := by
  obtain ⟨a, ha, ha'⟩ := h
  rw [← hq] at ha'
  exact ⟨a, ha, ha'⟩

/-- What a rule covers, asked by a builder. -/
theorem copies_lookOf {f f' : Nat → Builder β} (hr : B.len r (d + i) = A.len r i)
    (h : Copies A B d s (f (A.len r i)) (f' (A.len r i)) i j) :
    Copies A B d s (look (lengthOf r) >>= f) (look (lengthOf r) >>= f') i j := copies_look hr h

theorem copies_ask {f f' : Answer r → Builder β} (hr : B.tell r (d + i) = A.tell r i)
    (h : Copies A B d s (f (A.tell r i)) (f' (A.tell r i)) i j) :
    Copies A B d s (ask r >>= f) (ask r >>= f') i j := by
  obtain ⟨a, ha, ha'⟩ := h
  rw [← hr] at ha'
  exact ⟨a, ha, ha'⟩

theorem copies_sees {f f' : Bool → Builder β} (hq : B.value (q' (d + i)) = A.value (q i))
    (h : Copies A B d s (f (decide (0 < A.value (q i)))) (f' (decide (0 < A.value (q i)))) i j) :
    Copies A B d s (sees q >>= f) (sees q' >>= f') i j := by
  obtain ⟨a, ha, ha'⟩ := h
  rw [← hq] at ha'
  exact ⟨a, ha, ha'⟩

theorem copies_enter {part : Interior} {ns : List Node} (hx : part.meaning ts i = .ok (ns, j))
    (hx' : part.meaning ts' (d + i) = .ok (ns, d + j)) (hs : s < i) (hi : i ≤ ts.size)
    (hi' : d + i ≤ ts'.size) : Copies A B d s (enter part) (enter part) i j :=
  ⟨ns, ⟨⟨hs, hi⟩, _, hx, rfl⟩, ⟨by omega, hi'⟩, _, hx', rfl⟩

/-! ## Choice -/

theorem copies_choose_starts (hr : B.len r (d + i) = A.len r i)
    (hx : 0 < A.len r i → Copies A B d s x x' i j)
    (hy : A.len r i = 0 → Copies A B d s y y' i j) :
    Copies A B d s (choose (starts r) x y) (choose (starts r) x' y') i j := by
  unfold Copies
  rcases Nat.eq_zero_or_pos (A.len r i) with h | h
  · rw [returns_of_not_starts h, returns_of_not_starts (hr.trans h)]
    exact hy h
  · rw [returns_of_starts h, returns_of_starts (hr ▸ h)]
    exact hx h

theorem copies_choose_sees (hq : B.value (q' (d + i)) = A.value (q i))
    (hx : 0 < A.value (q i) → Copies A B d s x x' i j)
    (hy : A.value (q i) = 0 → Copies A B d s y y' i j) :
    Copies A B d s (choose (sees q) x y) (choose (sees q') x' y') i j := by
  unfold Copies
  rcases Nat.eq_zero_or_pos (A.value (q i)) with h | h
  · rw [returns_of_not_sees h, returns_of_not_sees (hq.trans h)]
    exact hy h
  · rw [returns_of_sees h, returns_of_sees (hq ▸ h)]
    exact hx h

theorem copies_given {c : Bool} {xs xs' : Builder (List Node)}
    (hx : c = true → Copies A B d s xs xs' i j) (hn : c = false → i = j) :
    Copies A B d s (given c xs) (given c xs') i j := by
  cases c with
  | true => exact hx rfl
  | false =>
    rw [← hn rfl]
    exact copies_pure []

end

/-! ## Nodes -/

theorem Copies.single {x x' : Builder Node} (h : Copies A B d s x x' i j) :
    Copies A B d s (single x) (single x') i j := h.then fun n => copies_pure [n]

theorem copies_leaf (h : ts.Recurs walls ts' d lo hi) {n : Nat} (kind : Node.Kind) (hn : 0 < n)
    (hlo : lo ≤ i) (hhi : i + n ≤ hi) :
    Copies A B d s (leaf ts kind n) (leaf ts' kind n) i (i + n) := by
  refine ⟨_, rfl, ?_⟩
  change (Node.leaf kind (ts'.join (d + i) (d + i + n)) (ts'.position (d + i)), d + i + n) =
    (Node.leaf kind (ts.join i (i + n)) (ts.position i), d + (i + n))
  rw [Nat.add_assoc, h.join_eq hlo (Nat.le_add_right i n) hhi, h.position_eq hlo (by omega)]

theorem copies_leafOf (h : ts.Recurs walls ts' d lo hi) {q q' : Nat → Lookahead Nat}
    (kind : Node.Kind) (hq : B.value (q' (d + i)) = A.value (q i)) (hn : 0 < A.value (q i))
    (hlo : lo ≤ i) (hhi : i + A.value (q i) ≤ hi) :
    Copies A B d s (leafOf ts kind q) (leafOf ts' kind q') i (i + A.value (q i)) :=
  copies_look hq (copies_leaf h kind hn hlo hhi)

/-- A leaf of what a rule covers. -/
theorem copies_leafOfRule (h : ts.Recurs walls ts' d lo hi) {r : Rule} (kind : Node.Kind)
    (hr : B.len r (d + i) = A.len r i) (hn : 0 < A.len r i) (hlo : lo ≤ i)
    (hhi : i + A.len r i ≤ hi) :
    Copies A B d s (leafOf ts kind (lengthOf r)) (leafOf ts' kind (lengthOf r)) i
      (i + A.len r i) := copies_lookOf hr (copies_leaf h kind hn hlo hhi)

theorem Copies.branch (h : ts.Recurs walls ts' d lo hi) (kind : Node.Kind)
    {xs xs' : Builder (List Node)} (hxs : Copies A B d s xs xs' i j) (hlo : lo ≤ i)
    (hhi : i < hi) : Copies A B d s (branch ts kind xs) (branch ts' kind xs') i j := by
  refine copies_cursor (hxs.then fun ns => ⟨.branch kind ns (ts.position i), rfl, ?_⟩)
  change (Node.branch kind ns (ts'.position (d + i)), d + j) = _
  rw [h.position_eq hlo hhi]

/-! ## Repetition -/

/-- The rounds move over `n` tokens and give the same nodes; they want to go on if there are any
tokens, and give nothing else. -/
def CopiesRound (A : Reading ts false) (B : Reading ts' false) (d s : Nat)
    (round round' : Builder Chunk) (i n : Nat) : Prop :=
  ∃ c : Chunk, (if n = 0 then c = ⟨[], false⟩ else c.more = true) ∧
    (round i).Returns A s (c, i + n) ∧ (round' (d + i)).Returns B (d + s) (c, d + (i + n))

section
variable {x x' y y' : Builder Chunk} {r : Rule} {n : Nat}

theorem copiesRound_cursor {f f' : Nat → Builder Chunk}
    (h : CopiesRound A B d s (f i) (f' (d + i)) i n) :
    CopiesRound A B d s (cursor >>= f) (cursor >>= f') i n := h

theorem copiesRound_none :
    CopiesRound A B d s (return ⟨[], false⟩) (return ⟨[], false⟩) i 0 := ⟨_, rfl, rfl, rfl⟩

theorem Copies.round {x x' : Builder Node} (h : Copies A B d s x x' i (i + n)) (hn : 0 < n) :
    CopiesRound A B d s (do return ⟨[← x], true⟩) (do return ⟨[← x'], true⟩) i n := by
  obtain ⟨node, hx, hx'⟩ := h
  refine ⟨⟨[node], true⟩, ?_, Plan.Returns.bind hx rfl, Plan.Returns.bind hx' rfl⟩
  rw [if_neg (by omega)]

/-- A round that tries a rule first. -/
theorem copiesRound_choose (hr : B.len r (d + i) = A.len r i)
    (hx : 0 < A.len r i → CopiesRound A B d s x x' i (A.len r i))
    (hy : A.len r i = 0 → CopiesRound A B d s y y' i n) :
    CopiesRound A B d s (choose (starts r) x y) (choose (starts r) x' y') i
      (if A.len r i = 0 then n else A.len r i) := by
  unfold CopiesRound
  rcases Nat.eq_zero_or_pos (A.len r i) with h | h
  · rw [if_pos h, returns_of_not_starts h, returns_of_not_starts (hr.trans h)]
    exact hy h
  · rw [if_neg (Nat.ne_of_gt h), returns_of_starts h, returns_of_starts (hr ▸ h)]
    exact hx h

/-- A round that is there only where a rule matches. -/
theorem copiesRound_starts (hr : B.len r (d + i) = A.len r i)
    (hx : 0 < A.len r i → CopiesRound A B d s x x' i (A.len r i)) :
    CopiesRound A B d s (choose (starts r) x (return ⟨[], false⟩))
      (choose (starts r) x' (return ⟨[], false⟩)) i (A.len r i) := by
  have h := copiesRound_choose hr hx fun _ => copiesRound_none
  split at h
  · next hz => rwa [hz]
  · exact h

/-- A round that is there only where the lookahead finds it. -/
theorem copiesRound_sees {q q' : Nat → Lookahead Nat} (hq : B.value (q' (d + i)) = A.value (q i))
    (hx : 0 < A.value (q i) → CopiesRound A B d s x x' i (A.value (q i))) :
    CopiesRound A B d s (choose (sees q) x (return ⟨[], false⟩))
      (choose (sees q') x' (return ⟨[], false⟩)) i (A.value (q i)) := by
  unfold CopiesRound
  rcases Nat.eq_zero_or_pos (A.value (q i)) with h | h
  · rw [h, returns_of_not_sees h, returns_of_not_sees (hq.trans h)]
    exact copiesRound_none
  · rw [returns_of_sees h, returns_of_sees (hq ▸ h)]
    exact hx h

end

/-- A repetition whose rounds are those of a walk of the lookahead. The invariant `I` says which
tokens it comes to. -/
theorem copies_collectWhile {scan : Nat → Lookahead Nat} {round round' : Builder Chunk}
    {I : Nat → Prop} (h : ts.Recurs walls ts' d lo hi) (hin : ∀ j, I j → lo ≤ j ∧ j ≤ hi)
    (hnext : ∀ j, I j → I (j + A.value (scan j)))
    (hround : ∀ j, I j → CopiesRound A B d s round round' j (A.value (scan j))) (hI : I i) :
    Copies A B d s (collect ts.size round) (collect ts'.size round') i
      (A.value (walkWhile ts.size scan i)) := by
  suffices hall : ∀ sofar, ∃ ns, (collectFrom ts.size round sofar i).Returns A s
      (ns, A.value (walkWhile ts.size scan i)) ∧
      (collectFrom ts'.size round' sofar (d + i)).Returns B (d + s)
        (ns, d + A.value (walkWhile ts.size scan i)) from hall []
  generalize hn : hi - i = n
  induction n using Nat.strongRecOn generalizing i with
  | ind n ih =>
    intro sofar
    have hlo := (hin i hI).1
    have hhi := (hin _ (hnext i hI)).2
    obtain ⟨c, hc, hret, hret'⟩ := hround i hI
    rw [walkWhile, A.value_walk, A.value_map]
    change ∃ ns, Plan.Returns A s _ (ns, if i < ts.size then
      if 0 < A.value (scan i) ∧ true = true then
        A.value (walkWhile ts.size scan (i + A.value (scan i)))
      else i + A.value (scan i) else i) ∧ Plan.Returns B (d + s) _ (ns, d + if i < ts.size then
      if 0 < A.value (scan i) ∧ true = true then
        A.value (walkWhile ts.size scan (i + A.value (scan i)))
      else i + A.value (scan i) else i)
    rcases Nat.eq_zero_or_pos (A.value (scan i)) with hz | hpos
    · rw [hz] at hc hret hret'
      obtain rfl : c = ⟨[], false⟩ := hc
      simp only [hz, Nat.lt_irrefl, false_and, if_false, Nat.add_zero, ite_self]
      exact ⟨_, returns_collectFrom_end fun _ => hret, returns_collectFrom_end fun _ => hret'⟩
    · have hsize := h.le_size
      have hsize' := h.lt_size hlo (show i < hi by omega)
      rw [if_neg (by omega)] at hc
      rw [if_pos (show i < ts.size by omega), if_pos ⟨hpos, rfl⟩]
      obtain ⟨ns, hrest, hrest'⟩ := ih _ (show hi - (i + A.value (scan i)) < n by omega)
        (hnext i hI) rfl (c.nodes.reverse ++ sofar)
      exact ⟨ns, returns_collectFrom (by omega) (by omega) hc hret hrest,
        returns_collectFrom hsize' (by omega) hc hret' hrest'⟩

/-- A repetition that goes through the rounds of a trail. -/
theorem copies_collectTo {P : Nat → Nat → Prop} {round round' : Builder (List Node)}
    (ht : Trail P i k)
    (hround : ∀ j l, i ≤ j → l ≤ k → P j l → Copies A B d s round round' j l) :
    Copies A B d s (collectTo k round) (collectTo (d + k) round') i k := by
  suffices hall : ∀ sofar, ∃ ns,
      (collectFrom k (do return ⟨← round, true⟩) sofar i).Returns A s (ns, k) ∧
      (collectFrom (d + k) (do return ⟨← round', true⟩) sofar (d + i)).Returns B (d + s)
        (ns, d + k) from hall []
  induction ht with
  | refl i =>
    exact fun sofar => ⟨sofar.reverse, returns_collectFrom_end fun h => absurd h (Nat.lt_irrefl _),
      returns_collectFrom_end fun h => absurd h (Nat.lt_irrefl _)⟩
  | @step i j k first lt rest ih =>
    intro sofar
    have hle := rest.le
    obtain ⟨ns, hx, hx'⟩ := hround i j (Nat.le_refl i) hle first
    obtain ⟨all, hrest, hrest'⟩ := ih (fun j l hj => hround j l (by omega)) (ns.reverse ++ sofar)
    exact ⟨all, returns_collectFrom (c := ⟨ns, true⟩) (by omega) lt rfl
        (Plan.Returns.bind hx rfl) hrest,
      returns_collectFrom (c := ⟨ns, true⟩) (by omega) (by omega) rfl
        (Plan.Returns.bind hx' rfl) hrest'⟩

end Builder

end LessCss
