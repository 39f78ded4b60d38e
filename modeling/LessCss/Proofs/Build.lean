import LessCss.Proofs.Contract

/-! Rules for taking builders apart. `Runs` is the contract of a builder that starts at token `i`;
`Gives` and `GivesAll` are the contract that productions have: the builder moves from token `i` to
token `j`, and its node or its nodes stand for the tokens between. Repetitions go by an invariant of
the cursor; where the lookahead has gone through the same rounds before, these rounds are a
`Trail`. -/

namespace LessCss

open Lookahead

/-- A place where something can be built: failing is allowed at deferred tokens, and `i` is not
before `lo`. -/
structure Site (ts : Tokens) (E : Nat → Prop) (lo i : Nat) : Prop where
  deferred : ∀ j, ts.Deferred j → E j
  le : lo ≤ i

theorem Site.mono {ts : Tokens} {E : Nat → Prop} {lo i j : Nat} (h : Site ts E lo i) (hij : i ≤ j) :
    Site ts E lo j := ⟨h.deferred, Nat.le_trans h.le hij⟩

/-- Rounds from token `i` to token `k`, each of them forward. -/
inductive Trail (P : Nat → Nat → Prop) : Nat → Nat → Prop
  | refl (i : Nat) : Trail P i i
  | step {i j k : Nat} (round : P i j) (lt : i < j) (rest : Trail P j k) : Trail P i k

namespace Trail

variable {P R : Nat → Nat → Prop} {i j k : Nat}

theorem le (h : Trail P i k) : i ≤ k := by
  induction h with
  | refl i => exact Nat.le_refl i
  | step _ lt _ ih => omega

theorem single (h : P i j) (lt : i < j) : Trail P i j := .step h lt (.refl j)

theorem cast (h : Trail P i j) (hjk : j = k) : Trail P i k := hjk ▸ h

theorem trans (h : Trail P i j) (h' : Trail P j k) : Trail P i k := by
  induction h with
  | refl i => exact h'
  | step round lt _ ih => exact .step round lt (ih h')

/-- A trail of rounds each of which is a trail. -/
theorem flatten (h : Trail P i k) (hP : ∀ i j, P i j → Trail R i j) : Trail R i k := by
  induction h with
  | refl i => exact .refl i
  | step round _ _ ih => exact (hP _ _ round).trans ih

end Trail

namespace Builder

/-- The contract of a builder that starts at token `i`. -/
def Runs {α : Type} {ts : Tokens} {capped : Bool} (A : Reading ts capped) (E : Nat → Prop)
    (lo : Nat) (x : Builder α) (i : Nat) (Q : α → Nat → Prop) : Prop :=
  (x i).Meets A E lo fun r => Q r.1 r.2

variable {α β : Type} {ts : Tokens} {capped : Bool} {A : Reading ts capped} {E : Nat → Prop}
  {lo i j k : Nat} {x : Builder α} {f : α → Builder β} {Q : β → Nat → Prop}

theorem Runs.mono {Q R : α → Nat → Prop} (h : x.Runs A E lo i Q) (hQ : ∀ a k, Q a k → R a k) :
    x.Runs A E lo i R :=
  Plan.Meets.mono h (fun _ h => h) fun r hr => hQ r.1 r.2 hr

theorem runs_bind : (x >>= f).Runs A E lo i Q ↔
    x.Runs A E lo i fun a j => (f a).Runs A E lo j Q := Plan.meets_bind

/-! ## Single steps -/

theorem runs_cursor {f : Nat → Builder β} :
    (cursor >>= f).Runs A E lo i Q ↔ (f i).Runs A E lo i Q := Iff.rfl

theorem runs_skip {n : Nat} {f : Unit → Builder β} :
    (skip n >>= f).Runs A E lo i Q ↔ (f ()).Runs A E lo (i + n) Q := Iff.rfl

theorem runs_moveTo {f : Unit → Builder β} :
    (moveTo j >>= f).Runs A E lo i Q ↔ (f ()).Runs A E lo j Q := Iff.rfl

theorem runs_check {b : Bool} {f : Unit → Builder β} :
    (check b >>= f).Runs A E lo i Q ↔ b = true ∧ (f ()).Runs A E lo i Q := Iff.rfl

theorem runs_look {q : Nat → Lookahead Nat} {f : Nat → Builder β} :
    (look q >>= f).Runs A E lo i Q ↔
      (∃ F, (q i).Stays ts Scope.top F) ∧ (f (A.value (q i))).Runs A E lo i Q := Iff.rfl

theorem runs_sees {q : Nat → Lookahead Nat} {f : Bool → Builder β} :
    (sees q >>= f).Runs A E lo i Q ↔ (∃ F, (q i).Stays ts Scope.top F) ∧
      (f (decide (0 < A.value (q i)))).Runs A E lo i Q := Iff.rfl

theorem runs_askAhead {r : Rule} {n : Nat} {f : Answer r → Builder β} :
    (askAhead r n >>= f).Runs A E lo i Q ↔ (f (A.tell r (i + n))).Runs A E lo i Q := Iff.rfl

theorem runs_ask {r : Rule} {f : Answer r → Builder β} :
    (ask r >>= f).Runs A E lo i Q ↔ (f (A.tell r i)).Runs A E lo i Q := Iff.rfl

theorem runs_starts {r : Rule} {f : Bool → Builder β} :
    (starts r >>= f).Runs A E lo i Q ↔ (f (decide (0 < A.len r i))).Runs A E lo i Q := Iff.rfl

theorem runs_enter {part : Interior} {f : List Node → Builder β} (hlo : lo < i) (hi : i ≤ ts.size)
    (hr : part.Ready A i)
    (h : ∀ ns k, part.Filled A i (ns, k) → (f ns).Runs A E lo k Q) :
    (enter part >>= f).Runs A E lo i Q :=
  ⟨⟨hlo, hi, hr⟩, fun x hx => h x.1 x.2 hx⟩

/-! ## Productions -/

/-- The builder moves from token `i` to token `j` and gives a node for the tokens between. -/
def Gives (A : Reading ts capped) (x : Builder Node) (i j : Nat) : Prop :=
  ∀ E lo, Site ts E lo i → x.Runs A E lo i fun n k => k = j ∧ Covers ts i j n

/-- The builder moves from token `i` to token `j` and gives nodes for the tokens between. -/
def GivesAll (A : Reading ts capped) (x : Builder (List Node)) (i j : Nat) : Prop :=
  ∀ E lo, Site ts E lo i → x.Runs A E lo i fun ns k => k = j ∧ Tiles ts i j ns

/-- A node that is made at token `j` and stands for the tokens from `i` up to there. -/
theorem runs_make {n : Node} (h : Covers ts i j n) :
    (make n).Runs A E lo j fun m k => k = j ∧ Covers ts i j m := ⟨⟨i, j, h⟩, rfl, h⟩

theorem Gives.then {x : Builder Node} {f : Node → Builder β} (hx : Gives A x i j)
    (hc : Site ts E lo i)
    (hf : ∀ n, Covers ts i j n → Site ts E lo j → (f n).Runs A E lo j Q) :
    (x >>= f).Runs A E lo i Q := by
  refine runs_bind.2 ((hx E lo hc).mono fun n k hn => ?_)
  obtain ⟨rfl, hn⟩ := hn
  exact hf n hn (hc.mono hn.le)

theorem GivesAll.then {x : Builder (List Node)} {f : List Node → Builder β} (hx : GivesAll A x i j)
    (hc : Site ts E lo i)
    (hf : ∀ ns, Tiles ts i j ns → Site ts E lo j → (f ns).Runs A E lo j Q) :
    (x >>= f).Runs A E lo i Q := by
  refine runs_bind.2 ((hx E lo hc).mono fun n k hn => ?_)
  obtain ⟨rfl, hn⟩ := hn
  exact hf n hn (hc.mono hn.le)

/-- Where a builder ends does not always matter, as long as it moves on. -/
theorem GivesAll.moves {x : Builder (List Node)} (hx : GivesAll A x i j) (hij : i < j)
    (hc : Site ts E lo i) : x.Runs A E lo i fun ns k => Tiles ts i k ns ∧ i < k := by
  refine (hx E lo hc).mono fun ns k hk => ?_
  obtain ⟨rfl, htiles⟩ := hk
  exact ⟨htiles, hij⟩

theorem givesAll_nil : GivesAll A (return []) i i := fun _ _ _ => ⟨rfl, .nil⟩

theorem Gives.single {x : Builder Node} (h : Gives A x i j) : GivesAll A (single x) i j :=
  fun _ _ hc => h.then hc fun _ hn _ => ⟨rfl, hn.single⟩

theorem gives_branch {k : Node.Kind} {content : Builder (List Node)} (hij : i < j)
    (h : ∀ E lo, Site ts E lo i → content.Runs A E lo i fun ns l =>
      l = j ∧ ∃ a b, Framed ts k i a b j ∧ Tiles ts a b ns) :
    Gives A (branch ts k content) i j := by
  intro E lo hc
  refine runs_cursor.2 (runs_bind.2 ((h E lo hc).mono fun ns l hns => ?_))
  obtain ⟨rfl, a, b, hframe, htiles⟩ := hns
  exact runs_make (.branch hframe hij htiles)

/-- A branch of a kind that has no marks. -/
theorem GivesAll.branch {k : Node.Kind} {content : Builder (List Node)}
    (h : GivesAll A content i j) (hk : Framed ts k i i j j) (hij : i < j) :
    Gives A (branch ts k content) i j :=
  gives_branch hij fun E lo hc => (h E lo hc).mono fun _ _ hns => ⟨hns.1, i, j, hk, hns.2⟩

theorem gives_leaf {k : Node.Kind} {n : Nat} (hk : Framed ts k i i (i + n) (i + n)) (hn : 0 < n)
    (htext : Textual ts k i (i + n)) : Gives A (leaf ts k n) i (i + n) :=
  fun _ _ _ => runs_make (j := i + n) <|
    .leaf hk (Nat.le_add_right i n) (Or.inl (by omega)) hk.opening_eq htext

theorem gives_leafOf {k : Node.Kind} {q : Nat → Lookahead Nat} {F : Nat → Prop}
    (hk : Framed ts k i i (i + A.value (q i)) (i + A.value (q i))) (hn : 0 < A.value (q i))
    (hq : (q i).Stays ts Scope.top F) (htext : Textual ts k i (i + A.value (q i))) :
    Gives A (leafOf ts k q) i (i + A.value (q i)) :=
  fun E lo hc => ⟨⟨F, hq⟩, gives_leaf hk hn htext E lo hc⟩

/-- A branch that leaves out the mark it starts with. -/
theorem GivesAll.marked {k : Node.Kind} {content : Builder (List Node)}
    (h : GivesAll A content (i + 1) j) (hk : Framed ts k i (i + 1) j j) (hij : i < j) :
    Gives A (Builder.branch ts k (do skip 1; content)) i j :=
  gives_branch hij fun E lo hc => runs_skip.2 <|
    (h E lo (hc.mono (Nat.le_succ i))).mono fun _ _ hns => ⟨hns.1, i + 1, j, hk, hns.2⟩

/-! ## Choice -/

section
variable {x y : Builder Node} {xs ys : Builder (List Node)} {r : Rule}

theorem runs_choose_starts {x y : Builder β} (hx : 0 < A.len r i → x.Runs A E lo i Q)
    (hy : A.len r i = 0 → y.Runs A E lo i Q) : (choose (starts r) x y).Runs A E lo i Q := by
  refine runs_starts.2 ?_
  by_cases h : 0 < A.len r i
  · rw [decide_eq_true h]
    exact hx h
  · rw [decide_eq_false h]
    exact hy (by omega)

theorem runs_choose_sees {x y : Builder β} {q : Nat → Lookahead Nat} {F : Nat → Prop}
    (hq : (q i).Stays ts Scope.top F) (hx : 0 < A.value (q i) → x.Runs A E lo i Q)
    (hy : A.value (q i) = 0 → y.Runs A E lo i Q) : (choose (sees q) x y).Runs A E lo i Q := by
  refine runs_sees.2 ⟨⟨F, hq⟩, ?_⟩
  by_cases h : 0 < A.value (q i)
  · rw [decide_eq_true h]
    exact hx h
  · rw [decide_eq_false h]
    exact hy (by omega)

theorem gives_choose_starts (hx : 0 < A.len r i → Gives A x i j)
    (hy : A.len r i = 0 → Gives A y i j) : Gives A (choose (starts r) x y) i j :=
  fun E lo hc => runs_choose_starts (fun h => hx h E lo hc) fun h => hy h E lo hc

theorem givesAll_choose_starts (hx : 0 < A.len r i → GivesAll A xs i j)
    (hy : A.len r i = 0 → GivesAll A ys i j) : GivesAll A (choose (starts r) xs ys) i j :=
  fun E lo hc => runs_choose_starts (fun h => hx h E lo hc) fun h => hy h E lo hc

theorem gives_choose_sees {q : Nat → Lookahead Nat} {F : Nat → Prop}
    (hq : (q i).Stays ts Scope.top F) (hx : 0 < A.value (q i) → Gives A x i j)
    (hy : A.value (q i) = 0 → Gives A y i j) : Gives A (choose (sees q) x y) i j :=
  fun E lo hc => runs_choose_sees hq (fun h => hx h E lo hc) fun h => hy h E lo hc

theorem givesAll_choose_sees {q : Nat → Lookahead Nat} {F : Nat → Prop}
    (hq : (q i).Stays ts Scope.top F) (hx : 0 < A.value (q i) → GivesAll A xs i j)
    (hy : A.value (q i) = 0 → GivesAll A ys i j) : GivesAll A (choose (sees q) xs ys) i j :=
  fun E lo hc => runs_choose_sees hq (fun h => hx h E lo hc) fun h => hy h E lo hc

/-- Nodes that are there only where the lookahead finds them. -/
theorem givesAll_optionally (hx : 0 < A.len r i → GivesAll A xs i (i + A.len r i)) :
    GivesAll A (optionally (starts r) xs) i (i + A.len r i) := by
  refine givesAll_choose_starts hx fun hz => ?_
  rw [hz]
  exact givesAll_nil

theorem givesAll_given {c : Bool} (hx : c = true → GivesAll A xs i j) (hn : c = false → i = j) :
    GivesAll A (given c xs) i j := by
  cases c with
  | true => exact hx rfl
  | false =>
    rw [← hn rfl]
    exact givesAll_nil

end

/-! ## Repetition -/

theorem collectFrom_meets {stop i₀ : Nat} {round : Builder Chunk} {I R : Nat → Prop}
    {sofar : List Node} (hc : Site ts E lo i₀) (hstop : ∀ j, I j → stop ≤ j → R j)
    (hround : ∀ j, I j → j < stop → Site ts E lo j → round.Runs A E lo j fun c l =>
      Tiles ts j l c.nodes ∧ if c.more = true then j < l ∧ I l else R l)
    (hsofar : Tiles ts i₀ i sofar.reverse) (hI : I i) :
    (collectFrom stop round sofar i).Meets A E lo fun r => Tiles ts i₀ r.2 r.1 ∧ R r.2 := by
  fun_induction collectFrom stop round sofar i with
  | case1 sofar i hlt ih =>
    refine Plan.meets_bind.2 (Plan.Meets.mono (hround i hI hlt (hc.mono hsofar.le))
      (fun _ h => h) fun r hr => ?_)
    obtain ⟨c, l⟩ := r
    obtain ⟨htiles, hnext⟩ := hr
    have hall : Tiles ts i₀ l (c.nodes.reverse ++ sofar).reverse := by
      rw [List.reverse_append, List.reverse_reverse]
      exact hsofar.append htiles
    dsimp only
    by_cases hmore : c.more = true
    · rw [if_pos hmore] at hnext
      rw [dif_pos ⟨hnext.1, hmore⟩]
      exact ih c l ⟨hnext.1, hmore⟩ hall hnext.2
    · rw [if_neg hmore] at hnext
      rw [dif_neg fun h => hmore h.2]
      exact ⟨by simpa using hmore, hall, hnext⟩
  | case2 sofar i hge => exact ⟨hsofar, hstop i hI (by omega)⟩

/-- A repetition keeps the invariant `I` of the cursor and ends with `R`. Rounds that want to go on
move the cursor. -/
theorem runs_collect {stop : Nat} {round : Builder Chunk} {I R : Nat → Prop}
    (hc : Site ts E lo i) (hstop : ∀ j, I j → stop ≤ j → R j)
    (hround : ∀ j, I j → j < stop → Site ts E lo j → round.Runs A E lo j fun c l =>
      Tiles ts j l c.nodes ∧ if c.more = true then j < l ∧ I l else R l) (hI : I i) :
    (collect stop round).Runs A E lo i fun ns k => Tiles ts i k ns ∧ R k :=
  collectFrom_meets hc hstop hround .nil hI

theorem runs_collectTo {stop : Nat} {round : Builder (List Node)} {I R : Nat → Prop}
    (hc : Site ts E lo i) (hstop : ∀ j, I j → stop ≤ j → R j)
    (hround : ∀ j, I j → j < stop → Site ts E lo j → round.Runs A E lo j fun ns l =>
      Tiles ts j l ns ∧ j < l ∧ I l) (hI : I i) :
    (collectTo stop round).Runs A E lo i fun ns k => Tiles ts i k ns ∧ R k := by
  refine runs_collect hc hstop (fun j hj hlt hc' => runs_bind.2 ?_) hI
  exact (hround j hj hlt hc').mono fun ns l h => h

/-- A repetition that goes through the rounds of a walk of the lookahead. -/
theorem givesAll_collect {step : Nat → Lookahead Step} {round : Builder Chunk}
    (h : ∀ j, j < ts.size → ∀ E lo, Site ts E lo j → round.Runs A E lo j fun c l =>
      l = j + (A.value (step j)).length ∧ Tiles ts j l c.nodes ∧
        (c.more = true ↔ j < l ∧ (A.value (step j)).more = true)) :
    GivesAll A (collect ts.size round) i (A.value (walk ts.size step i)) := by
  intro E lo hc
  have hrun : (collect ts.size round).Runs A E lo i fun ns k => Tiles ts i k ns ∧
      k = A.value (walk ts.size step i) := by
    refine runs_collect
      (I := fun j => A.value (walk ts.size step j) = A.value (walk ts.size step i)) hc
      (fun j hj hstop => ?_) (fun j hj hlt hc' => ?_) rfl
    · rw [← hj, A.value_walk, if_neg (by omega)]
    · refine (h j hlt E lo hc').mono fun c l hcl => ?_
      obtain ⟨rfl, htiles, hmore⟩ := hcl
      refine ⟨htiles, ?_⟩
      rw [A.value_walk, if_pos hlt] at hj
      split
      · next hl =>
        obtain ⟨hlt, hstep⟩ := hmore.1 hl
        rw [if_pos ⟨by omega, hstep⟩] at hj
        exact ⟨hlt, hj⟩
      · next hl =>
        rw [if_neg fun hs => hl (hmore.2 ⟨by omega, hs.2⟩)] at hj
        exact hj
  exact hrun.mono fun ns k hk => ⟨hk.2, hk.2 ▸ hk.1⟩

/-- A round of a repetition that moves over `n` tokens, gives nodes for them, and wants to go on if
there are any. -/
def GivesRound (A : Reading ts capped) (round : Builder Chunk) (i n : Nat) : Prop :=
  ∀ E lo, Site ts E lo i → round.Runs A E lo i fun c l =>
    l = i + n ∧ Tiles ts i l c.nodes ∧ (c.more = true ↔ i < l)

theorem givesRound_none : GivesRound A (return ⟨[], false⟩) i 0 :=
  fun _ _ _ => ⟨rfl, .nil, iff_of_false Bool.false_ne_true (Nat.lt_irrefl i)⟩

theorem Gives.round {x : Builder Node} {n : Nat} (h : Gives A x i (i + n)) (hn : 0 < n) :
    GivesRound A (do return ⟨[← x], true⟩) i n :=
  fun _ _ hc => h.then hc fun _ hcovers _ =>
    ⟨rfl, hcovers.single, iff_of_true rfl (Nat.lt_add_of_pos_right hn)⟩

/-- A round that tries a rule first. -/
theorem givesRound_choose {r : Rule} {x y : Builder Chunk} {n : Nat}
    (hx : 0 < A.len r i → GivesRound A x i (A.len r i)) (hy : GivesRound A y i n) :
    GivesRound A (choose (starts r) x y) i (if A.len r i = 0 then n else A.len r i) := by
  intro E lo hc
  refine runs_choose_starts (fun h => ?_) fun h => ?_
  · rw [if_neg (by omega)]
    exact hx h E lo hc
  · rw [if_pos h]
    exact hy E lo hc

/-- A round that is there only where a rule matches. -/
theorem givesRound_starts {r : Rule} {x : Builder Chunk}
    (hx : 0 < A.len r i → GivesRound A x i (A.len r i)) :
    GivesRound A (choose (starts r) x (return ⟨[], false⟩)) i (A.len r i) := by
  intro E lo hc
  refine runs_choose_starts (fun h => hx h E lo hc) fun hz => ?_
  rw [hz]
  exact givesRound_none E lo hc

/-- A round that is there only where the lookahead finds it. -/
theorem givesRound_sees {q : Nat → Lookahead Nat} {F : Nat → Prop} {x : Builder Chunk}
    (hq : (q i).Stays ts Scope.top F)
    (hx : 0 < A.value (q i) → GivesRound A x i (A.value (q i))) :
    GivesRound A (choose (sees q) x (return ⟨[], false⟩)) i (A.value (q i)) := by
  intro E lo hc
  refine runs_choose_sees hq (fun h => hx h E lo hc) fun hz => ?_
  rw [hz]
  exact givesRound_none E lo hc

theorem givesAll_collectWhile {scan : Nat → Lookahead Nat} {round : Builder Chunk}
    (h : ∀ j, GivesRound A round j (A.value (scan j))) :
    GivesAll A (collect ts.size round) i (A.value (walkWhile ts.size scan i)) := by
  refine givesAll_collect fun j _ E lo hc => ?_
  rw [A.value_map]
  exact (h j E lo hc).mono fun c l hl => ⟨hl.1, hl.2.1, hl.2.2.trans (and_iff_left rfl).symm⟩

/-- A repetition that goes through the rounds of a trail. -/
theorem givesAll_collectTo {P : Nat → Nat → Prop} {round : Builder (List Node)} (ht : Trail P i k)
    (h : ∀ j l, P j l → GivesAll A round j l) : GivesAll A (collectTo k round) i k := by
  intro E lo hc
  have hrun : (collectTo k round).Runs A E lo i fun ns l => Tiles ts i l ns ∧ l = k := by
    refine runs_collectTo (I := fun j => Trail P j k) hc (fun j hj hstop => ?_)
      (fun j hj hlt hc' => ?_) ht
    · exact Nat.le_antisymm hj.le hstop
    · cases hj with
      | refl => omega
      | step round lt rest =>
        refine (h _ _ round E lo hc').mono fun ns l hl => ?_
        obtain ⟨rfl, htiles⟩ := hl
        exact ⟨htiles, lt, rest⟩
  exact hrun.mono fun ns l hl => ⟨hl.2, hl.2 ▸ hl.1⟩

/-- A repetition whose rounds were not looked at before: it ends somewhere. -/
theorem runs_collectTo_some {stop : Nat} {round : Builder (List Node)} (hc : Site ts E lo i)
    (h : ∀ j, i ≤ j → Site ts E lo j → round.Runs A E lo j fun ns l => Tiles ts j l ns ∧ j < l) :
    (collectTo stop round).Runs A E lo i fun ns k => Tiles ts i k ns := by
  have hrun : (collectTo stop round).Runs A E lo i fun ns k => Tiles ts i k ns ∧ True :=
    runs_collectTo (I := fun j => i ≤ j) hc (fun _ _ _ => trivial)
      (fun j hj _ hc' => (h j hj hc').mono fun ns l hns =>
        ⟨hns.1, hns.2, Nat.le_of_lt (Nat.lt_of_le_of_lt hj hns.2)⟩) (Nat.le_refl i)
  exact hrun.mono fun ns k hk => hk.1

end Builder

/-- The rounds of a walk of the lookahead are a trail. -/
theorem Reading.trail_walk {ts : Tokens} {capped : Bool} (A : Reading ts capped) (stop : Nat)
    (step : Nat → Lookahead Step) (i : Nat) :
    Trail (fun j l => j < stop ∧ 0 < (A.value (step j)).length ∧
      l = j + (A.value (step j)).length) i (A.value (walk stop step i)) := by
  generalize hn : stop - i = n
  induction n using Nat.strongRecOn generalizing i with
  | ind n ih =>
    rw [A.value_walk]
    split
    · next hlt =>
      rcases Nat.eq_zero_or_pos (A.value (step i)).length with hz | hp
      · rw [hz, if_neg fun h => absurd h.1 (Nat.lt_irrefl 0)]
        exact .refl i
      · have hround : i < i + (A.value (step i)).length := by omega
        split
        · exact .step ⟨hlt, hp, rfl⟩ hround (ih _ (by omega) _ rfl)
        · exact .single ⟨hlt, hp, rfl⟩ hround
    · exact .refl i

theorem Reading.trail_walkWhile {ts : Tokens} {capped : Bool} (A : Reading ts capped) (stop : Nat)
    (scan : Nat → Lookahead Nat) (i : Nat) :
    Trail (fun j l => j < stop ∧ 0 < A.value (scan j) ∧ l = j + A.value (scan j)) i
      (A.value (walkWhile stop scan i)) := by
  have h := A.trail_walk stop (fun j => Step.go <$> scan j) i
  simp only [A.value_map] at h
  exact h

/-- A walk goes on until it reaches its bound or a round covers nothing. -/
theorem Reading.walkWhile_end {ts : Tokens} {capped : Bool} (A : Reading ts capped) {stop : Nat}
    {scan : Nat → Lookahead Nat} {i k : Nat} (h : A.value (walkWhile stop scan i) = k) :
    stop ≤ k ∨ A.value (scan k) = 0 := by
  generalize hn : stop - i = n
  induction n using Nat.strongRecOn generalizing i with
  | ind n ih =>
    rw [walkWhile, A.value_walk, A.value_map] at h
    change (if i < stop then
      if 0 < A.value (scan i) ∧ true = true then
        A.value (walkWhile stop scan (i + A.value (scan i)))
      else i + A.value (scan i) else i) = k at h
    split at h
    · split at h
      · exact ih _ (by omega) h rfl
      · next hs =>
        have hz : A.value (scan i) = 0 := by simpa using hs
        rw [hz] at h
        subst h
        exact Or.inr hz
    · omega

end LessCss
