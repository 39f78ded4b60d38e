import LessCss.Lookahead
import LessCss.Proofs.Stream

/-! The order of questions. A program that looks ahead for a rule at a token may ask only about
later tokens, and at its own token only about rules of lower rank; the lengths it takes never run
backwards; and what it measures stays inside the stream, provided that the answers it gets do.

`Stays` says all of this along every path of a program at once: the answers are arbitrary, apart
from staying inside the stream. So a statement about a production needs no knowledge of the rules
it asks, and the productions can be gone through one at a time. -/

namespace LessCss.Lookahead

/-- Which questions a program may ask: at token `origin` about rules of a rank below `rank`, at
later tokens about all rules, and questions further inside only if `deep` says so. -/
structure Scope where
  origin : Nat
  rank : Nat
  deep : Bool

/-- Rules up to rank `ρ` may be asked about token `j`. -/
abbrev Scope.Open (s : Scope) (j ρ : Nat) : Prop := s.origin < j ∨ s.origin = j ∧ ρ < s.rank

/-- The scope in which every question is allowed that is not further inside. -/
def Scope.top : Scope := ⟨0, Rule.ranks, false⟩

theorem Scope.top_open {ρ : Nat} (h : ρ < Rule.ranks) (j : Nat) : Scope.top.Open j ρ := by
  simp only [Scope.Open, Scope.top]
  omega

/-- What may be asked at a token may be asked at the ones behind it. -/
theorem Scope.Open.at {s : Scope} {i j ρ σ : Nat} (h : s.Open i ρ) (hij : i ≤ j) (hσ : σ ≤ ρ) :
    s.Open j σ := by
  omega

/-- The program asks only what the scope allows, takes lengths forward only, and ends with a result
that satisfies `F`, whatever answers it gets that stay inside the stream. -/
def Stays {α : Type} (ts : Tokens) (s : Scope) : Lookahead α → (α → Prop) → Prop
  | done a, F => F a
  | query r j next, F =>
    s.Open j r.rank ∧ ∀ a : Answer r, ts.Fits j a.length → (next a).Stays ts s F
  | inside r j next, F =>
    s.deep = true ∧ s.Open j r.rank ∧ ∀ a : Answer r, ts.Fits j a.length → (next a).Stays ts s F
  | distance lo hi next, F => lo ≤ hi ∧ (next (hi - lo)).Stays ts s F

/-- The program measures something at token `i`. -/
abbrev Measures (ts : Tokens) (s : Scope) (i : Nat) (q : Lookahead Nat) : Prop :=
  q.Stays ts s (ts.Fits i)

/-- The program answers a question about token `i`. -/
abbrev Matches {σ : Type} (ts : Tokens) (s : Scope) (i : Nat) (q : Lookahead (Option (Match σ))) :
    Prop :=
  q.Stays ts s fun m => ∀ x, m = some x → ts.Fits i x.length

variable {α β σ : Type} {ts : Tokens} {s : Scope} {i j : Nat}

/-! ## Sequence -/

theorem Stays.mono {q : Lookahead α} {F G : α → Prop} (h : q.Stays ts s F) (hFG : ∀ a, F a → G a) :
    q.Stays ts s G := by
  induction q with
  | done a => exact hFG a h
  | query r j next ih => exact ⟨h.1, fun a ha => ih a (h.2 a ha)⟩
  | inside r j next ih => exact ⟨h.1, h.2.1, fun a ha => ih a (h.2.2 a ha)⟩
  | distance lo hi next ih => exact ⟨h.1, ih _ h.2⟩

theorem stays_pure {a : α} {F : α → Prop} (h : F a) : (pure a : Lookahead α).Stays ts s F := h

theorem Stays.bind {x : Lookahead α} {f : α → Lookahead β} {R : α → Prop} {F : β → Prop}
    (h : x.Stays ts s R) (hf : ∀ a, R a → (f a).Stays ts s F) : (x >>= f).Stays ts s F := by
  change (x.bind f).Stays ts s F
  induction x with
  | done a => exact hf a h
  | query r j next ih => exact ⟨h.1, fun a ha => ih a (h.2 a ha)⟩
  | inside r j next ih => exact ⟨h.1, h.2.1, fun a ha => ih a (h.2.2 a ha)⟩
  | distance lo hi next ih => exact ⟨h.1, ih _ h.2⟩

theorem Stays.map {x : Lookahead α} {f : α → β} {F : β → Prop}
    (h : x.Stays ts s fun a => F (f a)) : (f <$> x).Stays ts s F := by
  rw [map_eq_pure_bind]
  exact h.bind fun a ha => ha

/-! ## Questions -/

theorem find_stays {r : Rule} (h : s.Open i r.rank) :
    (find r i).Stays ts s fun a => ts.Fits i a.length := ⟨h, fun _ ha => ha⟩

theorem lengthOf_measures {r : Rule} (h : s.Open i r.rank) : (lengthOf r i).Measures ts s i :=
  ⟨h, fun _ ha => ha⟩

theorem lengthOf_top (r : Rule) (i : Nat) : (lengthOf r i).Measures ts .top i :=
  lengthOf_measures (Scope.top_open r.rank_lt i)

theorem lengthInside_measures {r : Rule} (hd : s.deep = true) (h : s.Open i r.rank) :
    (lengthInside r i).Measures ts s i := ⟨hd, h, fun _ ha => ha⟩

theorem tokensBetween_measures (hij : i ≤ j) (hj : j = i ∨ j ≤ ts.size) :
    (tokensBetween i j).Measures ts s i := ⟨hij, by change ts.Fits i (j - i); omega⟩

theorem through_measures {n : Nat} (hij : i ≤ j) (hn : ts.Fits j n) :
    (through i j n).Measures ts s i := by
  unfold through
  split
  · exact stays_pure (Tokens.fits_zero ts i)
  · exact tokensBetween_measures (by omega) (by omega)

/-! ## Choice -/

theorem of?_fits {n : Nat} {shape : σ} {m : Match σ} (hn : ts.Fits i n)
    (hm : Match.of? n shape = some m) : ts.Fits i m.length := by
  unfold Match.of? at hm
  split at hm
  · cases hm
    exact hn
  · cases hm

theorem Stays.sole {q : Lookahead Nat} (h : q.Measures ts s i) :
    (Lookahead.sole q).Matches ts s i :=
  Stays.bind h fun _ hn => stays_pure fun _ hm => of?_fits hn hm

theorem firstOf_matches {alts : List (σ × (Nat → Lookahead Nat))}
    (h : ∀ a ∈ alts, (a.2 i).Measures ts s i) : (firstOf i alts).Matches ts s i := by
  induction alts with
  | nil => exact fun _ hx => nomatch hx
  | cons a rest ih =>
    obtain ⟨shape, scan⟩ := a
    refine Stays.bind (h (shape, scan) (List.mem_cons_self ..)) fun n hn => ?_
    cases hm : Match.of? n shape with
    | none => exact ih fun a ha => h a (List.mem_cons_of_mem _ ha)
    | some m =>
      refine stays_pure fun x hx => ?_
      cases hx
      exact of?_fits hn hm

theorem orElse_measures {x y : Lookahead Nat} (hx : x.Measures ts s i) (hy : y.Measures ts s i) :
    (x <|> y).Measures ts s i := by
  refine Stays.bind hx fun n hn => ?_
  cases n with
  | zero => exact hy
  | succ n => exact hn

/-! ## Repetition -/

theorem walk_stays {stop : Nat} {step : Nat → Lookahead Step}
    (h : ∀ j, i ≤ j → j < stop → (step j).Stays ts s fun x => ts.Fits j x.length)
    (hij : i ≤ j) (hj : j = i ∨ j ≤ ts.size) :
    (walk stop step j).Stays ts s fun k => i ≤ k ∧ (k = i ∨ k ≤ ts.size) := by
  fun_induction walk stop step j with
  | case1 j hlt ih =>
    refine Stays.bind (h j hij hlt) fun x hx => ?_
    split
    · next hs => exact ih x hs (by omega) (by omega)
    · change i ≤ j + x.length ∧ (j + x.length = i ∨ j + x.length ≤ ts.size)
      omega
  | case2 j hge => exact ⟨hij, hj⟩

theorem walkWhile_stays {stop : Nat} {scan : Nat → Lookahead Nat}
    (h : ∀ j, i ≤ j → j < stop → (scan j).Measures ts s j) :
    (walkWhile stop scan i).Stays ts s fun k => i ≤ k ∧ (k = i ∨ k ≤ ts.size) :=
  walk_stays (fun j hij hj => Stays.map ((h j hij hj).mono fun _ hn => hn)) (Nat.le_refl i)
    (Or.inl rfl)

end LessCss.Lookahead
