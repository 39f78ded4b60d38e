import LessCss.Proofs.Stream

/-! Linking tokens. The links change nothing else about the tokens. Each closer that is linked to
stands behind its opener and closes the same type of bracket, and each white space token is linked
to the last token of its run; so the links of a stream can be followed. -/

namespace LessCss.Token

/-! ## Lists of tokens that differ in their links only -/

theorem kind_of_unlinked {xs ys : List Token} (h : xs.map unlinked = ys.map unlinked) (m : Nat) :
    xs[m]?.map Token.kind = ys[m]?.map Token.kind := by
  have hm : (xs.map unlinked)[m]? = (ys.map unlinked)[m]? := by rw [h]
  rw [List.getElem?_map, List.getElem?_map] at hm
  have hk := congrArg (Option.map Token.kind) hm
  rw [Option.map_map, Option.map_map] at hk
  exact hk

/-! ## Brackets -/

/-- Token `j` of tokens counted from `n` closes a bracket of type `b`. -/
def ClosesAt (ts : List Token) (n : Nat) (b : Bracket) (j : Nat) : Prop :=
  n ≤ j ∧ ∃ t, ts[j - n]? = some t ∧ t.kind.closes? = some b

theorem ClosesAt.cons {ts : List Token} {n : Nat} {b : Bracket} {j : Nat} (t : Token)
    (h : ClosesAt ts (n + 1) b j) : ClosesAt (t :: ts) n b j := by
  obtain ⟨hj, u, hu, hb⟩ := h
  refine ⟨by omega, u, ?_, hb⟩
  rw [show j - n = (j - (n + 1)) + 1 by omega, List.getElem?_cons_succ]
  exact hu

theorem takeCloser_found {b : Bracket} {free : List (Bracket × Nat)} {j : Nat}
    (h : (takeCloser b free).1 = some j) : (b, j) ∈ free := by
  induction free with
  | nil => cases h
  | cons x free ih =>
    obtain ⟨b', j'⟩ := x
    rw [takeCloser] at h
    split at h
    · next hb =>
      cases h
      subst hb
      exact List.mem_cons_self ..
    · exact List.mem_cons_of_mem _ (ih h)

theorem takeCloser_rest {b : Bracket} {free : List (Bracket × Nat)} {x : Bracket × Nat}
    (h : x ∈ (takeCloser b free).2) : x ∈ free := by
  induction free with
  | nil => cases h
  | cons y free ih =>
    obtain ⟨b', j'⟩ := y
    rw [takeCloser] at h
    split at h
    · exact List.mem_cons_of_mem _ h
    · rcases List.mem_cons.1 h with rfl | h
      · exact List.mem_cons_self ..
      · exact List.mem_cons_of_mem _ (ih h)

/-- What linking brackets has done, from token `n` on: only closers have changed, the closers that
are free are closers, and so are those that are taken, each behind its opener. -/
structure Bracketed (ts : List Token) (n : Nat) (free : List (Bracket × Nat)) (done : List Token) :
    Prop where
  unlinked : done.map unlinked = ts.map unlinked
  free : ∀ x ∈ free, ClosesAt ts n x.1 x.2
  closer : ∀ k t c, done[k]? = some t → t.closer = some c →
    n + k < c ∧ ∃ b, t.kind.opens? = some b ∧ ClosesAt ts n b c

theorem linkBracket_bracketed {t : Token} {ts done : List Token} {n : Nat}
    {free : List (Bracket × Nat)} (ht : t.closer = none) (h : Bracketed ts (n + 1) free done) :
    Bracketed (t :: ts) n (linkBracket (t, n) (free, done)).1
      (linkBracket (t, n) (free, done)).2 := by
  have hfree : ∀ x ∈ free, ClosesAt (t :: ts) n x.1 x.2 := fun x hx => (h.free x hx).cons t
  have hbehind : ∀ k u c, done[k]? = some u → u.closer = some c →
      n + (k + 1) < c ∧ ∃ b, u.kind.opens? = some b ∧ ClosesAt (t :: ts) n b c := by
    intro k u c hu hc
    obtain ⟨hk, b, ho, hcl⟩ := h.closer k u c hu hc
    exact ⟨by omega, b, ho, hcl.cons t⟩
  unfold linkBracket
  dsimp only
  split
  · next b ho =>
    refine ⟨?_, fun x hx => hfree x (takeCloser_rest hx), ?_⟩
    · rw [List.map_cons, List.map_cons, h.unlinked]
      rfl
    · rintro (_ | k) u c hu hc
      · cases hu
        have hmem := takeCloser_found hc
        have hpos := (h.free _ hmem).1
        exact ⟨by omega, b, ho, hfree _ hmem⟩
      · exact hbehind k u c hu hc
  · next b ho hcl =>
    refine ⟨?_, ?_, ?_⟩
    · rw [List.map_cons, List.map_cons, h.unlinked]
    · rintro x hx
      rcases List.mem_cons.1 hx with rfl | hx
      · exact ⟨Nat.le_refl n, t, by rw [Nat.sub_self]; rfl, hcl⟩
      · exact hfree x hx
    · rintro (_ | k) u c hu hc
      · cases hu
        rw [ht] at hc
        cases hc
      · exact hbehind k u c hu hc
  · refine ⟨?_, hfree, ?_⟩
    · rw [List.map_cons, List.map_cons, h.unlinked]
    · rintro (_ | k) u c hu hc
      · cases hu
        rw [ht] at hc
        cases hc
      · exact hbehind k u c hu hc

theorem foldr_bracketed (ts : List Token) (n : Nat) (h : ∀ t ∈ ts, t.closer = none) :
    Bracketed ts n ((ts.zipIdx n).foldr linkBracket ([], [])).1
      ((ts.zipIdx n).foldr linkBracket ([], [])).2 := by
  induction ts generalizing n with
  | nil => exact ⟨rfl, by simp, by simp⟩
  | cons t ts ih =>
    rw [List.zipIdx_cons, List.foldr_cons]
    exact linkBracket_bracketed (h t (List.mem_cons_self ..))
      (ih (n + 1) fun u hu => h u (List.mem_cons_of_mem _ hu))

/-! ## Runs of white space -/

/-- Token `m` of some tokens is white space. -/
def White (ts : List Token) (m : Nat) : Prop :=
  ∃ t, ts[m]? = some t ∧ t.kind.isWhitespace = true

/-- Of tokens counted from `n`, the white space from token `i` on ends with token `e`. -/
structure RunTo (ts : List Token) (n i e : Nat) : Prop where
  le : i ≤ e
  white : ∀ j, i ≤ j → j ≤ e → White ts (j - n)
  stop : ¬ White ts (e + 1 - n)

theorem white_cons {t : Token} {ts : List Token} {n j : Nat} (hj : n < j) :
    White (t :: ts) (j - n) ↔ White ts (j - (n + 1)) := by
  unfold White
  rw [show j - n = (j - (n + 1)) + 1 by omega, List.getElem?_cons_succ]

theorem RunTo.cons {t : Token} {ts : List Token} {n i e : Nat} (hi : n < i)
    (h : RunTo ts (n + 1) i e) : RunTo (t :: ts) n i e := by
  have hle := h.le
  refine ⟨hle, fun j hij hj => (white_cons (by omega)).2 (h.white j hij hj), ?_⟩
  rw [white_cons (by omega)]
  exact h.stop

/-- What linking white space has done, from token `n` on. -/
structure Runs (ts : List Token) (n : Nat) (run : Option Nat) (done : List Token) : Prop where
  unlinked : done.map unlinked = ts.map unlinked
  closer : done.map Token.closer = ts.map Token.closer
  first : match run with
    | some e => RunTo ts n n e
    | none => ¬ White ts 0
  runEnd : ∀ k t, done[k]? = some t → t.kind.isWhitespace = true →
    ∃ e, t.runEnd = some e ∧ RunTo ts n (n + k) e

theorem linkRun_runs {t : Token} {ts done : List Token} {n : Nat} {run : Option Nat}
    (h : Runs ts (n + 1) run done) :
    Runs (t :: ts) n (linkRun (t, n) (run, done)).1 (linkRun (t, n) (run, done)).2 := by
  have hbehind : ∀ k u, done[k]? = some u → u.kind.isWhitespace = true →
      ∃ e, u.runEnd = some e ∧ RunTo (t :: ts) n (n + (k + 1)) e := by
    intro k u hu hw
    obtain ⟨e, he, hrun⟩ := h.runEnd k u hu hw
    refine ⟨e, he, ?_⟩
    rw [show n + 1 + k = n + (k + 1) by omega] at hrun
    exact hrun.cons (by omega)
  unfold linkRun
  dsimp only
  split
  · next hw =>
    have hfirst : RunTo (t :: ts) n n (run.getD n) := by
      have hzero : White (t :: ts) 0 := ⟨t, rfl, hw⟩
      have hrun := h.first
      cases run with
      | none =>
        refine ⟨Nat.le_refl n, fun j hj hj' => ?_, ?_⟩
        · rw [show j - n = 0 by simp at hj'; omega]
          exact hzero
        · change ¬ White (t :: ts) (n + 1 - n)
          rw [white_cons (by omega), Nat.sub_self]
          exact hrun
      | some e =>
        have hle := hrun.le
        have hrun' := hrun.cons (t := t) (by omega)
        refine ⟨by simp; omega, fun j hj hj' => ?_, hrun'.stop⟩
        rcases Nat.eq_or_lt_of_le hj with rfl | hj
        · rw [Nat.sub_self]
          exact hzero
        · exact hrun'.white j hj hj'
    refine ⟨?_, ?_, hfirst, ?_⟩
    · rw [List.map_cons, List.map_cons, h.unlinked]
      rfl
    · rw [List.map_cons, List.map_cons, h.closer]
    · rintro (_ | k) u hu hu'
      · cases hu
        exact ⟨_, rfl, hfirst⟩
      · exact hbehind k u hu hu'
  · next hw =>
    refine ⟨?_, ?_, ?_, ?_⟩
    · rw [List.map_cons, List.map_cons, h.unlinked]
    · rw [List.map_cons, List.map_cons, h.closer]
    · rintro ⟨u, hu, hu'⟩
      cases hu
      exact hw hu'
    · rintro (_ | k) u hu hu'
      · cases hu
        exact absurd hu' hw
      · exact hbehind k u hu hu'

theorem foldr_runs (ts : List Token) (n : Nat) :
    Runs ts n ((ts.zipIdx n).foldr linkRun (none, [])).1
      ((ts.zipIdx n).foldr linkRun (none, [])).2 := by
  induction ts generalizing n with
  | nil => exact ⟨rfl, rfl, by simp [White], by simp⟩
  | cons t ts ih =>
    rw [List.zipIdx_cons, List.foldr_cons]
    exact linkRun_runs (ih (n + 1))

/-! ## The stream -/

section
variable (ts : List Token)

/-- The tokens with their brackets linked. -/
abbrev bracketed : List Token := markBrackets (ts.map unlinked)

theorem bracketed_spec : ∃ free, Bracketed (ts.map unlinked) 0 free (bracketed ts) := by
  refine ⟨_, foldr_bracketed (ts.map unlinked) 0 fun t ht => ?_⟩
  obtain ⟨u, _, rfl⟩ := List.mem_map.1 ht
  rfl

theorem linked_spec : ∃ run, Runs (bracketed ts) 0 run (link ts).toList :=
  ⟨_, foldr_runs (bracketed ts) 0⟩

/-- The tokens of a stream are those that were linked, but for their links. -/
theorem link_unlinked : (link ts).toList.map unlinked = ts.map unlinked := by
  obtain ⟨run, hr⟩ := linked_spec ts
  obtain ⟨free, hb⟩ := bracketed_spec ts
  rw [hr.unlinked, hb.unlinked, List.map_map]
  rfl

theorem link_kind (m : Nat) : (link ts)[m]?.map Token.kind = (bracketed ts)[m]?.map Token.kind := by
  obtain ⟨run, hr⟩ := linked_spec ts
  rw [← Array.getElem?_toList]
  exact kind_of_unlinked hr.unlinked m

/-- A closer stands behind its opener, and closes a bracket of the same type. -/
theorem link_closer {i c : Nat} {t : Token} (ht : (link ts)[i]? = some t) (hc : t.closer = some c) :
    i < c ∧ ∃ b k, t.kind.opens? = some b ∧ Tokens.kind? (link ts) c = some k ∧
      k.closes? = some b := by
  obtain ⟨run, hr⟩ := linked_spec ts
  obtain ⟨free, hb⟩ := bracketed_spec ts
  have hcl : ((bracketed ts)[i]?).map Token.closer = some (some c) := by
    have hm : ((link ts).toList.map Token.closer)[i]? = some (some c) := by
      rw [List.getElem?_map, Array.getElem?_toList, ht, Option.map_some, hc]
    rwa [hr.closer, List.getElem?_map] at hm
  obtain ⟨u, hu, huc⟩ := Option.map_eq_some_iff.1 hcl
  obtain ⟨hlt, b, ho, hle, v, hv, hvb⟩ := hb.closer i u c hu huc
  have hkind : t.kind = u.kind := by
    have hk := link_kind ts i
    rw [ht, hu] at hk
    exact Option.some.inj hk
  have hkc : Tokens.kind? (link ts) c = some v.kind := by
    rw [Tokens.kind?, link_kind ts c, kind_of_unlinked hb.unlinked c]
    rw [Nat.sub_zero] at hv
    rw [hv]
    rfl
  exact ⟨by omega, b, v.kind, hkind ▸ ho, hkc, hvb⟩

theorem white_iff_blank (m : Nat) : White (bracketed ts) m ↔ Tokens.Blank (link ts) m := by
  have hk := link_kind ts m
  constructor
  · rintro ⟨t, ht, hw⟩
    rw [ht] at hk
    obtain ⟨u, hu, huk⟩ := Option.map_eq_some_iff.1 hk
    exact ⟨u, hu, by rw [huk]; exact hw⟩
  · rintro ⟨t, ht, hw⟩
    rw [ht] at hk
    obtain ⟨u, hu, huk⟩ := Option.map_eq_some_iff.1 hk.symm
    exact ⟨u, hu, by rw [huk]; exact hw⟩

/-- The links of a linked stream can be followed. -/
theorem link_wellMarked : Tokens.WellMarked (link ts) where
  closer_mem i t c ht hc := by
    obtain ⟨hlt, b, k, _, hk, _⟩ := link_closer ts ht hc
    exact ⟨hlt, Tokens.lt_of_kind? hk⟩
  runEnd_eq i t ht hw := by
    obtain ⟨run, hr⟩ := linked_spec ts
    obtain ⟨e, he, hrun⟩ := hr.runEnd i t (by rw [Array.getElem?_toList]; exact ht) hw
    rw [Nat.zero_add] at hrun
    have hblank : ∀ j, i ≤ j → j ≤ e → Tokens.Blank (link ts) j :=
      fun j hij hj => (white_iff_blank ts j).1 (hrun.white j hij hj)
    obtain ⟨u, hu, _⟩ := hblank e hrun.le (Nat.le_refl e)
    exact ⟨e, he, hrun.le, Tokens.lt_of_getElem? hu, hblank,
      fun h => hrun.stop ((white_iff_blank ts (e + 1)).2 h)⟩

end

/-- The tokens of a source are well marked. -/
theorem lex_wellMarked (source : String) : Tokens.WellMarked (lex source) := link_wellMarked _

end LessCss.Token
