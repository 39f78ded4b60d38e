import LessCss.Grammar.Selector
import LessCss.Proofs.Order.Terms

/-! The order of questions in selectors. The selectors in the parentheses of a pseudo-class are the
one place here that asks further inside. -/

namespace LessCss.Grammar

open Lookahead Tokens

variable {ts : Tokens} {s : Scope} {i j : Nat}

/-! ## Type selectors and the parent selector -/

theorem namespaceMatch_matches (h : s.Open i 0) : (namespaceMatch ts i).Matches ts s i := by
  unfold namespaceMatch
  refine Stays.bind (orElse_measures (lengthOf_measures h) (tokenLength_measures _)) fun n hn => ?_
  dsimp only
  split
  · next hb =>
    have hlt := lt_of_is (Bool.and_eq_true_iff.1 hb).2
    exact Stays.bind (tokensBetween_measures (by omega) (by omega)) fun m hm =>
      stays_pure fun x hx => of?_fits hm hx
  · split
    · next hb => exact stays_pure fun x hx => of?_fits (fits_of_le (lt_of_is hb)) hx
    · exact stays_pure fun _ hx => nomatch hx

theorem typeSelectorLength_measures (h : s.Open i 1) :
    (typeSelectorLength ts i).Measures ts s i := by
  unfold typeSelectorLength
  refine Stays.bind (lengthOf_measures h) fun n hn => ?_
  split
  · next ha =>
    have hlt := lt_of_is ha
    exact stays_pure (fits_of_le (by omega))
  · exact Stays.bind (lengthOf_measures (h.at (by omega) (by decide))) fun m hm =>
      stays_pure (lengthen_fits hm)

theorem parentSuffixLength_measures (h : s.Open i 0) :
    (parentSuffixLength ts i).Measures ts s i := by
  unfold parentSuffixLength
  refine Stays.bind (walkWhile_stays fun j hij _ => ?_) fun k hk => tokensBetween_measures hk.1 hk.2
  exact orElse_measures (lengthOf_measures (h.at hij (by decide)))
    (lengthOf_measures (h.at hij (by decide)))

theorem parentLength_measures (hs : s.origin ≤ i) : (parentLength ts i).Measures ts s i := by
  unfold parentLength
  split
  · next ha =>
    have hlt := lt_of_is ha
    exact Stays.bind (parentSuffixLength_measures (by omega)) fun n hn =>
      stays_pure (fits_of_le (by omega))
  · exact stays_pure (fits_zero ts i)

/-! ## Attribute selectors -/

theorem attributeNameLength_measures (h : s.Open i 1) :
    (attributeNameLength i).Measures ts s i := by
  have h0 : s.Open i 0 := by omega
  unfold attributeNameLength
  refine Stays.bind (lengthOf_measures h) fun n hn => ?_
  split
  · exact lengthOf_measures h0
  · refine Stays.bind (lengthOf_measures (h0.at (by omega) (by decide))) fun m hm => ?_
    split
    · exact lengthOf_measures h0
    · exact stays_pure (by omega)

theorem comparatorLength_fits : ts.Fits i (comparatorLength ts i) := by
  unfold comparatorLength
  split
  · next h => exact fits_of_le (lt_of_is (Bool.and_eq_true_iff.1 h).2)
  · exact fits_toNat lt_of_is

theorem attributeValueLength_measures (h : s.Open i 0) :
    (attributeValueLength ts i).Measures ts s i :=
  orElse_measures (tokenLength_measures _) (lengthOf_measures h)

theorem flagSpacing_stays {n : Nat} (h : s.Open i 0) :
    (flagSpacing i n).Stays ts s fun m => ts.Fits (i + n) m := by
  unfold flagSpacing
  split
  · exact stays_pure (fits_zero ts _)
  · exact lengthOf_measures (h.at (by omega) (by decide))

theorem attributeSelectorMatch_matches (hs : s.origin ≤ i) :
    (attributeSelectorMatch ts i).Matches ts s i := by
  unfold attributeSelectorMatch
  split
  · exact stays_pure fun _ hx => nomatch hx
  refine Stays.bind (lengthOf_measures (by omega)) fun n1 _ => ?_
  refine Stays.bind (attributeNameLength_measures (by omega)) fun n2 _ => ?_
  dsimp only
  split
  · exact stays_pure fun _ hx => nomatch hx
  refine Stays.bind (lengthOf_measures (by omega)) fun n3 _ => ?_
  split
  · next hr =>
    have hlt := lt_of_is hr
    exact Stays.bind (tokensBetween_measures (by omega) (by omega)) fun m hm =>
      stays_pure fun x hx => of?_fits hm hx
  split
  · exact stays_pure fun _ hx => nomatch hx
  refine Stays.bind (lengthOf_measures (by omega)) fun n4 _ => ?_
  refine Stays.bind (attributeValueLength_measures (by omega)) fun n5 _ => ?_
  split
  · exact stays_pure fun _ hx => nomatch hx
  refine Stays.bind (lengthOf_measures (by omega)) fun n6 _ => ?_
  refine Stays.bind (lengthOf_measures (by omega)) fun n7 _ => ?_
  refine Stays.bind (flagSpacing_stays (by omega)) fun n8 _ => ?_
  split
  · next hr =>
    have hlt := lt_of_is hr
    exact Stays.bind (tokensBetween_measures (by omega) (by omega)) fun m hm =>
      stays_pure fun x hx => of?_fits hm hx
  · exact stays_pure fun _ hx => nomatch hx

/-! ## Pseudo-elements and pseudo-classes -/

theorem pseudoElementLength_measures (hs : s.origin ≤ i) :
    (pseudoElementLength ts i).Measures ts s i := by
  unfold pseudoElementLength
  split
  · refine Stays.bind (nameMatch_matches (by omega)) fun m hm => stays_pure ?_
    split
    · next x =>
      have hx := hm x rfl
      have hpos := x.length_pos
      exact fits_of_le (by omega)
    · exact fits_zero ts i
  · exact stays_pure (fits_zero ts i)

theorem closedAt_measures (wm : ts.WellMarked) : (closedAt ts i j).Measures ts s i := by
  unfold closedAt
  split
  · next c hc =>
    have hc := wm.closer_lt hc
    split
    · exact tokensBetween_measures (by omega) (by omega)
    · exact stays_pure (fits_zero ts i)
  · exact stays_pure (fits_zero ts i)

theorem nthMultiplier_stays (h : s.Open i 0) :
    (nthMultiplier ts i).Stays ts s fun x => ∀ k, x = some k → i < k := by
  unfold nthMultiplier
  refine Stays.bind (lengthOf_measures h) fun n hn => stays_pure fun k hk => ?_
  split at hk
  · cases hk
    omega
  · cases hk

theorem nthFormulaLength_measures (wm : ts.WellMarked) (hs : s.origin ≤ i) :
    (nthFormulaLength ts i).Measures ts s i := by
  unfold nthFormulaLength
  refine Stays.bind (nthMultiplier_stays (by omega)) fun x hx => ?_
  split
  · exact stays_pure (fits_zero ts i)
  · next k =>
    have hk := hx k rfl
    refine Stays.bind (lengthOf_measures (by omega)) fun n1 _ => ?_
    dsimp only
    split
    · exact stays_pure (fits_zero ts i)
    refine Stays.bind (lengthOf_measures (by omega)) fun n2 _ => ?_
    split
    · exact stays_pure (fits_zero ts i)
    exact Stays.bind (lengthOf_measures (by omega)) fun n3 _ => closedAt_measures wm

theorem nthMultipleLength_measures (wm : ts.WellMarked) (hs : s.origin ≤ i) :
    (nthMultipleLength ts i).Measures ts s i := by
  unfold nthMultipleLength
  refine Stays.bind (nthMultiplier_stays (by omega)) fun x hx => ?_
  split
  · exact stays_pure (fits_zero ts i)
  · next k =>
    have hk := hx k rfl
    exact Stays.bind (lengthOf_measures (by omega)) fun n1 _ => closedAt_measures wm

theorem nthOffsetLength_measures (wm : ts.WellMarked) (hs : s.origin ≤ i) :
    (nthOffsetLength ts i).Measures ts s i := by
  unfold nthOffsetLength
  refine Stays.bind (lengthOf_measures (by omega)) fun n1 _ => ?_
  dsimp only
  split
  · exact Stays.bind (lengthOf_measures (by omega)) fun n2 _ => closedAt_measures wm
  · exact stays_pure (fits_zero ts i)

theorem pseudoSelectorsLength_measures (wm : ts.WellMarked) (hd : s.deep = true)
    (hs : s.origin ≤ i) : (pseudoSelectorsLength ts i).Measures ts s i := by
  unfold pseudoSelectorsLength
  refine Stays.bind (lengthInside_measures hd (by omega)) fun n _ => ?_
  split
  · exact stays_pure (fits_zero ts i)
  · exact closedAt_measures wm

theorem pseudoIdentLength_measures (wm : ts.WellMarked) (hs : s.origin ≤ i) :
    (pseudoIdentLength ts i).Measures ts s i := by
  unfold pseudoIdentLength
  refine Stays.bind (lengthOf_measures (by omega)) fun n1 _ => ?_
  refine Stays.bind (lengthOf_measures (by omega)) fun n2 _ => ?_
  split
  · exact stays_pure (fits_zero ts i)
  · exact Stays.bind (lengthOf_measures (by omega)) fun n3 _ => closedAt_measures wm

theorem pseudoForm_stays {c : Nat} (hc : i ≤ c)
    {forms : List (PseudoShape × (Nat → Lookahead Nat))}
    (h : ∀ f ∈ forms, (f.2 i).Measures ts s i) :
    (pseudoForm i c forms).Stays ts s fun _ => True := by
  induction forms with
  | nil => exact stays_pure trivial
  | cons f rest ih =>
    obtain ⟨shape, scan⟩ := f
    refine Stays.bind (h (shape, scan) (List.mem_cons_self ..)) fun n hn => ?_
    refine Stays.bind (R := fun _ => True) ⟨by omega, trivial⟩ fun m _ => ?_
    split
    · exact stays_pure trivial
    · exact ih fun f hf => h f (List.mem_cons_of_mem _ hf)

theorem pseudoBareMatch_matches (hs : s.origin ≤ i) : (pseudoBareMatch i).Matches ts s i := by
  unfold pseudoBareMatch
  refine Stays.bind (nameMatch_matches (by omega)) fun m hm => stays_pure fun x hx => ?_
  obtain ⟨y, hy, hx⟩ := Option.bind_eq_some_iff.1 hx
  have hf := hm y hy
  have hpos := y.length_pos
  exact of?_fits (by omega) hx

theorem pseudoClassMatch_matches (wm : ts.WellMarked) (hd : s.deep = true) (hs : s.origin ≤ i) :
    (pseudoClassMatch ts i).Matches ts s i := by
  unfold pseudoClassMatch
  split
  · exact stays_pure fun _ hx => nomatch hx
  refine Stays.bind (lengthOf_measures (by omega)) fun n hn => ?_
  dsimp only
  split
  · exact pseudoBareMatch_matches hs
  · next c hc =>
    split at hc
    · have hc := wm.closer_lt hc
      refine Stays.bind (pseudoForm_stays (by omega) ?_) fun x _ => ?_
      · simp only [pseudoForms, List.forall_mem_cons, List.not_mem_nil, false_imp_iff,
          implies_true, and_true]
        exact ⟨nthFormulaLength_measures wm (by omega), nthMultipleLength_measures wm (by omega),
          nthOffsetLength_measures wm (by omega), pseudoSelectorsLength_measures wm hd (by omega),
          pseudoIdentLength_measures wm (by omega)⟩
      · split
        · exact Stays.bind (tokensBetween_measures (by omega) (by omega)) fun m hm =>
            stays_pure fun x hx => of?_fits hm hx
        · exact pseudoBareMatch_matches hs
    · cases hc

theorem pseudoLength_measures (h : s.Open i 0) : (pseudoLength ts i).Measures ts s i :=
  orElse_measures (pseudoElementLength_measures (by omega)) (lengthOf_measures h)

/-! ## Compounds, combinators and whole selectors -/

theorem compoundPartLength_measures (h : s.Open i 0) : (compoundPartLength ts i).Measures ts s i :=
  orElse_measures (lengthOf_measures h) <| orElse_measures (lengthOf_measures h) <|
    orElse_measures (lengthOf_measures h) (pseudoLength_measures h)

theorem compoundMatch_matches (h : s.Open i 1) : (compoundMatch ts i).Matches ts s i := by
  unfold compoundMatch
  refine Stays.bind (orElse_measures (typeSelectorLength_measures h)
    (parentLength_measures (by omega))) fun n hn => ?_
  refine Stays.bind (walkWhile_stays fun j hij _ =>
    compoundPartLength_measures (h.at (by omega) (by decide))) fun k hk => ?_
  exact Stays.bind (tokensBetween_measures (by omega) (by omega)) fun m hm =>
    stays_pure fun x hx => of?_fits hm hx

theorem combinatorLength_measures (hs : s.origin ≤ i) :
    (combinatorLength ts i).Measures ts s i := by
  unfold combinatorLength
  split
  · next h => exact stays_pure (fits_of_le (lt_of_is (Bool.and_eq_true_iff.1 h).2))
  split
  · next h => exact stays_pure (fits_of_le (lt_of_isAny h))
  split
  · refine Stays.bind (lengthOf_measures (by omega)) fun n hn => stays_pure ?_
    split
    · next h =>
      have hlt := lt_of_is (Bool.and_eq_true_iff.1 h).2
      exact fits_of_le (by omega)
    · exact fits_zero ts i
  · exact stays_pure (fits_zero ts i)

theorem afterCompound_stays (h : s.Open i 2) :
    (afterCompound i).Stays ts s fun x => ts.Fits i x.length := by
  unfold afterCompound
  refine Stays.bind (lengthOf_measures (h.at (Nat.le_refl i) (by decide))) fun n1 hn1 => ?_
  refine Stays.bind (lengthOf_measures (h.at (by omega) (by decide))) fun n2 hn2 => ?_
  split
  · split
    · exact stays_pure (fits_zero ts i)
    · exact Stays.bind (lengthOf_measures (h.at (by omega) (by decide))) fun n3 hn3 =>
        stays_pure (lengthen_fits hn3)
  · refine Stays.bind (lengthOf_measures (h.at (by omega) (by decide))) fun n3 hn3 => ?_
    refine Stays.bind (lengthOf_measures (h.at (by omega) (by decide))) fun n4 hn4 => ?_
    split
    · exact stays_pure (by change ts.Fits i (n1 + n2); omega)
    · exact stays_pure (by change ts.Fits i (n1 + n2 + n3 + n4); omega)

theorem afterCombinator_stays (h : s.Open i 2) :
    (afterCombinator i).Stays ts s fun x => ts.Fits i x.length := by
  unfold afterCombinator
  refine Stays.bind (lengthOf_measures (h.at (Nat.le_refl i) (by decide))) fun n1 hn1 => ?_
  refine Stays.bind (lengthOf_measures (h.at (by omega) (by decide))) fun n2 hn2 => ?_
  split
  · exact stays_pure (fits_zero ts i)
  · refine Stays.bind (lengthOf_measures (h.at (by omega) (by decide))) fun n3 hn3 => ?_
    refine Stays.bind (lengthOf_measures (h.at (by omega) (by decide))) fun n4 hn4 => ?_
    split
    · exact stays_pure (by change ts.Fits i (n1 + n2); omega)
    · exact stays_pure (by change ts.Fits i (n1 + n2 + n3 + n4); omega)

theorem selectorMatch_matches (h : s.Open i 2) : (selectorMatch ts i).Matches ts s i := by
  unfold selectorMatch
  refine Stays.bind (lengthOf_measures h) fun n hn => ?_
  split
  · refine Stays.bind (lengthOf_measures (h.at (Nat.le_refl i) (by decide))) fun m hm => ?_
    split
    · exact stays_pure fun _ hx => nomatch hx
    · refine Stays.bind (walk_stays (fun j hij _ => afterCombinator_stays (h.at (by omega)
        (Nat.le_refl 2))) (Nat.le_refl _) (Or.inl rfl)) fun k hk => ?_
      exact Stays.bind (tokensBetween_measures (by omega) (by omega)) fun m hm =>
        stays_pure fun x hx => of?_fits hm hx
  · refine Stays.bind (walk_stays (fun j hij _ => afterCompound_stays (h.at (by omega)
      (Nat.le_refl 2))) (Nat.le_refl _) (Or.inl rfl)) fun k hk => ?_
    exact Stays.bind (tokensBetween_measures (by omega) (by omega)) fun m hm =>
      stays_pure fun x hx => of?_fits hm hx

theorem afterComma_measures {r : Rule} (h : s.Open i 0) : (afterComma ts r i).Measures ts s i := by
  unfold afterComma
  refine Stays.bind (lengthOf_measures h) fun n1 hn1 => ?_
  split
  · refine Stays.bind (lengthOf_measures (by omega)) fun n2 hn2 => ?_
    refine Stays.bind (lengthOf_measures (by omega)) fun n3 hn3 => stays_pure (lengthen_fits ?_)
    rw [show i + (n1 + 1 + n2) = i + n1 + 1 + n2 by omega]
    exact hn3
  · exact stays_pure (fits_zero ts i)

theorem commaListLength_measures {r : Rule} (h : s.Open i r.rank) :
    (commaListLength ts r i).Measures ts s i := by
  unfold commaListLength
  refine Stays.bind (lengthOf_measures h) fun n hn => ?_
  split
  · exact stays_pure (fits_zero ts i)
  · refine Stays.bind (walkWhile_stays fun j hij _ => afterComma_measures (h.at (by omega)
      (Nat.zero_le _))) fun k hk => ?_
    exact tokensBetween_measures (by omega) (by omega)

end LessCss.Grammar
