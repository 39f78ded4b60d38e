import LessCss.Grammar.Declaration
import LessCss.Proofs.Order

/-! The order of questions in the productions below selectors and statements: spacing, names,
literals, groups, values, declarations and argument lists. For each program, what it measures
stays inside the stream, and it asks only what the scope allows at its own token. -/

namespace LessCss.Grammar

open Lookahead Tokens

variable {ts : Tokens} {s : Scope} {i j : Nat}

/-! ## Spacing -/

theorem tokenLength_measures (ks : List Token.Kind) : (tokenLength ts ks i).Measures ts s i :=
  stays_pure (fits_toNat lt_of_isAny)

theorem spaceLength_measures (wm : ts.WellMarked) : (spaceLength ts i).Measures ts s i := by
  unfold spaceLength
  split
  · next t ht =>
    split
    · next hk =>
      obtain ⟨e, he, hie, hlt, _⟩ := wm.runEnd_eq i t ht hk
      rw [he]
      exact tokensBetween_measures (by omega) (by omega)
    · exact stays_pure (fits_zero ts i)
  · exact stays_pure (fits_zero ts i)

theorem spacingLength_measures (wm : ts.WellMarked) : (spacingLength ts i).Measures ts s i :=
  (walkWhile_stays fun _ _ _ =>
    orElse_measures (spaceLength_measures wm) (tokenLength_measures _)).bind
    fun _ hk => tokensBetween_measures hk.1 hk.2

/-! ## Names -/

theorem identEnd_stays (named : Bool) (hs : s.origin < i) (hij : i ≤ j) (hj : j ≤ ts.size) :
    (identEnd ts named j).Stays ts s fun x => i ≤ x.2 ∧ x.2 ≤ ts.size := by
  fun_induction identEnd ts named j with
  | case1 named j hlt ih ihTrue =>
    refine Stays.bind (lengthOf_measures (by omega)) fun n hn => ?_
    have hle : j + n ≤ ts.size := by omega
    split
    · next hk => exact ih n (by omega) (lt_of_kind? hk)
    · next hk => exact ih n (by omega) (lt_of_kind? hk)
    · next hk => exact ihTrue n (by omega) (lt_of_kind? hk)
    · next hk =>
      split
      · exact ih n (by omega) (lt_of_kind? hk)
      · exact ⟨by omega, hle⟩
    · exact ⟨by omega, hle⟩
  | case2 named j hge => exact ⟨hij, hj⟩

theorem identLength_measures (hs : s.origin ≤ i) : (identLength ts i).Measures ts s i := by
  unfold identLength
  split
  · next hk =>
    have hi := lt_of_kind? hk
    have hle := le_spanEnd ts [.minus, .digits, .underscore, .identifier] (i + 1)
    exact tokensBetween_measures (by omega) (Or.inr (spanEnd_le hi))
  · next k _ hk =>
    have hi := lt_of_kind? hk
    split
    · refine Stays.bind (identEnd_stays (i := i + 1) _ (by omega) (by omega) hi)
        fun (named, stop) hx => ?_
      have hle : i + 1 ≤ stop := hx.1
      dsimp only
      split
      · exact tokensBetween_measures (by omega) (Or.inr hx.2)
      · exact stays_pure (fits_zero ts i)
    · exact stays_pure (fits_zero ts i)
  · exact stays_pure (fits_zero ts i)

theorem interpolationLength_measures (hs : s.origin ≤ i) :
    (interpolationLength ts i).Measures ts s i := by
  unfold interpolationLength
  split
  · refine Stays.bind (lengthOf_measures (by omega)) fun n hn => stays_pure ?_
    split
    · next h =>
      have hlt := lt_of_is (Bool.and_eq_true_iff.1 h).2
      exact fits_of_le (by omega)
    · exact fits_zero ts i
  · exact stays_pure (fits_zero ts i)

theorem lengthen_fits {n m : Nat} (hn : ts.Fits (i + m) n) : ts.Fits i (lengthen n m) := by
  unfold lengthen
  split
  · exact fits_zero ts i
  · omega

theorem varLength_measures (hs : s.origin ≤ i) : (varLength ts i).Measures ts s i := by
  unfold varLength
  split
  · exact stays_pure (fits_zero ts i)
  · exact Stays.bind
      (orElse_measures (lengthOf_measures (by omega)) (lengthOf_measures (by omega)))
      fun n hn => stays_pure (lengthen_fits hn)

theorem varListLength_measures (h : s.Open i 0) : (varListLength ts i).Measures ts s i := by
  unfold varListLength
  refine Stays.bind (lengthOf_measures h) fun n hn => stays_pure ?_
  split
  · next hd =>
    have hd := Bool.and_eq_true_iff.1 hd
    have hn0 : 0 < n := by simpa using hd.1
    have hend : ts.spanEnd [.dot] (i + n) = i + n + 3 := by simpa using hd.2
    have hle : ts.spanEnd [.dot] (i + n) ≤ ts.size := spanEnd_le (by omega)
    exact fits_of_le (by omega)
  · exact fits_zero ts i

theorem atKeywordLength_measures (hs : s.origin ≤ i) : (atKeywordLength ts i).Measures ts s i := by
  unfold atKeywordLength
  split
  · exact Stays.bind (lengthOf_measures (by omega)) fun n hn => stays_pure (lengthen_fits hn)
  · exact stays_pure (fits_zero ts i)

theorem nameMatch_matches (h : s.Open i 0) : (nameMatch i).Matches ts s i := by
  refine firstOf_matches fun a ha => ?_
  simp only [List.mem_cons, List.not_mem_nil, or_false] at ha
  rcases ha with rfl | rfl
  · exact lengthOf_measures h
  · exact lengthOf_measures h

theorem markedNameMatch_matches (hs : s.origin ≤ i) (mark : Token.Kind) :
    (markedNameMatch ts mark i).Matches ts s i := by
  unfold markedNameMatch
  split
  · refine Stays.bind (nameMatch_matches (by omega)) fun m hm => stays_pure fun x hx => ?_
    obtain ⟨y, hy, rfl⟩ := Option.map_eq_some_iff.1 hx
    have hf := hm y hy
    have hy := y.length_pos
    change ts.Fits i (y.length + 1)
    omega
  · exact stays_pure fun _ hx => nomatch hx

theorem classOrIdLength_measures (h : s.Open i 0) : (classOrIdLength i).Measures ts s i :=
  orElse_measures (lengthOf_measures h) (lengthOf_measures h)

/-! ## Literals -/

theorem numberLength_measures : (numberLength ts i).Measures ts s i := by
  refine stays_pure ?_
  split
  · next h =>
    have hi := lt_of_is h
    split
    · exact fits_of_le hi
    · next h1 =>
      have h1 : i + 1 < ts.size := lt_of_is (by simpa using h1)
      split
      · exact fits_of_le h1
      · next h2 => exact fits_of_le (lt_of_is (i := i + 2) (by simpa using h2))
  · split
    · next h => exact fits_of_le (lt_of_is (Bool.and_eq_true_iff.1 h).2)
    · exact fits_zero ts i

theorem unitLength_fits : ts.Fits i (unitLength ts i) := by
  unfold unitLength
  split
  · next hk => exact fits_of_le (lt_of_kind? hk)
  · next hk =>
    split
    · next h => exact fits_of_le (lt_of_is h)
    · exact fits_of_le (lt_of_kind? hk)
  · exact fits_zero ts i

theorem dimensionLength_measures (h : s.Open i 0) : (dimensionLength ts i).Measures ts s i := by
  unfold dimensionLength
  refine Stays.bind (lengthOf_measures h) fun n hn => stays_pure ?_
  split
  · exact fits_zero ts i
  · exact lengthen_fits unitLength_fits

theorem percentageLength_measures (h : s.Open i 0) : (percentageLength ts i).Measures ts s i := by
  unfold percentageLength
  refine Stays.bind (lengthOf_measures h) fun n hn => stays_pure ?_
  split
  · next hp => exact fits_of_le (lt_of_is (Bool.and_eq_true_iff.1 hp).2)
  · exact fits_zero ts i

theorem escapedStringLength_measures : (escapedStringLength ts i).Measures ts s i := by
  refine stays_pure ?_
  split
  · next h => exact fits_of_le (lt_of_isAny (Bool.and_eq_true_iff.1 h).2)
  · exact fits_zero ts i

theorem importantLength_measures (hs : s.origin ≤ i) : (importantLength ts i).Measures ts s i := by
  unfold importantLength
  split
  · refine Stays.bind (lengthOf_measures (by omega)) fun n hn => stays_pure ?_
    split
    · next h =>
      have hlt : i + 1 + n < ts.size := lt_of_text (by simp_all)
      exact fits_of_le (by omega)
    · exact fits_zero ts i
  · exact stays_pure (fits_zero ts i)

theorem colorLength_measures : (colorLength ts i).Measures ts s i := by
  refine stays_pure ?_
  split
  · exact lengthen_fits unitLength_fits
  · exact fits_zero ts i

/-! ## Groups -/

theorem throughCloser_measures (wm : ts.WellMarked) (k : Token.Kind) (hij : i ≤ j) :
    (throughCloser ts k i j).Measures ts s i := by
  unfold throughCloser
  split
  · next c hc =>
    have hc := wm.closer_lt hc
    exact tokensBetween_measures (by omega) (by omega)
  · exact stays_pure (fits_zero ts i)

theorem parenthesesLength_measures (wm : ts.WellMarked) :
    (parenthesesLength ts i).Measures ts s i := throughCloser_measures wm _ (Nat.le_refl i)

theorem bracketsLength_measures (wm : ts.WellMarked) : (bracketsLength ts i).Measures ts s i :=
  throughCloser_measures wm _ (Nat.le_refl i)

theorem blockLength_measures (wm : ts.WellMarked) : (blockLength ts i).Measures ts s i :=
  throughCloser_measures wm _ (Nat.le_refl i)

/-! ## Constructs kept as they stand -/

theorem uriLength_measures (wm : ts.WellMarked) : (uriLength ts i).Measures ts s i := by
  unfold uriLength
  split
  · exact throughCloser_measures wm _ (by omega)
  · exact stays_pure (fits_zero ts i)

theorem expressionLength_measures (wm : ts.WellMarked) :
    (expressionLength ts i).Measures ts s i := by
  unfold expressionLength
  split
  · exact throughCloser_measures wm _ (by omega)
  · exact stays_pure (fits_zero ts i)

theorem progidLength_measures (wm : ts.WellMarked) (hs : s.origin ≤ i) :
    (progidLength ts i).Measures ts s i := by
  unfold progidLength
  split
  · exact stays_pure (fits_zero ts i)
  · refine Stays.bind (lengthOf_measures (by omega)) fun n hn => ?_
    refine Stays.bind (lengthOf_measures (by omega)) fun m hm => ?_
    exact throughCloser_measures wm _ (by omega)

/-! ## Values -/

theorem functionLength_measures (wm : ts.WellMarked) (h : s.Open i 0) :
    (functionLength ts i).Measures ts s i := by
  unfold functionLength
  refine Stays.bind (lengthOf_measures h) fun n hn => ?_
  split
  · exact stays_pure (fits_zero ts i)
  · exact throughCloser_measures wm _ (by omega)

theorem fragmentMatch_matches (wm : ts.WellMarked) (h : s.Open i 0) :
    (fragmentMatch ts i).Matches ts s i := by
  refine firstOf_matches ?_
  simp only [List.forall_mem_cons, List.not_mem_nil, false_imp_iff, implies_true, and_true]
  exact ⟨bracketsLength_measures wm, parenthesesLength_measures wm, tokenLength_measures _,
    varListLength_measures h, lengthOf_measures h, percentageLength_measures h,
    dimensionLength_measures h, lengthOf_measures h, uriLength_measures wm,
    expressionLength_measures wm, functionLength_measures wm h, lengthOf_measures h,
    lengthOf_measures h, tokenLength_measures _⟩

theorem preludePartMatch_matches (h : s.Open i 1) : (preludePartMatch ts i).Matches ts s i := by
  refine firstOf_matches ?_
  simp only [List.forall_mem_cons, List.not_mem_nil, false_imp_iff, implies_true, and_true]
  exact ⟨colorLength_measures, lengthOf_measures h,
    lengthOf_measures (h.at (Nat.le_refl i) (by decide)), tokenLength_measures _⟩

theorem preludeEnd_stays (h : s.Open i 2) :
    (preludeEnd ts i).Stays ts s fun k => i ≤ k ∧ (k = i ∨ k ≤ ts.size) :=
  walkWhile_stays fun _ hij _ => lengthOf_measures (h.at hij (by decide))

theorem valuePartMatch_matches (wm : ts.WellMarked) (h : s.Open i 1) :
    (valuePartMatch ts i).Matches ts s i := by
  have h0 : s.Open i 0 := by omega
  refine firstOf_matches ?_
  simp only [List.forall_mem_cons, List.not_mem_nil, false_imp_iff, implies_true, and_true]
  exact ⟨escapedStringLength_measures, lengthOf_measures h0, lengthOf_measures h0,
    colorLength_measures, blockLength_measures wm, lengthOf_measures h0, lengthOf_measures h,
    atKeywordLength_measures (by omega), tokenLength_measures _, lengthOf_measures h0⟩

theorem valueLength_measures (h : s.Open i 2) : (valueLength ts i).Measures ts s i := by
  unfold valueLength
  refine Stays.bind (walk_stays (fun j hij _ => ?_) (Nat.le_refl i) (Or.inl rfl))
    fun k hk => tokensBetween_measures hk.1 hk.2
  refine Stays.bind (lengthOf_measures (h.at hij (by decide))) fun n hn => ?_
  refine Stays.bind (find_stays (h.at (by omega) (by decide))) fun a ha => ?_
  split
  · next m =>
    have hm := m.length_pos
    change ts.Fits (j + n) m.length at ha
    change ts.Fits j (n + m.length)
    omega
  · exact stays_pure (fits_zero ts j)

/-! ## Declarations and argument lists -/

theorem propertyLength_measures (h : s.Open i 0) : (propertyLength i).Measures ts s i :=
  orElse_measures (lengthOf_measures h) (lengthOf_measures h)

theorem declarationLength_measures (h : s.Open i 0) : (declarationLength ts i).Measures ts s i := by
  unfold declarationLength
  refine Stays.bind (propertyLength_measures h) fun n hn => ?_
  split
  · exact stays_pure (fits_zero ts i)
  · next hn0 =>
    have hn0 : 0 < n := Nat.pos_of_ne_zero hn0
    refine Stays.bind (lengthOf_measures (by omega)) fun n1 hn1 => ?_
    dsimp only
    split
    · refine Stays.bind (lengthOf_measures (by omega)) fun n2 hn2 => ?_
      exact Stays.bind (lengthOf_measures (by omega)) fun n3 hn3 =>
        through_measures (by omega) hn3
    · exact stays_pure (fits_zero ts i)

theorem argumentMatch_matches (wm : ts.WellMarked) (h : s.Open i 5) :
    (argumentMatch ts i).Matches ts s i := by
  have h0 : s.Open i 0 := by omega
  refine firstOf_matches ?_
  simp only [List.forall_mem_cons, List.not_mem_nil, false_imp_iff, implies_true, and_true]
  exact ⟨escapedStringLength_measures, lengthOf_measures h, varListLength_measures h0,
    lengthOf_measures h0, lengthOf_measures h0, tokenLength_measures _, tokenLength_measures _,
    tokenLength_measures _, tokenLength_measures _, tokenLength_measures _,
    percentageLength_measures h0, dimensionLength_measures h0, lengthOf_measures h0,
    uriLength_measures wm, functionLength_measures wm h0, lengthOf_measures h0,
    colorLength_measures, blockLength_measures wm, parenthesesLength_measures wm⟩

theorem argumentsLength_measures (wm : ts.WellMarked) (hs : s.origin ≤ i) :
    (argumentsLength ts i).Measures ts s i := by
  unfold argumentsLength
  split
  · next c hc =>
    have hc := wm.closer_lt hc
    refine Stays.bind (walkWhile_stays fun j _ _ => lengthOf_measures (by omega)) fun k hk => ?_
    split
    · exact tokensBetween_measures (by omega) (by omega)
    · exact stays_pure (fits_zero ts i)
  · exact stays_pure (fits_zero ts i)

end LessCss.Grammar
