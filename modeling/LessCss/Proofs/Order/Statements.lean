import LessCss.Grammar
import LessCss.Proofs.Order.Selectors

/-! The order of questions in rules, mixins and statements, and with it in all rules of the grammar:
a rule asks only about later tokens or about rules of lower rank, it asks further inside only as a
pseudo-class or an at-rule, and its match stays inside the stream. -/

namespace LessCss

namespace Grammar

open Lookahead Tokens

variable {ts : Tokens} {s : Scope} {i j : Nat}

/-! ## Rulesets and at-rules -/

theorem rulesetLength_measures (wm : ts.WellMarked) (h : s.Open i 4) :
    (rulesetLength ts i).Measures ts s i := by
  unfold rulesetLength
  refine Stays.bind (lengthOf_measures h) fun n hn => ?_
  split
  · exact stays_pure (fits_zero ts i)
  · refine Stays.bind (lengthOf_measures (h.at (by omega) (by decide))) fun n1 hn1 => ?_
    exact Stays.bind (blockLength_measures wm) fun n2 hn2 => through_measures (by omega) hn2

theorem keyframeSelectorMatch_matches (h : s.Open i 0) :
    (keyframeSelectorMatch ts i).Matches ts s i := by
  unfold keyframeSelectorMatch
  refine Stays.bind (lengthOf_measures h) fun n hn => ?_
  split
  · exact Stays.bind (percentageLength_measures h) fun m hm =>
      stays_pure fun x hx => of?_fits hm hx
  · refine stays_pure fun x hx => ?_
    split at hx
    · exact of?_fits hn hx
    · cases hx

theorem keyframeLength_measures (wm : ts.WellMarked) (h : s.Open i 1) :
    (keyframeLength ts i).Measures ts s i := by
  unfold keyframeLength
  refine Stays.bind (commaListLength_measures h) fun n hn => ?_
  split
  · exact stays_pure (fits_zero ts i)
  · refine Stays.bind (lengthOf_measures (h.at (by omega) (by decide))) fun n1 hn1 => ?_
    exact Stays.bind (blockLength_measures wm) fun n2 hn2 => through_measures (by omega) hn2

theorem keyframesLength_measures (wm : ts.WellMarked) (hs : s.origin ≤ i) :
    (keyframesLength ts i).Measures ts s i := by
  unfold keyframesLength
  split
  · exact stays_pure (fits_zero ts i)
  · next c hc =>
    have hc := wm.closer_lt hc
    refine Stays.bind (lengthOf_measures (by omega)) fun n hn => ?_
    refine Stays.bind (keyframeLength_measures wm (by omega)) fun n1 hn1 => ?_
    split
    · exact stays_pure (fits_zero ts i)
    · refine Stays.bind (walkWhile_stays fun j hij _ => orElse_measures
        (lengthOf_measures (by omega)) (keyframeLength_measures wm (by omega))) fun k hk => ?_
      split
      · exact tokensBetween_measures (by omega) (by omega)
      · exact stays_pure (fits_zero ts i)

theorem keyframesRuleLength_measures (wm : ts.WellMarked) (hs : s.origin ≤ i) :
    (keyframesRuleLength ts i).Measures ts s i := by
  unfold keyframesRuleLength
  refine Stays.bind (atKeywordLength_measures hs) fun n hn => ?_
  split
  · exact stays_pure (fits_zero ts i)
  · next hk =>
    have hn0 : n ≠ 0 := by
      rintro rfl
      simp at hk
    refine Stays.bind (lengthOf_measures (by omega)) fun n1 hn1 => ?_
    split
    · exact stays_pure (fits_zero ts i)
    refine Stays.bind (lengthOf_measures (by omega)) fun n2 hn2 => ?_
    split
    · exact stays_pure (fits_zero ts i)
    refine Stays.bind (lengthOf_measures (by omega)) fun n3 hn3 => ?_
    exact Stays.bind (keyframesLength_measures wm (by omega)) fun n4 hn4 =>
      through_measures (by omega) hn4

theorem nestedRuleMatch_matches (h : s.Open i 5) : (nestedRuleMatch i).Matches ts s i := by
  refine firstOf_matches ?_
  simp only [List.forall_mem_cons, List.not_mem_nil, false_imp_iff, implies_true, and_true]
  exact ⟨lengthOf_measures (h.at (Nat.le_refl i) (by decide)),
    lengthOf_measures (h.at (Nat.le_refl i) (by decide)), lengthOf_measures h⟩

theorem ruleBodyLength_measures (hs : s.origin ≤ i) (hi : i < ts.size) :
    (ruleBodyLength ts i).Measures ts s i :=
  Stays.bind (walkWhile_stays fun j hij _ => lengthOf_measures (by omega)) fun k hk =>
    tokensBetween_measures (by omega) (by omega)

theorem atRuleHead_stays (hs : s.origin ≤ i) :
    (atRuleHead ts i).Stays ts s fun x => ∀ k, x = some k → i < k ∧ k ≤ ts.size := by
  unfold atRuleHead
  refine Stays.bind (atKeywordLength_measures hs) fun n hn => ?_
  split
  · exact stays_pure fun _ hx => nomatch hx
  · next hn0 =>
    have hn0 : 0 < n := Nat.pos_of_ne_zero hn0
    refine Stays.bind (preludeEnd_stays (by omega)) fun k hk => stays_pure fun x hx => ?_
    cases hx
    omega

theorem rulesRuleLength_measures (wm : ts.WellMarked) (hd : s.deep = true) (hs : s.origin ≤ i) :
    (rulesRuleLength ts i).Measures ts s i := by
  unfold rulesRuleLength
  refine Stays.bind (atRuleHead_stays hs) fun x hx => ?_
  split
  · exact stays_pure (fits_zero ts i)
  · next k =>
    have hk := hx k rfl
    split
    · exact stays_pure (fits_zero ts i)
    · next c hc =>
      have hc := wm.closer_lt hc
      refine Stays.bind (lengthInside_measures hd (by omega)) fun n hn => ?_
      split
      · exact tokensBetween_measures (by omega) (by omega)
      · exact stays_pure (fits_zero ts i)

theorem blockRuleLength_measures (wm : ts.WellMarked) (hs : s.origin ≤ i) :
    (blockRuleLength ts i).Measures ts s i := by
  unfold blockRuleLength
  refine Stays.bind (atRuleHead_stays hs) fun x hx => ?_
  split
  · exact stays_pure (fits_zero ts i)
  · next k =>
    have hk := hx k rfl
    exact Stays.bind (blockLength_measures wm) fun n hn => through_measures (by omega) hn

theorem bareRuleLength_measures (hs : s.origin ≤ i) : (bareRuleLength ts i).Measures ts s i := by
  unfold bareRuleLength
  refine Stays.bind (atRuleHead_stays hs) fun x hx => ?_
  split
  · exact stays_pure (fits_zero ts i)
  · next k =>
    have hk := hx k rfl
    exact tokensBetween_measures (by omega) (by omega)

theorem atRuleMatch_matches (wm : ts.WellMarked) (hd : s.deep = true) (hs : s.origin ≤ i) :
    (atRuleMatch ts i).Matches ts s i := by
  refine firstOf_matches ?_
  simp only [List.forall_mem_cons, List.not_mem_nil, false_imp_iff, implies_true, and_true]
  exact ⟨keyframesRuleLength_measures wm hs, rulesRuleLength_measures wm hd hs,
    blockRuleLength_measures wm hs, bareRuleLength_measures hs⟩

/-! ## Guards, mixins, calls and extends -/

theorem conditionPartMatch_matches (wm : ts.WellMarked) (h : s.Open i 0) :
    (conditionPartMatch ts i).Matches ts s i := by
  refine firstOf_matches ?_
  simp only [List.forall_mem_cons, List.not_mem_nil, false_imp_iff, implies_true, and_true]
  exact ⟨functionLength_measures wm h, bracketsLength_measures wm, parenthesesLength_measures wm,
    lengthOf_measures h, lengthOf_measures h, lengthOf_measures h, tokenLength_measures _,
    tokenLength_measures _, lengthOf_measures h, lengthOf_measures h, tokenLength_measures _⟩

theorem conditionLength_measures (wm : ts.WellMarked) (h : s.Open i 0) :
    (conditionLength ts i).Measures ts s i := by
  unfold conditionLength
  split
  · exact stays_pure (fits_zero ts i)
  next hw =>
  have hi : i < ts.size := by
    simp only [Bool.not_eq_true', Bool.and_eq_false_iff, not_or, Bool.not_eq_false] at hw
    exact lt_of_is hw.1
  refine Stays.bind (lengthOf_measures h) fun n hn => ?_
  split
  · exact stays_pure (fits_zero ts i)
  refine Stays.bind (walkWhile_stays fun j hij _ => ?_) fun k hk => ?_
  · refine Stays.bind (blockLength_measures wm) fun m hm => ?_
    split
    · exact stays_pure (fits_zero ts j)
    · exact lengthOf_measures (by omega)
  · split
    · exact tokensBetween_measures (by omega) (by omega)
    · refine Stays.bind (blockLength_measures wm) fun m hm => ?_
      split
      · exact tokensBetween_measures (by omega) (by omega)
      · exact stays_pure (fits_zero ts i)

theorem mixinHeadLength_measures (h : s.Open i 0) : (mixinHeadLength i).Measures ts s i := by
  unfold mixinHeadLength
  refine Stays.bind (classOrIdLength_measures h) fun n hn => ?_
  split
  · exact stays_pure (fits_zero ts i)
  · next hn0 =>
    have hn0 : 0 < n := Nat.pos_of_ne_zero hn0
    refine Stays.bind (lengthOf_measures (by omega)) fun n1 hn1 => ?_
    refine Stays.bind (lengthOf_measures (by omega)) fun n2 hn2 => ?_
    exact tokensBetween_measures (by omega) (by omega)

theorem mixinMatch_matches (wm : ts.WellMarked) (h : s.Open i 0) :
    (mixinMatch ts i).Matches ts s i := by
  unfold mixinMatch
  refine Stays.bind (mixinHeadLength_measures h) fun n hn => ?_
  split
  · exact stays_pure fun _ hx => nomatch hx
  · next hn0 =>
    have hn0 : 0 < n := Nat.pos_of_ne_zero hn0
    refine Stays.bind (lengthOf_measures (by omega)) fun n1 hn1 => ?_
    refine Stays.bind (lengthOf_measures (by omega)) fun n2 hn2 => ?_
    refine Stays.bind (blockLength_measures wm) fun n3 hn3 => ?_
    split
    · exact stays_pure fun x hx => of?_fits hn hx
    · exact Stays.bind (tokensBetween_measures (by omega) (by omega)) fun m hm =>
        stays_pure fun x hx => of?_fits hm hx

theorem callHeadLength_measures (h : s.Open i 0) : (callHeadLength ts i).Measures ts s i := by
  unfold callHeadLength
  refine Stays.bind (classOrIdLength_measures h) fun n hn => ?_
  split
  · exact stays_pure (fits_zero ts i)
  · refine Stays.bind (walkWhile_stays fun j hij _ => ?_) fun k hk =>
      tokensBetween_measures hk.1 hk.2
    have hj := h.at hij (Nat.le_refl 0)
    exact orElse_measures (classOrIdLength_measures hj)
      (orElse_measures (lengthOf_measures hj) (tokenLength_measures _))

theorem mixinCallMatch_matches (h : s.Open i 0) : (mixinCallMatch ts i).Matches ts s i := by
  unfold mixinCallMatch
  refine Stays.bind (callHeadLength_measures h) fun n hn => ?_
  split
  · exact stays_pure fun _ hx => nomatch hx
  · next hn0 =>
    have hn0 : 0 < n := Nat.pos_of_ne_zero hn0
    refine Stays.bind (lengthOf_measures (by omega)) fun n1 hn1 => ?_
    split
    · exact stays_pure fun x hx => of?_fits hn hx
    · refine Stays.bind (lengthOf_measures (by omega)) fun n2 hn2 => ?_
      refine Stays.bind (lengthOf_measures (by omega)) fun n3 hn3 => ?_
      exact Stays.bind (tokensBetween_measures (by omega) (by omega)) fun m hm =>
        stays_pure fun x hx => of?_fits hm hx

theorem extendTargetMatch_matches (h : s.Open i 0) : (extendTargetMatch ts i).Matches ts s i := by
  refine firstOf_matches ?_
  simp only [List.forall_mem_cons, List.not_mem_nil, false_imp_iff, implies_true, and_true]
  exact ⟨parentLength_measures (by omega), lengthOf_measures h, lengthOf_measures h,
    lengthOf_measures h⟩

theorem extendMatch_matches (wm : ts.WellMarked) (h : s.Open i 1) :
    (extendMatch ts i).Matches ts s i := by
  unfold extendMatch
  refine Stays.bind (find_stays h) fun a ha => ?_
  split
  · exact stays_pure fun _ hx => nomatch hx
  · next t =>
    have ht := t.length_pos
    change ts.Fits i t.length at ha
    dsimp only
    split
    · exact stays_pure fun _ hx => nomatch hx
    refine Stays.bind (lengthOf_measures (by omega)) fun n hn => ?_
    split
    · exact stays_pure fun _ hx => nomatch hx
    · refine Stays.bind (lengthOf_measures (by omega)) fun n1 hn1 => ?_
      refine Stays.bind (blockLength_measures wm) fun n2 hn2 => ?_
      split
      · exact Stays.bind (tokensBetween_measures (by omega) (by omega)) fun m hm =>
          stays_pure fun x hx => of?_fits hm hx
      · exact Stays.bind (tokensBetween_measures (by omega) (by omega)) fun m hm =>
          stays_pure fun x hx => of?_fits hm hx

/-! ## Statements -/

theorem blockItemMatch_matches (h : s.Open i 5) : (blockItemMatch i).Matches ts s i := by
  refine firstOf_matches ?_
  simp only [List.forall_mem_cons, List.not_mem_nil, false_imp_iff, implies_true, and_true]
  exact ⟨lengthOf_measures (h.at (Nat.le_refl i) (by decide)),
    lengthOf_measures (h.at (Nat.le_refl i) (by decide)), lengthOf_measures h,
    lengthOf_measures (h.at (Nat.le_refl i) (by decide)),
    lengthOf_measures (h.at (Nat.le_refl i) (by decide)),
    lengthOf_measures (h.at (Nat.le_refl i) (by decide))⟩

theorem spacingAfterSemicolon_stays (h : s.Open i 0) :
    (spacingAfterSemicolon ts i).Stays ts s fun n => ts.Fits (i + 1) n := by
  unfold spacingAfterSemicolon
  split
  · exact lengthOf_measures (by omega)
  · exact stays_pure (fits_zero ts _)

theorem blockChunkMatch_matches (h : s.Open i 7) : (blockChunkMatch ts i).Matches ts s i := by
  unfold blockChunkMatch
  refine Stays.bind (lengthOf_measures (h.at (Nat.le_refl i) (by decide))) fun n hn => ?_
  refine Stays.bind (find_stays (h.at (by omega) (by decide))) fun a ha => ?_
  dsimp only
  split
  · next m =>
    have hm := m.length_pos
    change ts.Fits (i + n) m.length at ha
    refine Stays.bind (spacingAfterSemicolon_stays (by omega)) fun n1 hn1 => ?_
    split
    · refine Stays.bind (lengthOf_measures (by omega)) fun n2 hn2 => ?_
      exact Stays.bind (tokensBetween_measures (by omega) (by omega)) fun m hm =>
        stays_pure fun x hx => of?_fits hm hx
    · next hn0 =>
      have hn0 : 0 < n1 := Nat.pos_of_ne_zero hn0
      exact Stays.bind (tokensBetween_measures (by omega) (by omega)) fun m hm =>
        stays_pure fun x hx => of?_fits hm hx
  · split
    · next hsemi =>
      have hlt := lt_of_is hsemi
      refine Stays.bind (lengthOf_measures (by omega)) fun n1 hn1 => ?_
      exact Stays.bind (tokensBetween_measures (by omega) (by omega)) fun m hm =>
        stays_pure fun x hx => of?_fits hm hx
    · exact stays_pure fun x hx => of?_fits hn hx

theorem varDeclarationLength_measures (h : s.Open i 5) :
    (varDeclarationLength ts i).Measures ts s i := by
  unfold varDeclarationLength
  refine Stays.bind (lengthOf_measures (h.at (Nat.le_refl i) (by decide))) fun n hn => ?_
  split
  · exact lengthOf_measures h
  · exact stays_pure (fits_zero ts i)

theorem sheetItemMatch_matches (h : s.Open i 5) : (sheetItemMatch ts i).Matches ts s i := by
  refine firstOf_matches ?_
  simp only [List.forall_mem_cons, List.not_mem_nil, false_imp_iff, implies_true, and_true]
  exact ⟨lengthOf_measures (h.at (Nat.le_refl i) (by decide)),
    varDeclarationLength_measures (h.at (Nat.le_refl i) (by decide)),
    lengthOf_measures (h.at (Nat.le_refl i) (by decide)),
    lengthOf_measures (h.at (Nat.le_refl i) (by decide)), lengthOf_measures h,
    lengthOf_measures (h.at (Nat.le_refl i) (by decide)),
    lengthOf_measures (h.at (Nat.le_refl i) (by decide)), tokenLength_measures _⟩

theorem stylesheetLength_measures (h : s.Open i 7) : (stylesheetLength ts i).Measures ts s i :=
  Stays.bind (walkWhile_stays fun _ hij _ => lengthOf_measures (h.at hij (by decide))) fun _ hk =>
    tokensBetween_measures hk.1 hk.2

end Grammar

/-! ## All rules -/

/-- The two rules that ask further inside. -/
def Rule.nests : Rule → Bool
  | .pseudoClass | .atRule => true
  | _ => false

/-- What a rule may ask when it is answered at token `i`. -/
def Rule.scope (r : Rule) (i : Nat) : Lookahead.Scope := ⟨i, r.rank, r.nests⟩

open Grammar Lookahead in
/-- Every rule keeps to its scope, and its match stays inside the stream. -/
theorem Rule.body_stays {ts : Tokens} (wm : ts.WellMarked) (r : Rule) {i : Nat}
    (hi : i < ts.size) : (r.body ts i).Stays ts (r.scope i) fun a => ts.Fits i a.length := by
  have hM : ∀ {σ : Type} {q : Lookahead (Option (Match σ))} {s : Scope}, q.Matches ts s i →
      q.Stays ts s fun a => ts.Fits i ((a.map Match.length).getD 0) := by
    intro σ q s h
    refine h.mono fun a ha => ?_
    cases a with
    | none => exact Tokens.fits_zero ts i
    | some x => exact ha x rfl
  have hlen : ∀ (r : Rule) (a : Answer r), (a.map Match.length).getD 0 = a.length := by
    intro r a
    cases a <;> rfl
  have hopen : ∀ {ρ σ : Nat} {d : Bool}, ρ < σ → Scope.Open ⟨i, σ, d⟩ i ρ :=
    fun h => Or.inr ⟨rfl, h⟩
  simp only [← hlen]
  cases r with
  | spacing => exact hM (spacingLength_measures wm).sole
  | ident => exact hM (identLength_measures (Nat.le_refl i)).sole
  | number => exact hM numberLength_measures.sole
  | important => exact hM (importantLength_measures (Nat.le_refl i)).sole
  | progid => exact hM (progidLength_measures wm (Nat.le_refl i)).sole
  | var => exact hM (varLength_measures (Nat.le_refl i)).sole
  | interpolation => exact hM (interpolationLength_measures (Nat.le_refl i)).sole
  | classSelector => exact hM (markedNameMatch_matches (Nat.le_refl i) _)
  | idSelector => exact hM (markedNameMatch_matches (Nat.le_refl i) _)
  | fragment => exact hM (fragmentMatch_matches wm (hopen (by decide)))
  | preludePart => exact hM (preludePartMatch_matches (hopen (by decide)))
  | arguments => exact hM (argumentsLength_measures wm (Nat.le_refl i)).sole
  | argument => exact hM (argumentMatch_matches wm (hopen (by decide)))
  | value => exact hM (valueLength_measures (hopen (by decide))).sole
  | valuePart => exact hM (valuePartMatch_matches wm (hopen (by decide)))
  | selectorGroup => exact hM (commaListLength_measures (hopen (by decide))).sole
  | selector => exact hM (selectorMatch_matches (hopen (by decide)))
  | compound => exact hM (compoundMatch_matches (hopen (by decide)))
  | combinator => exact hM (combinatorLength_measures (Nat.le_refl i)).sole
  | namespacePart => exact hM (namespaceMatch_matches (hopen (by decide)))
  | attributeSelector => exact hM (attributeSelectorMatch_matches (Nat.le_refl i))
  | pseudoClass => exact hM (pseudoClassMatch_matches wm rfl (Nat.le_refl i))
  | keyframeSelector => exact hM (keyframeSelectorMatch_matches (hopen (by decide)))
  | ruleset => exact hM (rulesetLength_measures wm (hopen (by decide))).sole
  | declaration => exact hM (declarationLength_measures (hopen (by decide))).sole
  | blockChunk => exact hM (blockChunkMatch_matches (hopen (by decide)))
  | blockItem => exact hM (blockItemMatch_matches (hopen (by decide)))
  | atRule => exact hM (atRuleMatch_matches wm rfl (Nat.le_refl i))
  | nestedRule => exact hM (nestedRuleMatch_matches (hopen (by decide)))
  | ruleBody => exact hM (ruleBodyLength_measures (Nat.le_refl i) hi).sole
  | mixin => exact hM (mixinMatch_matches wm (hopen (by decide)))
  | mixinCall => exact hM (mixinCallMatch_matches (hopen (by decide)))
  | extend => exact hM (extendMatch_matches wm (hopen (by decide)))
  | extendTarget => exact hM (extendTargetMatch_matches (hopen (by decide)))
  | condition => exact hM (conditionLength_measures wm (hopen (by decide))).sole
  | conditionPart => exact hM (conditionPartMatch_matches wm (hopen (by decide)))
  | sheetItem => exact hM (sheetItemMatch_matches (hopen (by decide)))

end LessCss
