import LessCss.Proofs.Head.Statements

/-! Constructs that end where a stream ends. What starts a selector, a ruleset, an at-rule, a guard
or a mixin in the longer stream and ends in the shorter one is found there, although a rule that
finds nothing may find something before the cut. -/

namespace LessCss

open Lookahead Grammar Tokens

variable {ts ts' : Tokens} {A : Reading ts false} {B : Reading ts' false} {i j : Nat}

theorem clear_past_end (hi : ts.size ≤ i) : B.Clear ts i := fun hlt => absurd hlt (Nat.not_lt.2 hi)

theorem clear_of_is {k : Token.Kind} (wm : ts'.WellMarked) (his : ts'.is i k = true)
    (hk : k ∉ .bar :: nameHeads) : B.Clear ts i := by
  intro hlt
  rw [len_namespacePart_eq_zero wm (isAny_single his) (by simpa using hk)]
  exact Nat.le_of_lt hlt

section
variable (h : ts.Head ts')
include h

/-! ## Selectors -/

theorem typeSelector_found (hpos : 0 < B.value (typeSelectorLength ts' i)) :
    ts.Kept i (A.value (typeSelectorLength ts i)) (B.value (typeSelectorLength ts' i)) := by
  intro hle
  refine typeSelector_kept h ?_ hle
  rcases typeSelector_cases hpos with ⟨_, hlen⟩ | ⟨_, _, hlen⟩ <;> omega

theorem compound_found (hpos : 0 < B.len .compound i) : A.Keeps B .compound i := by
  intro hle
  refine compound_keeps h (fun _ => ?_) hle
  have := namespacePart_le_compound h.right.wm hpos
  omega

theorem selector_found (hpos : 0 < B.len .selector i)
    (hclear : ∀ e, e = i + B.len .selector i → B.Clear ts (e + B.len .spacing e)) :
    A.Keeps B .selector i :=
  selector_keeps h (fun hz => absurd hz (Nat.ne_of_gt hpos)) hclear

omit h in
/-- Where a list of selectors goes on, a comma follows, and where it ends, what ends it. -/
theorem clear_in_list {e : Nat} {k : Token.Kind} (wm : ts'.WellMarked)
    (hwalk : B.value (walkWhile ts'.size (afterComma ts' .selector) j) = e)
    (hstop : ts'.is (e + B.len .spacing e) k = true) (hk : k ∉ .bar :: nameHeads) :
    B.Clear ts (j + B.len .spacing j) := by
  rw [value_walkWhile] at hwalk
  split at hwalk
  · next hround =>
    obtain ⟨c, _, rfl, hcomma, _⟩ := afterComma_cases hround.2
    exact clear_of_is wm hcomma (by decide)
  · rw [hwalk]
    exact clear_of_is wm hstop hk

/-- A list of selectors is found again before a brace. -/
theorem selectorGroup_found {e : Nat} (hpos : 0 < B.len .selectorGroup i)
    (he : e = i + B.len .selectorGroup i) (hstop : ts'.is (e + B.len .spacing e) .leftCurly = true)
    (hfits : e + B.len .spacing e ≤ ts.size) : A.Keeps B .selectorGroup i := by
  have hlen := B.len_of_sole (r := .selectorGroup) (u := ()) h.right.wm rfl (B.lt_of_len hpos) rfl
  obtain ⟨hfirst, hend⟩ := commaList_cases (hlen ▸ hpos)
  rw [← hlen, ← he] at hend
  refine Reading.keeps_of_sole (r := .selectorGroup) (u := ()) h rfl rfl fun _ _ => ?_
  have hle := (B.trail_walkWhile ts'.size (afterComma ts' .selector) (i + B.len .selector i)).le
  have hselector := (selector_found (A := A) h hfirst fun _ hl =>
    hl ▸ clear_in_list h.right.wm hend.symm hstop (by decide)).len (by omega)
  have hwalk : A.value (walkWhile ts.size (afterComma ts .selector) (i + B.len .selector i)) = e := by
    refine walk_kept (I := fun _ => True) h (fun _ _ => trivial) (fun j _ hj hreach hle => ?_)
      (by omega) trivial hend.symm
    replace hreach : B.value (walkWhile ts'.size (afterComma ts' .selector) j) = e := hreach
    rw [B.value_map] at hle
    rw [A.value_map, B.value_map]
    refine congrArg Step.go ?_
    replace hle : j + B.value (afterComma ts' .selector j) ≤ ts.size := hle
    rw [value_walkWhile] at hreach
    rcases Nat.eq_zero_or_pos (B.value (afterComma ts' .selector j)) with hz | hround
    · rw [if_neg (by omega)] at hreach
      subst hreach
      rw [value_afterComma A rfl rfl, (spacing_keeps (A := A) (B := B) h j).len hfits, hz,
        if_neg fun hcomma => ?_]
      exact Token.Kind.noConfusion (eq_of_is hstop (h.is_of_is hcomma))
    · rw [if_pos ⟨h.lt_size hj, hround⟩] at hreach
      obtain ⟨c, p, hc, hcomma, hp, hsel, hend⟩ := afterComma_cases hround
      have hbefore := (spacing_keeps (A := A) (B := B) h j).len (by omega)
      have hafter := (spacing_keeps (A := A) (B := B) h (c + 1)).len (by omega)
      have hselector := (selector_found (A := A) h hsel fun l hl => by
        rw [hl, ← hend]
        exact clear_in_list h.right.wm hreach hstop (by decide)).len (by omega)
      rw [value_afterComma A (c := c) (e := p) (by omega) (by omega), value_afterComma B hc hp,
        ← h.is_eq (by omega), hselector]
  rw [value_commaListLength, value_commaListLength, hselector, hwalk, hend]

theorem ruleset_found (hpos : 0 < B.len .ruleset i) : A.Keeps B .ruleset i := by
  intro hle
  obtain ⟨hgroup, a, b, ha, hb, hblock, hend⟩ := ruleset_cases h.right.wm hpos
  obtain ⟨c, hc, _⟩ := throughCloser_cases h.right.wm hblock
  have hlist := (selectorGroup_found (A := A) h hgroup ha (hb ▸ is_of_closer? hc) (by omega)).len
    (by omega)
  have hspacing := (spacing_keeps (A := A) (B := B) h a).len (by omega)
  have hbraces := block_kept (A := A) (B := B) h b (by omega)
  refine Reading.keeps_of_sole (r := .ruleset) (u := ()) h rfl rfl (fun _ _ => ?_) hle
  rw [value_rulesetLength A (ha.trans (by rw [hlist])) (hb.trans (by rw [hspacing])),
    value_rulesetLength B ha hb, hlist, hbraces]

/-! ## At-rules -/

omit h in
theorem len_eq_zero_of_alternatives {r : Rule} (wm : ts.WellMarked) (hn : r.nests = false)
    {alts : List (r.Shape × (Nat → Lookahead Nat))} (hb : r.body ts i = firstOf i alts)
    (hz : ∀ a ∈ alts, A.value (a.2 i) = 0) : A.len r i = 0 := by
  refine Nat.eq_zero_of_not_pos fun hpos => ?_
  obtain ⟨m, hm, _⟩ := A.exists_of_len hpos
  obtain ⟨a, ha, _, _, hfound⟩ := A.alternative wm hn hb hm
  exact Nat.ne_of_gt hfound (hz a ha)

omit h in
theorem not_is_of_is {k l : Token.Kind} (his : ts.is i l = true) (hk : k ≠ l) :
    ts.is i k = false := Bool.eq_false_iff.2 fun hk' => hk (eq_of_is hk' his)

omit h in
theorem tokenLength_of_is {k : Token.Kind} {ks : List Token.Kind} (his : ts.is i k = true)
    (hk : k ∉ ks) : A.value (tokenLength ts ks i) = 0 := by
  rw [value_tokenLength, not_isAny_of_isAny (isAny_single his) (by simpa using hk)]
  rfl

omit h in
theorem throughCloser_of_is {k l : Token.Kind} (his : ts.is i l = true) (hk : k ≠ l) :
    A.value (throughCloser ts k j i) = 0 := by
  rw [throughCloser, closer?_eq_none (not_is_of_is his hk)]
  rfl

omit h in
theorem len_classSelector_of_dot (wm : ts.WellMarked) (hnext : ts.is (i + 1) .dot = true) :
    A.len .classSelector i = 0 := Nat.eq_zero_of_not_pos fun hpos => by
  obtain ⟨m, hm, _⟩ := A.exists_of_len hpos
  obtain ⟨_, n, hn, _⟩ := markedName_cases (A.value_of_tell wm rfl hm)
  have hlen := n.length_pos
  rcases name_cases hn with ⟨_, he⟩ | ⟨_, he, _⟩
  · exact Token.Kind.noConfusion (eq_of_is (interpolation_cases wm (he ▸ hlen)).1 hnext)
  · rw [he, len_ident_of_is wm hnext (by decide)] at hlen
    cases hlen

section
variable (wm : ts.WellMarked) (hdot : ts.is i .dot = true) (hnext : ts.is (i + 1) .dot = true)
include wm hdot hnext

omit h in
theorem len_number_of_dots : A.len .number i = 0 := Nat.eq_zero_of_not_pos fun hpos => by
  rcases number_cases wm hpos with ⟨hdigits, _⟩ | ⟨_, hdigits, _⟩
  · exact Token.Kind.noConfusion (eq_of_is hdigits hdot)
  · exact Token.Kind.noConfusion (eq_of_is hdigits hnext)

omit h in
theorem len_fragment_of_dots : A.len .fragment i = 0 := by
  have hno : ∀ {k : Token.Kind}, k ≠ .dot → ts.is i k = false := not_is_of_is hdot
  have hvar : A.len .var i = 0 := Nat.eq_zero_of_not_pos fun hpos =>
    Token.Kind.noConfusion (eq_of_is (var_cases wm hpos).1 hdot)
  have hname : A.len .ident i = 0 := len_ident_of_is wm hdot (by decide)
  have hnumber : A.len .number i = 0 := len_number_of_dots wm hdot hnext
  have hgroup : ts.closer? (i + 1) .leftParen = none :=
    closer?_eq_none (not_is_of_is hnext (by decide))
  refine len_eq_zero_of_alternatives (r := .fragment) wm rfl rfl ?_
  simp only [List.forall_mem_cons, List.not_mem_nil, false_imp_iff, implies_true, and_true]
  refine ⟨throughCloser_of_is hdot (by decide), throughCloser_of_is hdot (by decide),
    tokenLength_of_is hdot (by decide), ?_, hvar, ?_, ?_, hnumber, ?_, ?_, ?_, hname,
    len_classSelector_of_dot wm hnext, tokenLength_of_is hdot (by decide)⟩
  · simp [varListLength, hvar]
  · simp [percentageLength, hnumber]
  · simp [dimensionLength, hnumber]
  · simp [uriLength, hno]
  · simp [expressionLength, throughCloser, hgroup]
  · simp [functionLength, hname]

omit h in
/-- Two dots are nothing in a head. -/
theorem len_preludePart_of_dots : A.len .preludePart i = 0 := by
  have hno : ∀ {k : Token.Kind}, k ≠ .dot → ts.is i k = false := not_is_of_is hdot
  have hspacing : A.len .spacing i = 0 :=
    len_spacing_eq_zero wm (not_isAny_of_isAny (isAny_single hdot) (by decide))
  refine len_eq_zero_of_alternatives (r := .preludePart) wm rfl rfl ?_
  simp only [List.forall_mem_cons, List.not_mem_nil, false_imp_iff, implies_true, and_true]
  exact ⟨by simp [colorLength, hno], len_fragment_of_dots wm hdot hnext, hspacing,
    tokenLength_of_is hdot (by decide)⟩

end

omit h in
/-- A variable is an element of a value by itself, unless exactly three dots follow it. -/
theorem len_fragment_of_var (wm : ts.WellMarked) (hpos : 0 < A.len .var i)
    (hmany : ts.spanEnd [.dot] (i + A.len .var i) ≠ i + A.len .var i + 3) :
    A.len .fragment i = A.len .var i := by
  have hat := (var_cases wm hpos).1
  have hlist : A.value (varListLength ts i) = 0 := by
    simp [varListLength, hmany]
  rw [Reading.len, A.tell_eq_value (A.lt_of_len hpos)]
  change Answer.length (r := .fragment) (A.value (fragmentMatch ts i)) = _
  rw [fragmentMatch, A.value_firstOf_cons, A.value_firstOf_cons, A.value_firstOf_cons,
    A.value_firstOf_cons, A.value_firstOf_cons, bracketsLength, parenthesesLength, stringLength,
    throughCloser_of_is hat (by decide), throughCloser_of_is hat (by decide),
    tokenLength_of_is hat (by decide), hlist, A.value_lengthOf, Match.of?_pos hpos]
  rfl

omit h in
/-- A variable is an element of a head by itself, unless exactly three dots follow it. -/
theorem len_preludePart_of_var (wm : ts.WellMarked) (hpos : 0 < A.len .var i)
    (hmany : ts.spanEnd [.dot] (i + A.len .var i) ≠ i + A.len .var i + 3) :
    A.len .preludePart i = A.len .var i := by
  have hcolor : A.value (colorLength ts i) = 0 := by
    simp [colorLength, not_is_of_is (var_cases wm hpos).1]
  rw [Reading.len, A.tell_eq_value (A.lt_of_len hpos)]
  change Answer.length (r := .preludePart) (A.value (preludePartMatch ts i)) = _
  rw [preludePartMatch, A.value_firstOf_cons, A.value_firstOf_cons, hcolor, A.value_lengthOf,
    len_fragment_of_var wm hpos hmany, Match.of?_pos hpos]
  rfl

omit h in
/-- The head of an at-rule ends before dots that are too many, and so the dots of a list of variables
in it are not cut. -/
theorem dotsEnd_of_prelude {e : Nat} (wm : ts'.WellMarked) (he : B.value (preludeEnd ts' i) = e)
    (hstop : e + 3 = ts.size → ts'.is e .dot = false) : B.DotsEnd ts i := by
  intro hpos hsize
  refine Nat.le_of_not_lt fun hlong => ?_
  have hpart := len_preludePart_of_var wm hpos (by omega)
  have hdot : ∀ k, i + B.len .var i ≤ k → k < ts'.spanEnd [.dot] (i + B.len .var i) →
      ts'.is k .dot = true := fun k hk hk' => by
    obtain ⟨l, hl, his⟩ := isAny_iff.1 (isAny_of_lt_spanEnd hk hk')
    obtain rfl := List.mem_singleton.1 hl
    exact is_iff.2 his
  have hnone := len_preludePart_of_dots (A := B) wm (hdot _ (Nat.le_refl _) (by omega))
    (hdot _ (Nat.le_succ _) (by omega))
  rw [preludeEnd, value_walkWhile, B.value_lengthOf, hpart,
    if_pos ⟨B.lt_of_len hpos, hpos⟩, value_walkWhile, B.value_lengthOf, hnone,
    if_neg fun hall => Nat.lt_irrefl 0 hall.2] at he
  have := hdot e (by omega) (by omega)
  rw [hstop (by omega)] at this
  cases this

theorem preludeEnd_found {e : Nat} (he : B.value (preludeEnd ts' i) = e) (hle : e ≤ ts.size)
    (hstop : e + 3 = ts.size → ts'.is e .dot = false) : A.value (preludeEnd ts i) = e := by
  refine walk_kept (I := fun _ => True) h (fun _ _ => trivial) (fun j _ _ hreach hle => ?_) hle
    trivial he
  rw [B.value_map] at hle
  rw [A.value_map, B.value_map]
  exact congrArg Step.go
    ((preludePart_keeps h (dotsEnd_of_prelude h.right.wm hreach hstop)).len hle)

omit h in
/-- The head of an at-rule without keyframes ends before a block, or the at-rule ends there. -/
theorem atRuleHead_end (wm : ts'.WellMarked) (hpos : 0 < B.len .atRule i)
    (hz : B.value (keyframesRuleLength ts' i) = 0) :
    ∃ j, B.value (atRuleHead ts' i) = some j ∧ j ≤ i + B.len .atRule i ∧
      (j = i + B.len .atRule i ∨ ts'.is j .leftCurly = true) := by
  obtain ⟨m, hm, hlen⟩ := B.exists_of_len hpos
  rw [← hlen]
  rw [B.tell_eq_value (B.lt_of_len hpos)] at hm
  obtain ⟨a, ha, _, hl⟩ := exists_of_firstOf hm
  have hl' : m.length = B.value (a.2 i) := hl
  have hmpos := m.length_pos
  simp only [List.mem_cons, List.not_mem_nil, or_false] at ha
  rcases ha with rfl | rfl | rfl | rfl
  · exact absurd (hl'.trans hz) (Nat.ne_of_gt hmpos)
  · replace hl' : m.length = B.value (rulesRuleLength ts' i) := hl'
    rw [value_rulesRuleLength] at hl'
    cases hj : B.value (Grammar.atRuleHead ts' i) with
    | none =>
      rw [hj] at hl'
      exact absurd hl' (Nat.ne_of_gt hmpos)
    | some j =>
      rw [hj, Option.elim_some] at hl'
      cases hc : ts'.closer? j .leftCurly with
      | none =>
        rw [hc] at hl'
        exact absurd hl' (Nat.ne_of_gt hmpos)
      | some c =>
        have hlt := wm.closer_lt hc
        rw [hc, Option.elim_some] at hl'
        split at hl'
        · exact ⟨j, rfl, by omega, Or.inr (is_of_closer? hc)⟩
        · omega
  · obtain ⟨j, hj, hblock, hlen⟩ := blockRule_cases (hl' ▸ hmpos)
    obtain ⟨c, hc, _⟩ := throughCloser_cases wm hblock
    replace hl' : m.length = B.value (blockRuleLength ts' i) := hl'
    exact ⟨j, hj, by omega, Or.inr (is_of_closer? hc)⟩
  · obtain ⟨j, hj, hlen⟩ := bareRule_cases (hl' ▸ hmpos)
    replace hl' : m.length = B.value (bareRuleLength ts' i) := hl'
    exact ⟨j, hj, by omega, Or.inl (by omega)⟩

omit h in
/-- Where an at-rule ends, its head has ended before, and not before a dot. -/
theorem atRuleHead_stop (wm : ts'.WellMarked) (hpos : 0 < B.len .atRule i)
    (hend : i + B.len .atRule i = ts.size) (hz : B.value (keyframesRuleLength ts' i) = 0) :
    ∃ e, B.value (atRuleHead ts' i) = some e ∧ e ≤ ts.size ∧
      (e + 3 = ts.size → ts'.is e .dot = false) := by
  obtain ⟨e, he, hle, hstop⟩ := atRuleHead_end wm hpos hz
  refine ⟨e, he, hend ▸ hle, fun hdots => ?_⟩
  rcases hstop with rfl | hcurly
  · omega
  · exact Bool.eq_false_iff.2 fun hdot => Token.Kind.noConfusion (eq_of_is hcurly hdot)

theorem atRuleHead_found (hhead : B.value (atRuleHead ts' i) = some j) (hle : j ≤ ts.size)
    (hstop : j + 3 = ts.size → ts'.is j .dot = false) : A.value (atRuleHead ts i) = some j := by
  obtain ⟨hkeyword, hend⟩ := atRuleHead_cases hhead
  have hge := (B.trail_walkWhile ts'.size (lengthOf .preludePart)
    (i + B.value (atKeywordLength ts' i))).le
  have hkept := atKeyword_kept (A := A) (B := B) h i (Nat.le_trans (hend ▸ hge) hle)
  rw [value_atRuleHead, hkept, if_neg (Nat.ne_of_gt hkeyword), preludeEnd_found h hend.symm hle hstop]

/-- An at-rule that ends where the stream does is found again. -/
theorem atRule_found (hpos : 0 < B.len .atRule i) (hend : i + B.len .atRule i = ts.size) :
    A.tell .atRule i = B.tell .atRule i := by
  refine atRule_keeps h (fun hz => ?_) (fun j _ hj => hj.atRule h) (Nat.le_of_eq hend)
  obtain ⟨e, he, hle, hstop⟩ := atRuleHead_stop h.right.wm hpos hend hz
  rw [he, atRuleHead_found h he hle hstop]

/-! ## Guards and mixins -/

/-- A guard that ends where the stream does, or before a block, is found again. -/
theorem condition_found (hpos : 0 < B.len .condition i) (hle : i + B.len .condition i ≤ ts.size)
    (hstop : i + B.len .condition i = ts.size ∨
      0 < A.value (blockLength ts (i + B.len .condition i))) :
    A.tell .condition i = B.tell .condition i := by
  refine Reading.keeps_of_sole (r := .condition) (u := ()) h rfl rfl (fun hi _ => ?_) hle
  have hlen := B.len_of_sole (r := .condition) (u := ()) h.right.wm rfl (h.lt_size hi) rfl
  obtain ⟨hone, hend⟩ := condition_cases h.right.wm hpos
  have hge := (B.trail_walkWhile ts'.size (conditionRound ts') (i + 1)).le
  have hword := value_conditionLength B hend
  have hwalk := conditionEnd_eq (A := A) h (hend ▸ hle)
  have hname := (ident_keeps (A := A) (B := B) h i).len (by omega)
  rw [← hlen] at hword
  split at hword
  · next hall =>
    rw [← hlen, value_conditionLength A (hend.trans hwalk.symm), hname, ← h.is_eq hi, ← h.text_eq hi,
      if_pos ⟨hall.1, hall.2.1, hone, hstop.imp_left fun he => Nat.le_of_eq he.symm⟩]
    omega
  · omega

omit h in
theorem value_mixinHeadLength (A : Reading ts false) {a b : Nat}
    (ha : a = i + A.value (classOrIdLength i)) (hb : b = a + A.len .spacing a) :
    A.value (mixinHeadLength i) =
      if A.value (classOrIdLength i) = 0 then 0 else b + A.len .arguments b - i := by
  subst hb ha
  unfold mixinHeadLength
  rw [A.value_bind]
  split
  · next hz => rw [if_pos hz, A.value_pure]
  · next hn =>
    rw [if_neg hn, A.value_bind, A.value_lengthOf, A.value_bind, A.value_lengthOf,
      A.value_tokensBetween]

theorem mixinHead_kept (i : Nat) :
    ts.Kept i (A.value (mixinHeadLength i)) (B.value (mixinHeadLength i)) := by
  intro hle
  obtain ⟨a, ha⟩ : ∃ a, a = i + B.value (classOrIdLength i) := ⟨_, rfl⟩
  obtain ⟨b, hb⟩ : ∃ b, b = a + B.len .spacing a := ⟨_, rfl⟩
  rw [value_mixinHeadLength B ha hb] at hle ⊢
  split at hle
  · next hz =>
    rw [value_mixinHeadLength A rfl rfl, classOrId_kept (A := A) (B := B) h i (by omega), if_pos hz,
      if_pos hz]
  · have hname := classOrId_kept (A := A) (B := B) h i (by omega)
    have hspacing := (spacing_keeps (A := A) (B := B) h a).len (by omega)
    rw [value_mixinHeadLength A (ha.trans (by rw [hname])) (hb.trans (by rw [hspacing])), hname,
      (arguments_keeps (A := A) (B := B) h b).len (by omega)]

omit h in
theorem value_mixinMatch (A : Reading ts false) {p a b : Nat}
    (hp : p = i + A.value (mixinHeadLength i)) (ha : a = p + A.len .spacing p)
    (hb : b = a + A.len .condition a) : A.value (mixinMatch ts i) =
      if A.value (mixinHeadLength i) = 0 then none
      else if A.value (blockLength ts b) = 0 then Match.of? (A.value (mixinHeadLength i)) .bare
      else Match.of? (b + A.value (blockLength ts b) - i) .withBlock := by
  subst hb ha hp
  unfold mixinMatch
  rw [A.value_bind]
  split
  · next hz => rw [if_pos hz, A.value_pure]
  · next hn =>
    rw [if_neg hn, A.value_bind, A.value_lengthOf, A.value_bind, A.value_lengthOf, A.value_bind]
    split
    · next hz => rw [if_pos hz, A.value_pure]
    · next hn => rw [if_neg hn, A.value_bind, A.value_tokensBetween, A.value_pure]

/-- The guard of a mixin, if there is one, is found again before its block. -/
theorem guard_found (hblock : 0 < B.value (blockLength ts' (i + B.len .condition i)))
    (hle : i + B.len .condition i + B.value (blockLength ts' (i + B.len .condition i)) ≤ ts.size) :
    A.tell .condition i = B.tell .condition i := by
  have hkept := block_kept (A := A) (B := B) h _ hle
  rcases Nat.eq_zero_or_pos (B.len .condition i) with hz | hpos
  · have hname : A.len .condition i = 0 := Nat.eq_zero_of_not_pos fun hpos => by
      rw [hz, Nat.add_zero] at hblock
      obtain ⟨c, hc, _⟩ := throughCloser_cases h.right.wm hblock
      have hident := ident_head h.left.wm (A := A) (i := i) (by
        rw [(condition_cases h.left.wm hpos).1]
        exact Nat.one_pos)
      exact clash (isAny_single ((h.is_eq (A.lt_of_len hpos) _).symm.trans (is_of_closer? hc))) hident
        (by decide)
    rw [A.tell_eq_none hname, B.tell_eq_none hz]
  · exact condition_found h hpos (by omega) (Or.inr (hkept ▸ hblock))

/-- A mixin that ends where the stream does is found again. -/
theorem mixin_found (hpos : 0 < B.len .mixin i) (hend : i + B.len .mixin i = ts.size) :
    A.tell .mixin i = B.tell .mixin i := by
  have hi' := B.lt_of_len hpos
  have hlen : B.len .mixin i = Answer.length (r := .mixin) (B.value (mixinMatch ts' i)) :=
    congrArg Answer.length (B.tell_eq_value hi')
  rw [A.tell_eq_value (by omega), B.tell_eq_value hi']
  change A.value (mixinMatch ts i) = B.value (mixinMatch ts' i)
  obtain ⟨p, hp⟩ : ∃ p, p = i + B.value (mixinHeadLength i) := ⟨_, rfl⟩
  obtain ⟨a, ha⟩ : ∃ a, a = p + B.len .spacing p := ⟨_, rfl⟩
  obtain ⟨b, hb⟩ : ∃ b, b = a + B.len .condition a := ⟨_, rfl⟩
  rw [value_mixinMatch B hp ha hb] at hlen ⊢
  split at hlen
  · exact absurd hlen (Nat.ne_of_gt hpos)
  next hhead =>
  rw [if_neg hhead]
  split at hlen
  · next hz =>
    rw [Reading.length_of?] at hlen
    have hkept := mixinHead_kept (A := A) (B := B) h i (by omega)
    have hpast : ∀ r, ts.size = ts.size + A.len r ts.size := fun r => by
      rw [A.len_past_end (Nat.le_refl _), Nat.add_zero]
    rw [value_mixinMatch A (p := ts.size) (by omega) (hpast _) (hpast _), hkept, if_neg hhead,
      if_pos (block_past_end (A := A) (Nat.le_refl _)), if_pos hz]
  · next hblock =>
    rw [Reading.length_of?] at hlen
    have hblock := Nat.pos_of_ne_zero hblock
    have hkept := mixinHead_kept (A := A) (B := B) h i (by omega)
    have hspacing := (spacing_keeps (A := A) (B := B) h p).len (by omega)
    have hguard := Reading.len_congr (guard_found (A := A) h (i := a) (hb ▸ hblock)
      (by rw [← hb]; omega))
    rw [value_mixinMatch A (hp.trans (by rw [hkept])) (ha.trans (by rw [hspacing]))
      (hb.trans (by rw [hguard])), hkept, if_neg hhead, block_kept (A := A) (B := B) h b (by omega)]

/-! ## Start symbols -/

theorem extend_found (hpos : 0 < B.len .extend i) : A.Keeps B .extend i := by
  intro hle
  refine extend_keeps h ?_ hle
  obtain ⟨m, hm, hlen⟩ := B.exists_of_len hpos
  obtain ⟨target, p, htarget, rfl, _, a, b, rfl, rfl, hcases⟩ :=
    extend_cases (B.value_of_tell h.right.wm rfl hm)
  have : B.len .extendTarget i = target.length := by rw [Reading.len, htarget]; rfl
  rcases hcases with ⟨_, hend⟩ | ⟨_, _, hend⟩ <;> omega

/-- What a start symbol covers in the longer stream up to the cut, it covers in the shorter one. -/
theorem Symbol.length_found (start : Symbol) (hs : start ≠ .stylesheet)
    (hpos : 0 < B.value (start.length ts' i)) (hend : i + B.value (start.length ts' i) = ts.size) :
    A.value (start.length ts i) = B.value (start.length ts' i) := by
  have hle := Nat.le_of_eq hend
  cases start with
  | stylesheet => exact absurd rfl hs
  | arguments => exact (arguments_keeps h i).len hle
  | atKeyword => exact atKeyword_kept h i hle
  | atRule => exact Reading.len_congr (atRule_found h hpos hend)
  | attributeSelector => exact (attributeSelector_keeps h i).len hle
  | block => exact block_kept h i hle
  | brackets => exact brackets_kept h i hle
  | classSelector => exact (classSelector_keeps h i).len hle
  | color => exact color_kept h i hle
  | combinator => exact (combinator_keeps h i).len hle
  | compoundSelector => exact (compound_found h hpos).len hle
  | condition => exact Reading.len_congr (condition_found h hpos hle (Or.inl hend))
  | declaration => exact (declaration_keeps h i).len hle
  | declarationDelimiter => exact token_kept h _ i hle
  | delimiter => exact token_kept h _ i hle
  | dimension => exact dimension_kept h i hle
  | escapedString => exact escapedString_kept h i hle
  | expression => exact expression_kept h i hle
  | extend => exact (extend_found h hpos).len hle
  | function => exact function_kept h i hle
  | idSelector => exact (idSelector_keeps h i).len hle
  | ident => exact (ident_keeps h i).len hle
  | important => exact (important_keeps h i).len hle
  | mixinCall => exact (mixinCall_keeps h i).len hle
  | interpolation => exact (interpolation_keeps h i).len hle
  | mixin => exact Reading.len_congr (mixin_found h hpos hend)
  | blockComment => exact token_kept h _ i hle
  | namespaceBar => exact token_kept h _ i hle
  | number => exact (number_keeps h i).len hle
  | operator => exact token_kept h _ i hle
  | parentheses => exact parentheses_kept h i hle
  | parentSelector => exact token_kept h _ i hle
  | percentage => exact percentage_kept h i hle
  | progid => exact (progid_keeps h i).len hle
  | property => exact property_kept h i hle
  | propertyDelimiter => exact token_kept h _ i hle
  | pseudoClass => exact (pseudoClass_keeps h i).len hle
  | pseudoElement => exact pseudoElement_kept h i hle
  | ruleset => exact (ruleset_found h hpos).len hle
  | selector =>
    refine (selector_found h hpos fun e he => clear_past_end ?_).len hle
    replace hend : i + B.len .selector i = ts.size := hend
    omega
  | lineComment => exact token_kept h _ i hle
  | space => exact space_kept h i hle
  | string => exact token_kept h _ i hle
  | typeSelector => exact typeSelector_found h hpos hle
  | unary => exact token_kept h _ i hle
  | uri => exact uri_kept h i hle
  | value => exact (value_keeps h i).len hle
  | var => exact (var_keeps h i).len hle
  | varList =>
    refine varList_kept h (fun _ _ => ?_) hle
    have := (varList_cases hpos).2.1
    omega

end

end LessCss
