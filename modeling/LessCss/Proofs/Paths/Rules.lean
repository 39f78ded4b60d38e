import LessCss.Proofs.Paths

/-! What rules cover is a path. One lemma for each rule, put together from those of the rules it
asks; the body of an at-rule, which starts at an opener and stops before its closer, is the only
exception. So from a token from which a path leads to a closer, no rule covers anything behind that
closer. -/

namespace LessCss

open Lookahead Grammar Tokens

variable {ts : Tokens} {A : Reading ts false} (hr : ts.Regular) {i j c : Nat}

/-! ## Groups -/

theorem throughCloser_path {k : Token.Kind} (wm : ts.WellMarked) (hk : k.opens?.isSome = true)
    (h : ts.Path i j) : ts.Path i (i + A.value (throughCloser ts k i j)) := by
  refine path_add fun hpos => ?_
  obtain ⟨c, hc, hlen, hlt, _⟩ := throughCloser_cases wm hpos
  have hle := h.le
  exact h.trans ((path_closer wm hc hk).cast (by omega))

include hr

theorem parentheses_path (i : Nat) : ts.Path i (i + A.value (parenthesesLength ts i)) :=
  throughCloser_path hr.wm rfl (.refl i)

theorem brackets_path (i : Nat) : ts.Path i (i + A.value (bracketsLength ts i)) :=
  throughCloser_path hr.wm rfl (.refl i)

theorem block_path (i : Nat) : ts.Path i (i + A.value (blockLength ts i)) :=
  throughCloser_path hr.wm rfl (.refl i)

theorem uri_path (i : Nat) : ts.Path i (i + A.value (uriLength ts i)) := by
  unfold uriLength
  split
  · next h =>
    exact throughCloser_path hr.wm rfl (path_token (Bool.and_eq_true_iff.1 h).1 rfl)
  · exact .refl i

theorem expression_path (i : Nat) : ts.Path i (i + A.value (expressionLength ts i)) := by
  unfold expressionLength
  split
  · next h =>
    exact throughCloser_path hr.wm rfl (text_path hr (by simpa using h) (by decide) (by decide))
  · exact .refl i

theorem function_path (i : Nat) : ts.Path i (i + A.value (functionLength ts i)) := by
  refine path_add fun h => ?_
  obtain ⟨_, c, hc, hlen⟩ := function_cases hr.wm h
  rw [hlen]
  exact (ident_path hr i).trans (path_closer hr.wm hc rfl)

theorem arguments_path (i : Nat) : ts.Path i (i + A.len .arguments i) := by
  refine path_add fun h => ?_
  obtain ⟨c, hc, hlen⟩ := arguments_cases hr.wm h
  rw [hlen]
  exact path_closer hr.wm hc rfl

omit hr in
/-- The text of a bracket holds a character that the mark of a filter call does not. -/
theorem exists_of_isMarkup {s : String} (h : isMarkup s = true) :
    ∃ c ∈ s.toList, c ∉ progidMark.toList := by
  rw [isMarkup, Bool.or_eq_true] at h
  rcases h with h | h
  · have hmem : s ∈ ["(", ")", "[", "]", "\x7b", "\x7d"] := List.contains_iff_mem.1 h
    simp only [List.mem_cons, List.not_mem_nil, or_false] at hmem
    rcases hmem with rfl | rfl | rfl | rfl | rfl | rfl
    · exact ⟨'(', by decide, by decide⟩
    · exact ⟨')', by decide, by decide⟩
    · exact ⟨'[', by decide, by decide⟩
    · exact ⟨']', by decide, by decide⟩
    · exact ⟨'\x7b', by decide, by decide⟩
    · exact ⟨'\x7d', by decide, by decide⟩
  · obtain ⟨t, ht⟩ := List.isPrefixOf_iff_prefix.1 h
    exact ⟨'/', by rw [← ht]; exact List.mem_cons_self, by decide⟩

/-- The mark of a filter call holds no brackets. -/
theorem progidMark_path (h : ts.join i j = progidMark) (hij : i ≤ j) (hj : j ≤ ts.size) :
    ts.Path i j := by
  refine Balanced.path ?_ hr hij hj
  have hstep : ∀ m, i ≤ m → m < j → ts.Balanced m (m + 1) := by
    intro m him hmj
    have his : ts.is m ts[m].kind = true :=
      is_iff.2 (by rw [kind?, Array.getElem?_eq_getElem (by omega)]; rfl)
    refine balanced_token his (eq_true_of_ne_false fun hk => ?_)
    obtain ⟨c, hc, hno⟩ := exists_of_isMarkup (hr.spelled.markup m _ his hk)
    refine hno ?_
    rw [← h, ← join_append him (Nat.le_of_lt hmj), ← join_append (Nat.le_succ m) hmj, join_succ,
      String.toList_append, String.toList_append]
    exact List.mem_append_right _ (List.mem_append_left _ hc)
  clear h hj
  obtain ⟨n, rfl⟩ := Nat.exists_eq_add_of_le hij
  induction n with
  | zero => exact balanced_self ts i
  | succ n ih =>
    exact (ih (Nat.le_add_right i n) fun m him hm => hstep m him (by omega)).trans
      (Nat.le_add_right i n) (Nat.le_succ _) (hstep _ (Nat.le_add_right i n) (Nat.lt_succ_self _))

theorem progid_path (i : Nat) : ts.Path i (i + A.len .progid i) := by
  refine path_add fun h => ?_
  rw [Reading.len_eq_of_sole (r := .progid) (u := ()) (progidLength_measures (s := .top) hr.wm
    (Nat.zero_le i)) rfl]
  unfold progidLength
  split
  · exact .refl i
  · next hm =>
    simp only [Bool.or_eq_true, decide_eq_true_eq, bne_iff_ne, not_or, not_lt, ne_eq,
      Decidable.not_not] at hm
    rw [A.value_bind, A.value_bind]
    refine throughCloser_path hr.wm rfl ?_
    exact ((progidMark_path hr hm.2 (by omega) hm.1).trans (ident_path (A := A) hr (i + 6))).trans
      (spacing_path hr _)

/-! ## Values and declarations -/

theorem fragment_path (i : Nat) : ts.Path i (i + A.len .fragment i) := by
  refine path_of_alternatives (r := .fragment) hr.wm rfl rfl ?_
  simp only [List.forall_mem_cons, List.not_mem_nil, false_imp_iff, implies_true, and_true]
  exact ⟨brackets_path hr i, parentheses_path hr i, tokenLength_path (by decide) i,
    varList_path hr i, var_path hr i, percentage_path hr i, dimension_path hr i, number_path hr i,
    uri_path hr i, expression_path hr i, function_path hr i, ident_path hr i,
    classSelector_path hr i, tokenLength_path (by decide) i⟩

theorem preludePart_path (i : Nat) : ts.Path i (i + A.len .preludePart i) := by
  refine path_of_alternatives (r := .preludePart) hr.wm rfl rfl ?_
  simp only [List.forall_mem_cons, List.not_mem_nil, false_imp_iff, implies_true, and_true]
  exact ⟨color_path i, fragment_path hr i, spacing_path hr i, tokenLength_path (by decide) i⟩

theorem prelude_path (i : Nat) : ts.Path i (A.value (preludeEnd ts i)) :=
  path_walkWhile (preludePart_path hr) i

theorem valuePart_path (i : Nat) : ts.Path i (i + A.len .valuePart i) := by
  refine path_of_alternatives (r := .valuePart) hr.wm rfl rfl ?_
  simp only [List.forall_mem_cons, List.not_mem_nil, false_imp_iff, implies_true, and_true]
  exact ⟨escapedString_path i, interpolation_path hr i, var_path hr i, color_path i,
    block_path hr i, progid_path hr i, fragment_path hr i, atKeyword_path hr i,
    tokenLength_path (by decide) i, important_path hr i⟩

theorem value_path (i : Nat) : ts.Path i (i + A.len .value i) := by
  refine path_add fun h => ?_
  rw [len_value hr.wm h]
  refine (A.trail_walk ts.size valueRound i).flatten fun j l hl => ?_
  obtain ⟨_, hpos, rfl⟩ := hl
  rw [value_valueRound] at hpos ⊢
  split at hpos
  · next m hm =>
    have hlen : A.len .valuePart (j + A.len .spacing j) = m.length := by
      rw [Reading.len, hm]
      rfl
    have hpart := valuePart_path (A := A) hr (j + A.len .spacing j)
    rw [hlen] at hpart
    exact (spacing_path hr j).trans (hpart.cast (Nat.add_assoc _ _ _))
  · cases hpos

theorem property_path (i : Nat) : ts.Path i (i + A.value (propertyLength i)) := by
  rw [propertyLength, A.value_orElse]
  split
  · exact ident_path hr i
  · exact var_path hr i

theorem declaration_path (i : Nat) : ts.Path i (i + A.len .declaration i) := by
  refine path_add fun h => ?_
  obtain ⟨p, a, b, _, rfl, rfl, hcolon, rfl, _, hend⟩ := declaration_cases hr.wm h
  rw [hend]
  exact (property_path hr i).trans <| (spacing_path hr _).trans <|
    (path_token hcolon rfl).trans <| (spacing_path hr _).trans (value_path hr _)

theorem argument_path (i : Nat) : ts.Path i (i + A.len .argument i) := by
  refine path_of_alternatives (r := .argument) hr.wm rfl rfl ?_
  simp only [List.forall_mem_cons, List.not_mem_nil, false_imp_iff, implies_true, and_true]
  exact ⟨escapedString_path i, declaration_path hr i, varList_path hr i, var_path hr i,
    spacing_path hr i, tokenLength_path (by decide) i, tokenLength_path (by decide) i,
    tokenLength_path (by decide) i, tokenLength_path (by decide) i, tokenLength_path (by decide) i,
    percentage_path hr i, dimension_path hr i, number_path hr i, uri_path hr i, function_path hr i,
    ident_path hr i, color_path i, block_path hr i, parentheses_path hr i⟩

/-! ## Selectors -/

theorem namespacePart_balanced (h : 0 < A.len .namespacePart i) :
    ts.Balanced i (i + A.len .namespacePart i) := by
  obtain ⟨m, ht, hlen⟩ := A.exists_of_len h
  rw [← hlen]
  rcases namespace_cases (A.value_of_tell hr.wm rfl ht) with ⟨_, hpos, hbar, hend⟩ | ⟨_, hbar, hend⟩
  · rw [nameOrStar_eq] at hpos hbar hend
    rw [hend]
    have hcomment : ts.Balanced (i + A.len .ident i)
        (i + A.len .ident i + (ts.is (i + A.len .ident i) .blockComment).toNat) := by
      cases hc : ts.is (i + A.len .ident i) .blockComment with
      | false => exact balanced_self ts _
      | true => exact balanced_token hc rfl
    exact ((ident_balanced hr.wm hpos).trans (by omega) (by omega) hcomment).trans (by omega)
      (by omega) (balanced_token hbar rfl)
  · rw [hend]
    exact balanced_token hbar rfl

theorem namespacePart_path (i : Nat) : ts.Path i (i + A.len .namespacePart i) :=
  path_add fun h => (namespacePart_balanced hr h).path hr (Nat.le_add_right i _) (A.len_le h)

theorem typeSelector_path (i : Nat) : ts.Path i (i + A.value (typeSelectorLength ts i)) := by
  refine path_add fun h => (namespacePart_path (A := A) hr i).trans ?_
  rcases typeSelector_cases h with ⟨hstar, hlen⟩ | ⟨_, _, hlen⟩
  · exact (path_token hstar rfl).cast (by omega)
  · exact (ident_path (A := A) hr _).cast (by omega)

theorem parentSuffix_path (i : Nat) : ts.Path i (i + A.value (parentSuffixLength ts i)) := by
  refine path_add fun h => ?_
  rw [parentSuffix_end h]
  refine path_walkWhile (fun j => ?_) i
  rw [A.value_orElse]
  split
  · exact ident_path hr j
  · exact number_path hr j

theorem parent_path (i : Nat) : ts.Path i (i + A.value (parentLength ts i)) := by
  refine path_add fun h => ?_
  have hmark := parent_head h
  rw [value_parentLength hmark, ← Nat.add_assoc]
  exact (path_token hmark rfl).trans (parentSuffix_path hr _)

theorem attributeName_balanced (h : 0 < A.value (attributeNameLength i)) :
    ts.Balanced i (i + A.value (attributeNameLength i)) := by
  rw [value_attributeNameLength] at h ⊢
  split
  · next hn =>
    rw [← Nat.add_assoc]
    exact (namespacePart_balanced hr hn.1).trans (by omega) (by omega) (ident_balanced hr.wm hn.2)
  · next hn =>
    rw [if_neg hn] at h
    exact ident_balanced hr.wm h

theorem attributeValue_balanced (h : 0 < A.value (attributeValueLength ts i)) :
    ts.Balanced i (i + A.value (attributeValueLength ts i)) := by
  rw [attributeValueLength, A.value_orElse] at h ⊢
  split
  · next hz =>
    rw [if_pos hz] at h
    exact ident_balanced hr.wm h
  · next hz =>
    have hstring : A.value (stringLength ts i) = (ts.isAny i [.doubleQuoted, .singleQuoted]).toNat :=
      rfl
    rw [hstring] at hz ⊢
    have hany := toNat_pos.1 (Nat.pos_of_ne_zero hz)
    rw [hany]
    exact balanced_isAny hany (by decide)

theorem flags_balanced (i : Nat) :
    ts.Balanced i (i + A.len .ident i + A.value (flagSpacing i (A.len .ident i))) := by
  unfold flagSpacing
  split
  · next hz =>
    rw [hz]
    exact balanced_self ts i
  · next hz =>
    exact (ident_balanced hr.wm (Nat.pos_of_ne_zero hz)).trans (by omega) (by omega)
      (spacing_balanced hr.wm A _)

theorem comparison_balanced (h : Comparison A i j) : i ≤ j ∧ ts.Balanced i j := by
  obtain ⟨_, e, rfl, hvalue, f, g, rfl, rfl, rfl⟩ := h
  refine ⟨by omega, ?_⟩
  refine (comparator_balanced ts i).trans (by omega) (by omega) ?_
  refine (spacing_balanced hr.wm A _).trans (by omega) (by omega) ?_
  refine (attributeValue_balanced hr hvalue).trans (by omega) (by omega) ?_
  exact (spacing_balanced hr.wm A _).trans (by omega) (by omega) (flags_balanced hr _)

/-- What stands in the square brackets of an attribute selector is balanced. -/
theorem attributeSelector_interior (h : 0 < A.len .attributeSelector i) :
    ts.is i .leftSquare = true ∧ ∃ c, i < c ∧ ts.is c .rightSquare = true ∧
      i + A.len .attributeSelector i = c + 1 ∧ ts.Balanced (i + 1) c := by
  obtain ⟨m, ht, hlen⟩ := A.exists_of_len h
  obtain ⟨hopen, a, b, rfl, hname, rfl, hcases⟩ :=
    attributeSelector_cases (A.value_of_tell hr.wm rfl ht)
  refine ⟨hopen, ?_⟩
  have hlead := (spacing_balanced hr.wm A (i + 1)).trans (by omega) (Nat.le_add_right _ _)
    (attributeName_balanced hr hname)
  have hlead' := hlead.trans (by omega) (Nat.le_add_right _ _) (spacing_balanced hr.wm A _)
  rcases hcases with ⟨_, hclose, hend⟩ | ⟨_, j, hcomp, hclose, hend⟩
  · exact ⟨_, by omega, hclose, by omega, hlead'⟩
  · obtain ⟨hle, hbal⟩ := comparison_balanced hr hcomp
    exact ⟨j, by omega, hclose, by omega, hlead'.trans (by omega) hle hbal⟩

theorem attributeSelector_path (i : Nat) : ts.Path i (i + A.len .attributeSelector i) := by
  refine path_add fun h => ?_
  obtain ⟨hopen, c, hlt, hclose, hend, hbal⟩ := attributeSelector_interior hr h
  rw [hend]
  exact (hbal.enclose (b := .square) hlt hopen rfl hclose rfl).path hr (by omega)
    (hend ▸ A.len_le h)

theorem pseudoElement_path (i : Nat) : ts.Path i (i + A.value (pseudoElementLength ts i)) := by
  refine path_add fun h => ?_
  obtain ⟨hcolon, hcolon', m, hm, hlen⟩ := pseudoElement_cases h
  exact (path_token hcolon rfl).trans <| (path_token hcolon' rfl).trans <|
    (name_path hr hm).cast (by omega)

theorem pseudoClass_path (i : Nat) : ts.Path i (i + A.len .pseudoClass i) := by
  refine path_add fun h => ?_
  obtain ⟨m, ht, hlen⟩ := A.exists_of_len h
  obtain ⟨hcolon, ⟨_, n, hn, hl⟩ | ⟨o, c, _, rfl, hc, hend, _⟩⟩ := pseudoClass_cases hr.wm ht
  · exact (path_token hcolon rfl).trans ((name_path hr hn).cast (by omega))
  · exact (path_token hcolon rfl).trans <| (ident_path (A := A) hr _).trans <|
      (path_closer hr.wm hc rfl).cast (by omega)

theorem pseudo_path (i : Nat) : ts.Path i (i + A.value (pseudoLength ts i)) := by
  rw [pseudoLength, A.value_orElse]
  split
  · exact pseudoClass_path hr i
  · exact pseudoElement_path hr i

theorem compoundPart_path (i : Nat) : ts.Path i (i + A.value (compoundPartLength ts i)) := by
  rw [value_compoundPartLength]
  split
  · split
    · split
      · exact pseudo_path hr i
      · exact attributeSelector_path hr i
    · exact classSelector_path hr i
  · exact idSelector_path hr i

theorem compound_path (i : Nat) : ts.Path i (i + A.len .compound i) := by
  refine path_add fun h => ?_
  obtain ⟨m, ht, hlen⟩ := A.exists_of_len h
  obtain ⟨lead, rfl, _, hend⟩ := compound_cases (A.value_of_tell hr.wm rfl ht)
  rw [← hlen, hend]
  refine Trail.trans ?_ (path_walkWhile (compoundPart_path hr) _)
  rw [A.value_orElse]
  split
  · exact parent_path hr i
  · exact typeSelector_path hr i

theorem selector_path (i : Nat) : ts.Path i (i + A.len .selector i) := by
  refine path_add fun h => (selector_trail hr.wm h).flatten fun j l hl => ?_
  cases hl with
  | spacing => exact spacing_path hr j
  | combinator => exact combinator_path hr j
  | compound => exact compound_path hr j

/-- What a list covers is a path, if its elements are. -/
theorem commaList_path {r : Rule} (hel : ∀ j, ts.Path j (j + A.len r j)) (i : Nat) :
    ts.Path i (i + A.value (commaListLength ts r i)) := by
  refine path_add fun h => ?_
  obtain ⟨_, hend⟩ := commaList_cases h
  rw [hend]
  refine (hel i).trans (path_walkWhile (fun j => path_add fun hj => ?_) _)
  obtain ⟨c, e, rfl, hcomma, rfl, _, hnext⟩ := afterComma_cases hj
  rw [hnext]
  exact (spacing_path hr j).trans <| (path_token hcomma rfl).trans <|
    (spacing_path hr _).trans (hel _)

theorem selectorGroup_path (i : Nat) : ts.Path i (i + A.len .selectorGroup i) := by
  refine path_add fun h => ?_
  rw [A.len_of_sole (r := .selectorGroup) (u := ()) hr.wm rfl (A.lt_of_len h) rfl]
  exact commaList_path hr (selector_path hr) i

/-! ## Rulesets and at-rules -/

theorem ruleset_path (i : Nat) : ts.Path i (i + A.len .ruleset i) := by
  refine path_add fun h => ?_
  obtain ⟨_, a, b, rfl, rfl, _, hend⟩ := ruleset_cases hr.wm h
  rw [hend]
  exact (selectorGroup_path hr i).trans ((spacing_path hr _).trans (block_path hr _))

theorem keyframeSelector_path (i : Nat) : ts.Path i (i + A.len .keyframeSelector i) := by
  refine path_add fun h => ?_
  obtain ⟨m, ht, hlen⟩ := A.exists_of_len h
  rw [← hlen]
  rcases keyframeSelector_cases (A.value_of_tell hr.wm rfl ht) with ⟨_, hl⟩ | ⟨_, hl⟩
  · exact hl ▸ percentage_path hr i
  · exact hl ▸ ident_path hr i

theorem keyframe_path (i : Nat) : ts.Path i (i + A.value (keyframeLength ts i)) := by
  refine path_add fun h => ?_
  obtain ⟨_, a, b, rfl, rfl, _, hend⟩ := keyframe_cases h
  rw [hend]
  exact (commaList_path hr (keyframeSelector_path hr) i).trans <|
    (spacing_path hr _).trans (block_path hr _)

theorem keyframesPiece_path (h : KeyframesPiece A i j) : ts.Path i j := by
  cases h with
  | spacing => exact spacing_path hr i
  | keyframe => exact keyframe_path hr i

theorem keyframes_path (i : Nat) : ts.Path i (i + A.value (keyframesLength ts i)) := by
  refine path_add fun h => ?_
  obtain ⟨c, hc, hend, _⟩ := keyframes_cases hr.wm h
  rw [hend]
  exact path_closer hr.wm hc rfl

theorem keyframesRule_path (i : Nat) : ts.Path i (i + A.value (keyframesRuleLength ts i)) := by
  refine path_add fun h => ?_
  obtain ⟨a, b, c, d, _, rfl, rfl, _, rfl, rfl, _, hend⟩ := keyframesRule_cases h
  rw [hend]
  exact (atKeyword_path hr i).trans <| (spacing_path hr _).trans <| (ident_path hr _).trans <|
    (spacing_path hr _).trans (keyframes_path hr _)

theorem atRuleHead_path (h : A.value (atRuleHead ts i) = some j) : ts.Path i j := by
  obtain ⟨_, rfl⟩ := atRuleHead_cases h
  exact (atKeyword_path hr i).trans (prelude_path hr _)

theorem atRule_path (i : Nat) : ts.Path i (i + A.len .atRule i) := by
  refine path_add fun h => ?_
  obtain ⟨m, ht, hlen⟩ := A.exists_of_len h
  have hpos := m.length_pos
  rw [← hlen]
  obtain ⟨inner, hinner, hcases⟩ := atRule_cases hr.wm ht
  rcases hcases with ⟨_, hl⟩ | ⟨_, hl⟩ | ⟨_, hl⟩ | ⟨_, hl⟩
  · exact hl ▸ keyframesRule_path hr i
  · obtain ⟨j, c, hhead, hc, _, hlen⟩ := rulesRule_cases hr.wm hinner (hl ▸ hpos)
    have hpath := (atRuleHead_path hr hhead).trans (path_closer hr.wm hc rfl)
    have hle := hpath.le
    exact hpath.cast (by omega)
  · obtain ⟨j, hhead, _, hlen⟩ := blockRule_cases (hl ▸ hpos)
    have hpath := (atRuleHead_path hr hhead).trans (block_path (A := A) hr j)
    have hle := hpath.le
    exact hpath.cast (by omega)
  · obtain ⟨j, hhead, hlen⟩ := bareRule_cases (hl ▸ hpos)
    have hpath := atRuleHead_path hr hhead
    have hle := hpath.le
    exact hpath.cast (by omega)

theorem nestedRule_path (i : Nat) : ts.Path i (i + A.len .nestedRule i) := by
  refine path_of_alternatives (r := .nestedRule) hr.wm rfl rfl ?_
  simp only [List.forall_mem_cons, List.not_mem_nil, false_imp_iff, implies_true, and_true]
  exact ⟨spacing_path hr i, atRule_path hr i, ruleset_path hr i⟩

/-! ## Statements -/

theorem conditionPart_path (i : Nat) : ts.Path i (i + A.len .conditionPart i) := by
  refine path_of_alternatives (r := .conditionPart) hr.wm rfl rfl ?_
  simp only [List.forall_mem_cons, List.not_mem_nil, false_imp_iff, implies_true, and_true]
  exact ⟨function_path hr i, brackets_path hr i, parentheses_path hr i, var_path hr i,
    ident_path hr i, number_path hr i, tokenLength_path (by decide) i,
    tokenLength_path (by decide) i, combinator_path hr i, spacing_path hr i,
    tokenLength_path (by decide) i⟩

theorem conditionRound_path (i : Nat) : ts.Path i (i + A.value (conditionRound ts i)) := by
  refine path_add fun h => ?_
  rw [(conditionRound_cases h).2]
  exact conditionPart_path hr i

theorem condition_path (i : Nat) : ts.Path i (i + A.len .condition i) := by
  refine path_add fun h => ?_
  obtain ⟨hone, hend⟩ := condition_cases hr.wm h
  have hname := ident_path (A := A) hr i
  rw [hone] at hname
  rw [hend]
  exact hname.trans (path_walkWhile (conditionRound_path hr) _)

theorem callHead_path (i : Nat) : ts.Path i (i + A.value (callHeadLength ts i)) := by
  refine path_add fun h => ?_
  rw [(callHead_cases h).2]
  refine path_walkWhile (fun j => ?_) i
  rw [callRound, A.value_orElse, A.value_orElse]
  split
  · split
    · exact tokenLength_path (by decide) j
    · exact spacing_path hr j
  · exact classOrId_path hr j

theorem mixinCall_path (i : Nat) : ts.Path i (i + A.len .mixinCall i) := by
  refine path_add fun h => ?_
  obtain ⟨m, ht, hlen⟩ := A.exists_of_len h
  obtain ⟨j, _, rfl, hcases⟩ := mixinCall_cases (A.value_of_tell hr.wm rfl ht)
  rw [← hlen]
  refine (callHead_path (A := A) hr i).trans ?_
  rcases hcases with ⟨_, hend⟩ | ⟨_, _, a, b, rfl, rfl, hend⟩
  · rw [hend]
    exact .refl _
  · rw [hend]
    exact (arguments_path hr _).trans ((spacing_path hr _).trans (important_path hr _))

theorem extendTarget_path (i : Nat) : ts.Path i (i + A.len .extendTarget i) := by
  refine path_of_alternatives (r := .extendTarget) hr.wm rfl rfl ?_
  simp only [List.forall_mem_cons, List.not_mem_nil, false_imp_iff, implies_true, and_true]
  exact ⟨parent_path hr i, ident_path hr i, classSelector_path hr i, idSelector_path hr i⟩

theorem extend_path (i : Nat) : ts.Path i (i + A.len .extend i) := by
  refine path_add fun h => ?_
  obtain ⟨m, ht, hlen⟩ := A.exists_of_len h
  obtain ⟨target, p, hp, rfl, _, a, b, rfl, rfl, hcases⟩ :=
    extend_cases (A.value_of_tell hr.wm rfl ht)
  have htarget := extendTarget_path (A := A) hr i
  rw [Reading.len, hp] at htarget
  have hlead := htarget.trans (pseudoClass_path (A := A) hr _)
  rw [← hlen]
  rcases hcases with ⟨_, hend⟩ | ⟨_, _, hend⟩
  · exact hlead.cast hend.symm
  · exact hlead.trans ((spacing_path (A := A) hr _).trans ((block_path (A := A) hr _).cast hend.symm))

theorem blockItem_path (i : Nat) : ts.Path i (i + A.len .blockItem i) := by
  refine path_of_alternatives (r := .blockItem) hr.wm rfl rfl ?_
  simp only [List.forall_mem_cons, List.not_mem_nil, false_imp_iff, implies_true, and_true]
  exact ⟨condition_path hr i, extend_path hr i, ruleset_path hr i, declaration_path hr i,
    atRule_path hr i, mixinCall_path hr i⟩

theorem blockChunk_path (i : Nat) : ts.Path i (i + A.len .blockChunk i) := by
  refine path_add fun h => ?_
  obtain ⟨m, ht, hlen⟩ := A.exists_of_len h
  have hrest := blockChunk_cases (A.value_of_tell hr.wm rfl ht)
  rw [← hlen]
  refine (spacing_path (A := A) hr i).trans ?_
  revert hrest
  cases m.shape with
  | delimitedItem =>
    rintro ⟨_, k, rfl, hsemi, hend⟩
    rw [hend]
    exact (blockItem_path hr _).trans ((path_token hsemi rfl).trans (spacing_path hr _))
  | item =>
    rintro ⟨_, k, rfl, hend⟩
    rw [hend]
    exact (blockItem_path hr _).trans (spacing_path hr _)
  | delimiter =>
    rintro ⟨hsemi, hend⟩
    rw [hend]
    exact (path_token hsemi rfl).trans (spacing_path hr _)
  | spacing =>
    intro hend
    rw [hend]
    exact .refl _

end LessCss
