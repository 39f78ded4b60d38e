import LessCss.Proofs.Memory

/-! Streams that read alike. Looking ahead sees of a stream its size, the kinds and links of its
tokens, and whether some texts are those of a few words. Two streams that agree on these make every
production look ahead by the same program, and so all questions are answered alike, from the same
state to the same state. -/

namespace LessCss

open Lookahead Grammar

namespace Tokens

/-- The words that the grammar compares single tokens with. -/
def words : List String := ["when", "extend", "url", "expression", "important", "n"]

/-- The grammar cannot tell the streams apart: they agree on the kinds and the links of the tokens
and on every comparison of texts that the grammar makes. -/
structure Alike (ts ts' : Tokens) : Prop where
  size : ts.size = ts'.size
  kind? : ∀ i, ts.kind? i = ts'.kind? i
  closer : ∀ i : Nat, ts[i]?.bind Token.closer = ts'[i]?.bind Token.closer
  runEnd : ∀ i : Nat, ts[i]?.bind Token.runEnd = ts'[i]?.bind Token.runEnd
  word : ∀ w ∈ words, ∀ i, ts.text i = w ↔ ts'.text i = w
  keyframe : ∀ w ∈ ["from", "to"], ∀ lo hi, ts.join lo hi = w ↔ ts'.join lo hi = w
  keyframes : ∀ lo hi, Text.contains "keyframes" (ts.join lo hi) =
    Text.contains "keyframes" (ts'.join lo hi)
  progid : ∀ i, i + 6 ≤ ts.size → (ts.join i (i + 6) = progidMark ↔ ts'.join i (i + 6) = progidMark)

theorem Alike.refl (ts : Tokens) : ts.Alike ts := by
  constructor <;> intros <;> rfl

variable {ts ts' : Tokens}

theorem Alike.is (h : ts.Alike ts') (i : Nat) (k : Token.Kind) : ts.is i k = ts'.is i k := by
  rw [Tokens.is, h.kind?, Tokens.is]

theorem Alike.isAny (h : ts.Alike ts') (i : Nat) (ks : List Token.Kind) :
    ts.isAny i ks = ts'.isAny i ks := by
  rw [Tokens.isAny, h.kind?, Tokens.isAny]

theorem Alike.closer? (h : ts.Alike ts') (i : Nat) (k : Token.Kind) :
    ts.closer? i k = ts'.closer? i k := by
  have hk := h.kind? i
  have hc := h.closer i
  unfold Tokens.closer?
  unfold Tokens.kind? at hk
  cases ht : ts[i]? <;> cases ht' : ts'[i]? <;> simp_all

theorem Alike.text_beq (h : ts.Alike ts') {w : String} (hw : w ∈ words) (i : Nat) :
    (ts.text i == w) = (ts'.text i == w) := by
  rw [Bool.eq_iff_iff, beq_iff_eq, beq_iff_eq]
  exact h.word w hw i

theorem Alike.text_bne (h : ts.Alike ts') {w : String} (hw : w ∈ words) (i : Nat) :
    (ts.text i != w) = (ts'.text i != w) := by
  rw [bne, h.text_beq hw, bne]

theorem Alike.spanEnd (h : ts.Alike ts') (ks : List Token.Kind) (j : Nat) :
    ts.spanEnd ks j = ts'.spanEnd ks j := by
  fun_induction Tokens.spanEnd ts ks j with
  | case1 j hlt hany ih => rw [ih, Tokens.spanEnd.eq_def ts' ks j, if_pos (h.size ▸ hlt), if_pos (h.isAny j ks ▸ hany)]
  | case2 j hlt hany => rw [Tokens.spanEnd, if_pos (h.size ▸ hlt), if_neg (h.isAny j ks ▸ hany)]
  | case3 j hge => rw [Tokens.spanEnd, if_neg (h.size ▸ hge)]

end Tokens

variable {ts ts' : Tokens}

/-! ## Spacing, names and literals -/

theorem tokenLength_alike (h : ts.Alike ts') (ks : List Token.Kind) :
    tokenLength ts ks = tokenLength ts' ks := by
  funext i
  rw [tokenLength, h.isAny, tokenLength]

theorem spaceLength_alike (h : ts.Alike ts') : spaceLength ts = spaceLength ts' := by
  funext i
  have hk := h.kind? i
  have hr := h.runEnd i
  unfold spaceLength
  unfold Tokens.kind? at hk
  cases ht : ts[i]? <;> cases ht' : ts'[i]? <;> simp_all

theorem spacingLength_alike (h : ts.Alike ts') : spacingLength ts = spacingLength ts' := by
  funext i
  simp only [spacingLength, h.size, spaceLength_alike h, tokenLength_alike h]

theorem identEnd_alike (h : ts.Alike ts') (named : Bool) (j : Nat) :
    identEnd ts named j = identEnd ts' named j := by
  generalize hn : ts.size - j = n
  induction n using Nat.strongRecOn generalizing named j with
  | ind n ih =>
    rw [identEnd, identEnd.eq_def ts']
    by_cases hj : j < ts.size
    · have hnext : ∀ named k, identEnd ts named (j + k + 1) = identEnd ts' named (j + k + 1) :=
        fun named k => ih _ (by omega) named _ rfl
      rw [dif_pos hj, dif_pos (h.size ▸ hj)]
      simp only [h.kind?, hnext]
    · rw [dif_neg hj, dif_neg (h.size ▸ hj)]

theorem identLength_alike (h : ts.Alike ts') : identLength ts = identLength ts' := by
  funext i
  simp only [identLength, h.kind?, h.spanEnd, identEnd_alike h]

theorem interpolationLength_alike (h : ts.Alike ts') :
    interpolationLength ts = interpolationLength ts' := by
  funext i
  simp only [interpolationLength, h.is]

theorem varLength_alike (h : ts.Alike ts') : varLength ts = varLength ts' := by
  funext i
  simp only [varLength, h.is]

theorem varListLength_alike (h : ts.Alike ts') : varListLength ts = varListLength ts' := by
  funext i
  simp only [varListLength, h.spanEnd]

theorem atKeywordLength_alike (h : ts.Alike ts') : atKeywordLength ts = atKeywordLength ts' := by
  funext i
  simp only [atKeywordLength, h.is]

theorem markedNameMatch_alike (h : ts.Alike ts') (mark : Token.Kind) :
    markedNameMatch ts mark = markedNameMatch ts' mark := by
  funext i
  simp only [markedNameMatch, h.is]

theorem numberLength_alike (h : ts.Alike ts') : numberLength ts = numberLength ts' := by
  funext i
  simp only [numberLength, h.is]

theorem unitLength_alike (h : ts.Alike ts') : unitLength ts = unitLength ts' := by
  funext i
  simp only [unitLength, h.kind?, h.is]

theorem dimensionLength_alike (h : ts.Alike ts') : dimensionLength ts = dimensionLength ts' := by
  funext i
  simp only [dimensionLength, unitLength_alike h]

theorem percentageLength_alike (h : ts.Alike ts') : percentageLength ts = percentageLength ts' := by
  funext i
  simp only [percentageLength, h.is]

theorem stringLength_alike (h : ts.Alike ts') : stringLength ts = stringLength ts' :=
  tokenLength_alike h _

theorem escapedStringLength_alike (h : ts.Alike ts') :
    escapedStringLength ts = escapedStringLength ts' := by
  funext i
  simp only [escapedStringLength, h.is, h.isAny]

theorem importantLength_alike (h : ts.Alike ts') : importantLength ts = importantLength ts' := by
  funext i
  simp only [importantLength, h.is, h.text_beq (by decide : "important" ∈ Tokens.words)]

theorem colorLength_alike (h : ts.Alike ts') : colorLength ts = colorLength ts' := by
  funext i
  simp only [colorLength, h.is, unitLength_alike h]

/-! ## Groups and values -/

theorem throughCloser_alike (h : ts.Alike ts') (k : Token.Kind) :
    throughCloser ts k = throughCloser ts' k := by
  funext i j
  simp only [throughCloser, h.closer?]

theorem parenthesesLength_alike (h : ts.Alike ts') :
    parenthesesLength ts = parenthesesLength ts' := by
  funext i
  rw [parenthesesLength, throughCloser_alike h, parenthesesLength]

theorem bracketsLength_alike (h : ts.Alike ts') : bracketsLength ts = bracketsLength ts' := by
  funext i
  rw [bracketsLength, throughCloser_alike h, bracketsLength]

theorem blockLength_alike (h : ts.Alike ts') : blockLength ts = blockLength ts' := by
  funext i
  rw [blockLength, throughCloser_alike h, blockLength]

theorem uriLength_alike (h : ts.Alike ts') : uriLength ts = uriLength ts' := by
  funext i
  simp only [uriLength, h.is, h.text_beq (by decide : "url" ∈ Tokens.words), throughCloser_alike h]

theorem rawEnd_alike (h : ts.Alike ts') (stop j : Nat) : rawEnd ts stop j = rawEnd ts' stop j := by
  fun_induction rawEnd ts stop j with
  | case1 j hlt hany => rw [rawEnd, if_pos hlt, if_pos (h.isAny j _ ▸ hany)]
  | case2 j hlt hany ih =>
    rw [ih, rawEnd.eq_def ts' stop j, if_pos hlt, if_neg (h.isAny j _ ▸ hany)]
  | case3 j hge => rw [rawEnd, if_neg hge]

theorem expressionLength_alike (h : ts.Alike ts') : expressionLength ts = expressionLength ts' := by
  funext i
  simp only [expressionLength, h.text_beq (by decide : "expression" ∈ Tokens.words),
    throughCloser_alike h]

theorem progidLength_alike (h : ts.Alike ts') : progidLength ts = progidLength ts' := by
  funext i
  unfold progidLength
  by_cases hsize : ts.size < i + 6
  · have hsize' : ts'.size < i + 6 := h.size ▸ hsize
    simp only [hsize, hsize', decide_true, Bool.true_or, if_true]
  · have hmark : (ts.join i (i + 6) != progidMark) = (ts'.join i (i + 6) != progidMark) := by
      rw [Bool.eq_iff_iff, bne_iff_ne, bne_iff_ne]
      exact not_congr (h.progid i (by omega))
    simp only [h.size, hmark, throughCloser_alike h]

theorem functionLength_alike (h : ts.Alike ts') : functionLength ts = functionLength ts' := by
  funext i
  simp only [functionLength, throughCloser_alike h]

theorem fragmentMatch_alike (h : ts.Alike ts') : fragmentMatch ts = fragmentMatch ts' := by
  funext i
  simp only [fragmentMatch, bracketsLength_alike h, parenthesesLength_alike h, stringLength_alike h,
    varListLength_alike h, percentageLength_alike h, dimensionLength_alike h, uriLength_alike h,
    expressionLength_alike h, functionLength_alike h, unaryLength, tokenLength_alike h]

theorem preludePartMatch_alike (h : ts.Alike ts') : preludePartMatch ts = preludePartMatch ts' := by
  funext i
  simp only [preludePartMatch, colorLength_alike h, operatorLength, tokenLength_alike h]

theorem preludeEnd_alike (h : ts.Alike ts') : preludeEnd ts = preludeEnd ts' := by
  funext i
  simp only [preludeEnd, h.size]

theorem valuePartMatch_alike (h : ts.Alike ts') : valuePartMatch ts = valuePartMatch ts' := by
  funext i
  simp only [valuePartMatch, escapedStringLength_alike h, colorLength_alike h, blockLength_alike h,
    atKeywordLength_alike h, operatorLength, tokenLength_alike h]

theorem valueLength_alike (h : ts.Alike ts') : valueLength ts = valueLength ts' := by
  funext i
  simp only [valueLength, h.size]

/-! ## Declarations and arguments -/

theorem declarationLength_alike (h : ts.Alike ts') :
    declarationLength ts = declarationLength ts' := by
  funext i
  simp only [declarationLength, h.is]

theorem argumentMatch_alike (h : ts.Alike ts') : argumentMatch ts = argumentMatch ts' := by
  funext i
  simp only [argumentMatch, escapedStringLength_alike h, varListLength_alike h, unaryLength,
    operatorLength, delimiterLength, declarationDelimiterLength, tokenLength_alike h,
    stringLength_alike h, percentageLength_alike h, dimensionLength_alike h, uriLength_alike h,
    functionLength_alike h, colorLength_alike h, blockLength_alike h, parenthesesLength_alike h]

theorem argumentsLength_alike (h : ts.Alike ts') : argumentsLength ts = argumentsLength ts' := by
  funext i
  simp only [argumentsLength, h.closer?]

/-! ## Selectors -/

theorem namespaceMatch_alike (h : ts.Alike ts') : namespaceMatch ts = namespaceMatch ts' := by
  funext i
  simp only [namespaceMatch, tokenLength_alike h, h.is]

theorem typeSelectorLength_alike (h : ts.Alike ts') :
    typeSelectorLength ts = typeSelectorLength ts' := by
  funext i
  simp only [typeSelectorLength, h.is]

theorem parentSuffixLength_alike (h : ts.Alike ts') :
    parentSuffixLength ts = parentSuffixLength ts' := by
  funext i
  simp only [parentSuffixLength, h.size]

theorem parentLength_alike (h : ts.Alike ts') : parentLength ts = parentLength ts' := by
  funext i
  simp only [parentLength, h.is, parentSuffixLength_alike h]

theorem comparatorLength_alike (h : ts.Alike ts') : comparatorLength ts = comparatorLength ts' := by
  funext i
  simp only [comparatorLength, h.is, h.isAny]

theorem attributeValueLength_alike (h : ts.Alike ts') :
    attributeValueLength ts = attributeValueLength ts' := by
  funext i
  simp only [attributeValueLength, stringLength_alike h]

theorem attributeSelectorMatch_alike (h : ts.Alike ts') :
    attributeSelectorMatch ts = attributeSelectorMatch ts' := by
  funext i
  simp only [attributeSelectorMatch, h.is, comparatorLength_alike h, attributeValueLength_alike h]

theorem pseudoElementLength_alike (h : ts.Alike ts') :
    pseudoElementLength ts = pseudoElementLength ts' := by
  funext i
  simp only [pseudoElementLength, h.is]

theorem closedAt_alike (h : ts.Alike ts') : closedAt ts = closedAt ts' := by
  funext opener j
  simp only [closedAt, h.closer?]

theorem nthMultiplier_alike (h : ts.Alike ts') : nthMultiplier ts = nthMultiplier ts' := by
  funext i
  simp only [nthMultiplier, h.is, h.isAny, h.text_beq (by decide : "n" ∈ Tokens.words)]

theorem pseudoForms_alike (h : ts.Alike ts') : pseudoForms ts = pseudoForms ts' := by
  have hformula : nthFormulaLength ts = nthFormulaLength ts' := by
    funext opener
    simp only [nthFormulaLength, nthMultiplier_alike h, h.is, h.isAny, closedAt_alike h]
  have hmultiple : nthMultipleLength ts = nthMultipleLength ts' := by
    funext opener
    simp only [nthMultipleLength, nthMultiplier_alike h, closedAt_alike h]
  have hoffset : nthOffsetLength ts = nthOffsetLength ts' := by
    funext opener
    simp only [nthOffsetLength, h.is, h.isAny, closedAt_alike h]
  have hselectors : pseudoSelectorsLength ts = pseudoSelectorsLength ts' := by
    funext opener
    simp only [pseudoSelectorsLength, closedAt_alike h]
  have hident : pseudoIdentLength ts = pseudoIdentLength ts' := by
    funext opener
    simp only [pseudoIdentLength, closedAt_alike h]
  rw [pseudoForms, hformula, hmultiple, hoffset, hselectors, hident, pseudoForms]

theorem pseudoClassMatch_alike (h : ts.Alike ts') : pseudoClassMatch ts = pseudoClassMatch ts' := by
  funext i
  simp only [pseudoClassMatch, h.is, h.closer?, pseudoForms_alike h]

theorem pseudoLength_alike (h : ts.Alike ts') : pseudoLength ts = pseudoLength ts' := by
  funext i
  simp only [pseudoLength, pseudoElementLength_alike h]

theorem compoundMatch_alike (h : ts.Alike ts') : compoundMatch ts = compoundMatch ts' := by
  have hpart : compoundPartLength ts = compoundPartLength ts' := by
    funext j
    simp only [compoundPartLength, pseudoLength_alike h]
  funext i
  simp only [compoundMatch, typeSelectorLength_alike h, parentLength_alike h, h.size, hpart]

theorem combinatorLength_alike (h : ts.Alike ts') : combinatorLength ts = combinatorLength ts' := by
  funext i
  simp only [combinatorLength, h.is, h.isAny]

theorem selectorMatch_alike (h : ts.Alike ts') : selectorMatch ts = selectorMatch ts' := by
  funext i
  simp only [selectorMatch, h.size]

theorem commaListLength_alike (h : ts.Alike ts') (r : Rule) :
    commaListLength ts r = commaListLength ts' r := by
  have hcomma : afterComma ts r = afterComma ts' r := by
    funext j
    simp only [afterComma, h.is]
  funext i
  simp only [commaListLength, h.size, hcomma]

/-! ## Rulesets and at-rules -/

theorem rulesetLength_alike (h : ts.Alike ts') : rulesetLength ts = rulesetLength ts' := by
  funext i
  simp only [rulesetLength, blockLength_alike h]

theorem keyframeSelectorMatch_alike (h : ts.Alike ts') :
    keyframeSelectorMatch ts = keyframeSelectorMatch ts' := by
  have hjoin : ∀ w ∈ ["from", "to"], ∀ lo hi,
      (ts.join lo hi == w) = (ts'.join lo hi == w) := by
    intro w hw lo hi
    rw [Bool.eq_iff_iff, beq_iff_eq, beq_iff_eq]
    exact h.keyframe w hw lo hi
  funext i
  simp only [keyframeSelectorMatch, percentageLength_alike h, hjoin "from" (by decide),
    hjoin "to" (by decide)]

theorem keyframeLength_alike (h : ts.Alike ts') : keyframeLength ts = keyframeLength ts' := by
  funext i
  simp only [keyframeLength, commaListLength_alike h, blockLength_alike h]

theorem keyframesLength_alike (h : ts.Alike ts') : keyframesLength ts = keyframesLength ts' := by
  funext i
  simp only [keyframesLength, h.closer?, keyframeLength_alike h]

theorem keyframesRuleLength_alike (h : ts.Alike ts') :
    keyframesRuleLength ts = keyframesRuleLength ts' := by
  funext i
  simp only [keyframesRuleLength, atKeywordLength_alike h, h.keyframes, keyframesLength_alike h]

theorem atRuleHead_alike (h : ts.Alike ts') : atRuleHead ts = atRuleHead ts' := by
  funext i
  simp only [atRuleHead, atKeywordLength_alike h, preludeEnd_alike h]

theorem atRuleMatch_alike (h : ts.Alike ts') : atRuleMatch ts = atRuleMatch ts' := by
  have hrules : rulesRuleLength ts = rulesRuleLength ts' := by
    funext i
    simp only [rulesRuleLength, atRuleHead_alike h, h.closer?]
  have hblock : blockRuleLength ts = blockRuleLength ts' := by
    funext i
    simp only [blockRuleLength, atRuleHead_alike h, blockLength_alike h]
  have hbare : bareRuleLength ts = bareRuleLength ts' := by
    funext i
    simp only [bareRuleLength, atRuleHead_alike h]
  funext i
  rw [atRuleMatch, keyframesRuleLength_alike h, hrules, hblock, hbare, atRuleMatch]

/-! ## Mixins, guards and extends -/

theorem conditionPartMatch_alike (h : ts.Alike ts') :
    conditionPartMatch ts = conditionPartMatch ts' := by
  funext i
  simp only [conditionPartMatch, functionLength_alike h, bracketsLength_alike h,
    parenthesesLength_alike h, delimiterLength, operatorLength, tokenLength_alike h,
    stringLength_alike h]

theorem conditionLength_alike (h : ts.Alike ts') : conditionLength ts = conditionLength ts' := by
  funext i
  simp only [conditionLength, h.is, h.text_beq (by decide : "when" ∈ Tokens.words), h.size,
    blockLength_alike h]

theorem mixinMatch_alike (h : ts.Alike ts') : mixinMatch ts = mixinMatch ts' := by
  funext i
  simp only [mixinMatch, blockLength_alike h]

theorem callHeadLength_alike (h : ts.Alike ts') : callHeadLength ts = callHeadLength ts' := by
  funext i
  simp only [callHeadLength, h.size, tokenLength_alike h]

theorem mixinCallMatch_alike (h : ts.Alike ts') : mixinCallMatch ts = mixinCallMatch ts' := by
  funext i
  simp only [mixinCallMatch, callHeadLength_alike h]

theorem extendTargetMatch_alike (h : ts.Alike ts') :
    extendTargetMatch ts = extendTargetMatch ts' := by
  funext i
  simp only [extendTargetMatch, parentLength_alike h]

theorem extendMatch_alike (h : ts.Alike ts') : extendMatch ts = extendMatch ts' := by
  funext i
  simp only [extendMatch, h.text_bne (by decide : "extend" ∈ Tokens.words), blockLength_alike h]

/-! ## Statements -/

theorem blockChunkMatch_alike (h : ts.Alike ts') : blockChunkMatch ts = blockChunkMatch ts' := by
  funext i
  simp only [blockChunkMatch, spacingAfterSemicolon, h.is]

theorem sheetItemMatch_alike (h : ts.Alike ts') : sheetItemMatch ts = sheetItemMatch ts' := by
  have hvar : varDeclarationLength ts = varDeclarationLength ts' := by
    funext i
    simp only [varDeclarationLength, h.is]
  funext i
  simp only [sheetItemMatch, hvar, declarationDelimiterLength, tokenLength_alike h]

theorem stylesheetLength_alike (h : ts.Alike ts') : stylesheetLength ts = stylesheetLength ts' := by
  funext i
  simp only [stylesheetLength, h.size]

/-- Every rule looks ahead by the same program. -/
theorem Rule.body_alike (h : ts.Alike ts') (r : Rule) : r.body ts = r.body ts' := by
  funext i
  cases r <;> simp only [Rule.body]
  case spacing => rw [spacingLength_alike h]
  case ident => rw [identLength_alike h]
  case number => rw [numberLength_alike h]
  case important => rw [importantLength_alike h]
  case progid => rw [progidLength_alike h]
  case var => rw [varLength_alike h]
  case interpolation => rw [interpolationLength_alike h]
  case classSelector => rw [markedNameMatch_alike h]
  case idSelector => rw [markedNameMatch_alike h]
  case fragment => rw [fragmentMatch_alike h]
  case preludePart => rw [preludePartMatch_alike h]
  case arguments => rw [argumentsLength_alike h]
  case argument => rw [argumentMatch_alike h]
  case value => rw [valueLength_alike h]
  case valuePart => rw [valuePartMatch_alike h]
  case selectorGroup => rw [commaListLength_alike h]
  case selector => rw [selectorMatch_alike h]
  case compound => rw [compoundMatch_alike h]
  case combinator => rw [combinatorLength_alike h]
  case namespacePart => rw [namespaceMatch_alike h]
  case attributeSelector => rw [attributeSelectorMatch_alike h]
  case pseudoClass => rw [pseudoClassMatch_alike h]
  case keyframeSelector => rw [keyframeSelectorMatch_alike h]
  case ruleset => rw [rulesetLength_alike h]
  case declaration => rw [declarationLength_alike h]
  case blockChunk => rw [blockChunkMatch_alike h]
  case atRule => rw [atRuleMatch_alike h]
  case ruleBody => rw [ruleBodyLength, h.size, ruleBodyLength]
  case mixin => rw [mixinMatch_alike h]
  case mixinCall => rw [mixinCallMatch_alike h]
  case extend => rw [extendMatch_alike h]
  case extendTarget => rw [extendTargetMatch_alike h]
  case condition => rw [conditionLength_alike h]
  case conditionPart => rw [conditionPartMatch_alike h]
  case sheetItem => rw [sheetItemMatch_alike h]

/-- Every start symbol is measured by the same program. -/
theorem Symbol.length_alike (h : ts.Alike ts') (start : Symbol) :
    start.length ts = start.length ts' := by
  cases start <;> simp only [Symbol.length]
  case atKeyword => exact atKeywordLength_alike h
  case block => exact blockLength_alike h
  case brackets => exact bracketsLength_alike h
  case color => exact colorLength_alike h
  case dimension => exact dimensionLength_alike h
  case escapedString => exact escapedStringLength_alike h
  case expression => exact expressionLength_alike h
  case function => exact functionLength_alike h
  case parentheses => exact parenthesesLength_alike h
  case percentage => exact percentageLength_alike h
  case pseudoElement => exact pseudoElementLength_alike h
  case space => exact spaceLength_alike h
  case stylesheet => exact stylesheetLength_alike h
  case typeSelector => exact typeSelectorLength_alike h
  case uri => exact uriLength_alike h
  case varList => exact varListLength_alike h
  all_goals exact tokenLength_alike h _

/-! ## Answers -/

namespace Parser

variable {limit : Option Nat}

/-- Every question is answered alike. -/
theorem answer_alike (h : ts.Alike ts') (r : Rule) (i depth : Nat) :
    answer ts limit r i depth = answer ts' limit r i depth := by
  generalize hw : r.weight ts.size i = w
  induction w using Nat.strongRecOn generalizing r i depth with
  | ind w ih =>
    funext s
    rcases Nat.lt_or_ge i ts.size with hi | hi
    · have hi' : i < ts'.size := h.size ▸ hi
      cases hm : s.memo.get? r i with
      | some a => rw [answer_remembered hi hm, answer_remembered hi' hm]
      | none =>
        have hbefore : ∀ r' j d, Rule.Before r' j r i →
            answer ts limit r' j d = answer ts' limit r' j d :=
          fun r' j d hb => ih _ (hw ▸ Rule.weight_lt hi hb) r' j d rfl
        have horacle : bodyOracle ts limit r i depth = bodyOracle ts' limit r i depth := by
          simp only [bodyOracle, Oracle.mk.injEq]
          constructor <;> funext r' j <;> split <;> simp_all
        rw [answer_fresh hi hm, answer_fresh hi' hm, horacle, Rule.body_alike h, h.size]
    · rw [answer_past_end hi, answer_past_end (h.size ▸ hi)]

theorem oracle_alike (h : ts.Alike ts') : oracle ts limit = oracle ts' limit := by
  simp only [oracle, answer_alike h]

end Parser

end LessCss
