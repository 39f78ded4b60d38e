import LessCss.Proofs.Build.Statements

/-! All productions that are both measured and built: the start symbols, and those that stand only
inside others. Where the measure of a production covers tokens, its builder fails at a deferred
token or stands behind these tokens afterwards. -/

namespace LessCss

open Lookahead Builder Grammar Tokens

variable {ts : Tokens} {capped : Bool} {A : Reading ts capped} {i j k : Nat}

/-! ## Start symbols -/

theorem Symbol.length_measures (wm : ts.WellMarked) (start : Symbol) (i : Nat) :
    (start.length ts i).Measures ts .top i := by
  have htop : ∀ {ρ : Nat}, ρ < Rule.ranks → Scope.top.Open i ρ := fun h => Scope.top_open h i
  have hzero : Scope.top.origin ≤ i := Nat.zero_le i
  cases start with
  | atKeyword => exact atKeywordLength_measures hzero
  | block => exact blockLength_measures wm
  | brackets => exact bracketsLength_measures wm
  | color => exact colorLength_measures
  | declarationDelimiter => exact tokenLength_measures _
  | delimiter => exact tokenLength_measures _
  | dimension => exact dimensionLength_measures (htop (by decide))
  | escapedString => exact escapedStringLength_measures
  | expression => exact expressionLength_measures wm
  | function => exact functionLength_measures wm (htop (by decide))
  | blockComment => exact tokenLength_measures _
  | namespaceBar => exact tokenLength_measures _
  | operator => exact tokenLength_measures _
  | parentheses => exact parenthesesLength_measures wm
  | parentSelector => exact tokenLength_measures _
  | percentage => exact percentageLength_measures (htop (by decide))
  | property => exact propertyLength_measures (htop (by decide))
  | propertyDelimiter => exact tokenLength_measures _
  | pseudoElement => exact pseudoElementLength_measures hzero
  | lineComment => exact tokenLength_measures _
  | space => exact spaceLength_measures wm
  | string => exact tokenLength_measures _
  | stylesheet => exact stylesheetLength_measures (htop (by decide))
  | typeSelector => exact typeSelectorLength_measures (htop (by decide))
  | unary => exact tokenLength_measures _
  | uri => exact uriLength_measures wm
  | varList => exact varListLength_measures (htop (by decide))
  | arguments | atRule | attributeSelector | classSelector | combinator | compoundSelector
  | condition | declaration | extend | idSelector | ident | important | mixinCall
  | interpolation | mixin | number | progid | pseudoClass | ruleset | selector | value | var =>
    exact lengthOf_top _ i

/-- A token of one kind that is measured and built as such. -/
theorem gives_of_token {x : Builder Node} {k : Token.Kind}
    (hx : ts.is i k = true → Gives A x i (i + 1)) (h : 0 < A.value (tokenLength ts [k] i)) :
    Gives A x i (i + A.value (tokenLength ts [k] i)) := by
  rw [value_tokenLength] at h ⊢
  have hany := toNat_pos.1 h
  obtain ⟨k', hk, he⟩ := isAny_iff.1 hany
  cases List.mem_singleton.1 hk
  rw [hany]
  exact hx (is_iff.2 he)

/-- The node of a start symbol other than a stylesheet. -/
theorem Symbol.build_gives (wm : ts.WellMarked) (start : Symbol) (hs : start ≠ .stylesheet)
    (h : 0 < A.value (start.length ts i)) :
    Gives A (start.build ts) i (i + A.value (start.length ts i)) := by
  cases start with
  | stylesheet => exact absurd rfl hs
  | arguments => exact readArgumentsNode_gives wm h
  | atKeyword => exact atKeywordNode_gives wm h
  | atRule => exact atRuleNode_gives wm h
  | attributeSelector => exact attributeSelectorNode_gives wm h
  | block => exact blockNode_gives wm h
  | brackets => exact bracketsNode_gives wm h
  | classSelector => exact classNode_gives wm h
  | color => exact colorNode_gives h
  | combinator => exact combinatorNode_gives wm h
  | compoundSelector => exact compoundNode_gives wm h
  | condition => exact conditionNode_gives wm h
  | declaration => exact declarationNode_gives wm h
  | declarationDelimiter => exact gives_token (k := .declarationDelimiter) ⟨rfl, rfl⟩ h rfl
  | delimiter => exact gives_token (k := .delimiter) ⟨rfl, rfl⟩ h rfl
  | dimension => exact dimensionNode_gives wm h
  | escapedString => exact escapedStringNode_gives h
  | expression => exact expressionNode_gives wm h
  | extend => exact extendNode_gives wm h
  | function => exact functionNode_gives wm h
  | idSelector => exact idNode_gives wm h
  | ident => exact identNode_gives wm h
  | important => exact importantNode_gives wm h
  | mixinCall => exact mixinCallNode_gives wm h
  | interpolation => exact interpolationNode_gives wm h
  | mixin => exact mixinNode_gives wm h
  | blockComment => exact gives_of_token blockCommentNode_gives h
  | namespaceBar => exact gives_token (k := .namespaceBar) ⟨rfl, rfl⟩ h rfl
  | number => exact numberNode_gives wm h
  | operator => exact gives_token (k := .operator) ⟨rfl, rfl⟩ h rfl
  | parentheses => exact parenthesesNode_gives wm h
  | parentSelector => exact gives_token (k := .parentSelector) ⟨rfl, rfl⟩ h rfl
  | percentage => exact percentageNode_gives wm h
  | progid => exact progidNode_gives wm h
  | property => exact propertyNode_gives wm h
  | propertyDelimiter => exact gives_token (k := .propertyDelimiter) ⟨rfl, rfl⟩ h rfl
  | pseudoClass => exact pseudoClassNode_gives wm h
  | pseudoElement => exact pseudoElementNode_gives wm h
  | ruleset => exact rulesetNode_gives wm h
  | selector => exact selectorNode_gives wm h
  | lineComment => exact gives_of_token lineCommentNode_gives h
  | space => exact spaceNode_gives wm h
  | string => exact gives_token (k := .string) ⟨rfl, rfl⟩ h rfl
  | typeSelector => exact typeSelectorNode_gives wm h
  | unary => exact gives_token (k := .unary) ⟨rfl, rfl⟩ h rfl
  | uri => exact uriNode_gives wm h
  | value => exact valueNode_gives wm h
  | var => exact varNode_gives wm h
  | varList => exact varListNode_gives wm h

/-- The node of any start symbol, or a failure; a stylesheet that is built ends with the stream, and
one that does not cover the stream fails where it was measured to end. -/
theorem Symbol.build_runs_in (wm : ts.WellMarked) (start : Symbol) {E : Nat → Prop}
    (hE : ∀ j, ts.Deferred j → E j) (h : 0 < A.value (start.length ts i))
    (hend : i + A.value (start.length ts i) < ts.size → E (i + A.value (start.length ts i))) :
    (start.build ts).Runs A E i i fun n k => k = i + A.value (start.length ts i) ∧
      (start = .stylesheet → k = ts.size) ∧ Covers ts i k n := by
  have hc : Site ts E i i := ⟨hE, Nat.le_refl i⟩
  by_cases hs : start = .stylesheet
  · subst hs
    have hv : A.value (stylesheetLength ts i) = A.sheetEnd i - i := A.value_bind _ _
    have hpos : 0 < A.value (stylesheetLength ts i) := h
    have hfits : ts.Fits i (A.value (stylesheetLength ts i)) :=
      A.value_fits (Symbol.length_measures wm .stylesheet i)
    have hsum : i + A.value (stylesheetLength ts i) = A.sheetEnd i := by omega
    change i + A.value (stylesheetLength ts i) < ts.size →
      E (i + A.value (stylesheetLength ts i)) at hend
    rw [hsum] at hend
    refine (stylesheetNode_runs wm hc (by omega) hend).mono fun n k hk => ?_
    obtain ⟨rfl, hall, hcovers⟩ := hk
    exact ⟨hall.symm.trans hsum.symm, fun _ => rfl, hcovers⟩
  · refine (start.build_gives wm hs h _ _ hc).mono fun n k hk => ?_
    exact ⟨hk.1, fun hs' => absurd hs' hs, hk.1 ▸ hk.2⟩

theorem Symbol.build_runs (wm : ts.WellMarked) (start : Symbol)
    (h : 0 < A.value (start.length ts i)) :
    (start.build ts).Runs A (fun _ => True) i i fun n k => k = i + A.value (start.length ts i) ∧
      (start = .stylesheet → k = ts.size) ∧ Covers ts i k n :=
  start.build_runs_in wm (fun _ _ => trivial) h fun _ => trivial

/-! ## All productions -/

/-- A start symbol, or one of the productions that stand only inside others. -/
inductive Production where
  | symbol (start : Symbol)
  | spacing | name | classOrId | fragment | preludePart | prelude | argument | valuePart
  | namespacePart | parent | parentSuffix | attributeName | comparator | attributeValue | pseudo
  | selectorGroup | keyframeSelector | keyframe | keyframes | nestedRule | conditionPart
  | extendTarget | blockItem | blockChunk | sheetItem
deriving DecidableEq

/-- What a rule has found at the cursor, built in the form in which it was found. -/
def found (r : Rule) (nodes : r.Shape → Builder (List Node)) : Builder (List Node) := do
  match (← ask r).shape? with
  | some shape => nodes shape
  | none => unexpected

namespace Production

/-- How many tokens a production covers from token `i`. -/
def length (ts : Tokens) : Production → Nat → Lookahead Nat
  | symbol start, i => start.length ts i
  | spacing, i => lengthOf .spacing i
  | name, i => do return ((← nameMatch i).map Match.length).getD 0
  | classOrId, i => classOrIdLength i
  | fragment, i => lengthOf .fragment i
  | preludePart, i => lengthOf .preludePart i
  | prelude, i => do tokensBetween i (← preludeEnd ts i)
  | argument, i => lengthOf .argument i
  | valuePart, i => lengthOf .valuePart i
  | namespacePart, i => lengthOf .namespacePart i
  | parent, i => parentLength ts i
  | parentSuffix, i => parentSuffixLength ts i
  | attributeName, i => attributeNameLength i
  | comparator, i => return comparatorLength ts i
  | attributeValue, i => attributeValueLength ts i
  | pseudo, i => pseudoLength ts i
  | selectorGroup, i => lengthOf .selectorGroup i
  | keyframeSelector, i => lengthOf .keyframeSelector i
  | keyframe, i => keyframeLength ts i
  | keyframes, i => keyframesLength ts i
  | nestedRule, i => lengthOf .nestedRule i
  | conditionPart, i => lengthOf .conditionPart i
  | extendTarget, i => lengthOf .extendTarget i
  | blockItem, i => lengthOf .blockItem i
  | blockChunk, i => lengthOf .blockChunk i
  | sheetItem, i => lengthOf .sheetItem i

/-- How the nodes of a production are built. -/
def nodes (ts : Tokens) : Production → Builder (List Node)
  | symbol start => single (start.build ts)
  | spacing => spacingNodes ts
  | name => single (anyNameNode ts)
  | classOrId => single (classOrIdNode ts)
  | fragment => single (fragmentNode ts)
  | preludePart => found .preludePart (preludePartNodes ts)
  | prelude => preludeNodes ts
  | argument => found .argument (argumentNodes ts)
  | valuePart => found .valuePart fun shape => single (valuePartNode ts shape)
  | namespacePart => single (namespacePartNode ts)
  | parent => parentNodes ts
  | parentSuffix => single (parentSuffixNode ts)
  | attributeName => single (attributeNameNode ts)
  | comparator => do single (leaf ts .attributeMatch (comparatorLength ts (← cursor)))
  | attributeValue => single (attributeValueNode ts)
  | pseudo => single (pseudoNode ts)
  | selectorGroup => selectorGroupNodes ts
  | keyframeSelector => single (keyframeSelectorNode ts)
  | keyframe => single (keyframeNode ts)
  | keyframes => single (keyframeBlockNode ts)
  | nestedRule => found .nestedRule (nestedRuleNodes ts)
  | conditionPart => found .conditionPart (conditionPartNodes ts)
  | extendTarget => found .extendTarget (extendTargetNodes ts)
  | blockItem => single (blockItemNode ts)
  | blockChunk => found .blockChunk (blockChunkNodes ts)
  | sheetItem => found .sheetItem (sheetItemNodes ts)

theorem length_measures (wm : ts.WellMarked) (p : Production) (i : Nat) :
    (p.length ts i).Measures ts .top i := by
  have htop : ∀ {ρ : Nat}, ρ < Rule.ranks → Scope.top.Open i ρ := fun h => Scope.top_open h i
  have hzero : Scope.top.origin ≤ i := Nat.zero_le i
  cases p with
  | symbol start => exact start.length_measures wm i
  | name =>
    refine (nameMatch_matches (htop (by decide))).bind fun m hm => stays_pure ?_
    cases m with
    | none => exact fits_zero ts i
    | some m => exact hm m rfl
  | classOrId => exact classOrIdLength_measures (htop (by decide))
  | prelude =>
    exact (preludeEnd_stays (htop (by decide))).bind fun k hk => tokensBetween_measures hk.1 hk.2
  | parent => exact parentLength_measures hzero
  | parentSuffix => exact parentSuffixLength_measures (htop (by decide))
  | attributeName => exact attributeNameLength_measures (htop (by decide))
  | comparator => exact stays_pure comparatorLength_fits
  | attributeValue => exact attributeValueLength_measures (htop (by decide))
  | pseudo => exact pseudoLength_measures (htop (by decide))
  | keyframe => exact keyframeLength_measures wm (htop (by decide))
  | keyframes => exact keyframesLength_measures wm hzero
  | spacing | fragment | preludePart | argument | valuePart | namespacePart | selectorGroup
  | keyframeSelector | nestedRule | conditionPart | extendTarget | blockItem | blockChunk
  | sheetItem => exact lengthOf_top _ i

end Production

theorem found_gives {r : Rule} {nodes : r.Shape → Builder (List Node)} (h : 0 < A.len r i)
    (hn : ∀ m, A.tell r i = some m → GivesAll A (nodes m.shape) i (i + m.length)) :
    GivesAll A (found r nodes) i (i + A.len r i) := by
  obtain ⟨m, ht, hlen⟩ := A.exists_of_len h
  intro E lo hc
  refine runs_ask.2 ?_
  rw [ht, ← hlen]
  exact hn m ht E lo hc

/-- Productions inside others are built as far as they were measured. -/
theorem Production.nodes_give (wm : ts.WellMarked) (p : Production)
    (hp : ¬ ∃ start, p = .symbol start) (h : 0 < A.value (p.length ts i)) :
    GivesAll A (p.nodes ts) i (i + A.value (p.length ts i)) := by
  cases p with
  | symbol start => exact absurd ⟨start, rfl⟩ hp
  | spacing => exact spacingNodes_gives wm A i
  | name =>
    rw [length, A.value_bind, A.value_pure] at h ⊢
    cases hm : A.value (nameMatch i) with
    | none =>
      rw [hm] at h
      cases h
    | some m => exact (anyNameNode_gives wm hm).single
  | classOrId => exact (classOrIdNode_gives wm h).single
  | fragment => exact (fragmentNode_gives wm h).single
  | preludePart => exact found_gives h fun _ => preludePartNodes_gives wm
  | prelude =>
    rw [length, A.value_bind, A.value_tokensBetween] at h ⊢
    rw [show i + (A.value (preludeEnd ts i) - i) = A.value (preludeEnd ts i) by omega]
    exact preludeNodes_gives wm A i
  | argument => exact found_gives h fun _ => argumentNodes_gives wm
  | valuePart => exact found_gives h fun _ ht => (valuePartNode_gives wm ht).single
  | namespacePart => exact (namespacePartNode_gives wm h).single
  | parent => exact parentNodes_gives wm h
  | parentSuffix => exact (parentSuffixNode_gives wm h).single
  | attributeName => exact (attributeNameNode_gives wm h).single
  | comparator =>
    exact fun E lo hc =>
      runs_cursor.2 ((gives_leaf (k := .attributeMatch) ⟨rfl, rfl⟩ h
        (Or.inr fun _ => comparator_balanced ts i)).single E lo hc)
  | attributeValue => exact (attributeValueNode_gives wm h).single
  | pseudo => exact (pseudoNode_gives wm h).single
  | selectorGroup => exact selectorGroupNodes_gives wm h
  | keyframeSelector => exact (keyframeSelectorNode_gives wm h).single
  | keyframe => exact (keyframeNode_gives wm h).single
  | keyframes => exact (keyframeBlockNode_gives wm h).single
  | nestedRule => exact found_gives h fun _ => nestedRuleNodes_gives wm
  | conditionPart => exact found_gives h fun _ => conditionPartNodes_gives wm
  | extendTarget => exact found_gives h fun _ => extendTargetNodes_gives wm
  | blockItem => exact (blockItemNode_gives wm h).single
  | blockChunk => exact found_gives h fun _ => blockChunkNodes_gives wm
  | sheetItem => exact found_gives h fun _ => sheetItemNodes_gives wm

/-- Any production is built as far as it was measured, or building fails; a stylesheet that is built
ends with the stream. -/
theorem Production.nodes_run (wm : ts.WellMarked) (p : Production)
    (h : 0 < A.value (p.length ts i)) :
    (p.nodes ts).Runs A (fun _ => True) i i fun ns k => k = i + A.value (p.length ts i) ∧
      (p = .symbol .stylesheet → k = ts.size) ∧ Tiles ts i k ns := by
  by_cases hp : ∃ start, p = .symbol start
  · obtain ⟨start, rfl⟩ := hp
    refine runs_bind.2 ((start.build_runs wm h).mono fun n k hk => ?_)
    obtain ⟨hend, hsheet, hcovers⟩ := hk
    exact ⟨hend, fun hs => hsheet (Production.symbol.inj hs), hcovers.single⟩
  · have hc : Site ts (fun _ => True) i i := ⟨fun _ _ => trivial, Nat.le_refl i⟩
    refine (p.nodes_give wm hp h _ _ hc).mono fun ns k hk => ?_
    exact ⟨hk.1, fun hs => absurd ⟨_, hs⟩ hp, hk.1 ▸ hk.2⟩

end LessCss
