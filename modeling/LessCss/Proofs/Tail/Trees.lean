import LessCss.Proofs.Tail.Nodes

/-! What is built of a tail: selectors and statements, with them every inside, and the node of every
start symbol. So where a stream ends with the tokens of another one, a builder makes the same of
both. -/

namespace LessCss

open Lookahead Grammar Builder Tokens

variable {d lo : Nat} {ts ts' : Tokens}

section
variable (h : ts.Tail d ts')
include h

/-! ## Parts of compounds -/

theorem namespacePartNode_moves :
    Moves ts ts' d lo (namespacePartNode ts) (namespacePartNode ts') := by
  have hlead : Moves ts ts' d lo (namespaceNodes ts) (namespaceNodes ts') := by
    refine Moves.then (moves_branch h _ (moves_choose_starts _ (identNode_moves h)
      (moves_leaf h _ 1)).single) fun _ => moves_cursor fun i _ => ?_
    rw [h.is]
    exact (moves_given _ (blockCommentNode_moves h).single).then fun _ => moves_pure _
  refine moves_branch h _ (moves_ask _ fun a => (moves_given _ hlead).then fun _ => ?_)
  exact (moves_leaf h _ 1).then fun _ => moves_pure _

theorem starOrIdentNode_moves : Moves ts ts' d lo (starOrIdentNode ts) (starOrIdentNode ts') := by
  refine moves_cursor fun i _ => ?_
  rw [h.is]
  split
  · exact moves_leaf h _ 1
  · exact identNode_moves h

theorem typeSelectorNode_moves :
    Moves ts ts' d lo (typeSelectorNode ts) (typeSelectorNode ts') := by
  refine moves_branch h _ ?_
  refine (moves_optionally_starts _ (namespacePartNode_moves h).single).then fun _ => ?_
  exact (starOrIdentNode_moves h).then fun _ => moves_pure _

theorem parentSuffixNode_moves :
    Moves ts ts' d lo (parentSuffixNode ts) (parentSuffixNode ts') := by
  refine moves_branch h _ ?_
  rw [h.size]
  refine moves_collect (moves_choose_starts _ (numberNode_moves h).round ?_) _
  exact moves_choose_starts _ (identNode_moves h).round (moves_pure _)

theorem parentNodes_moves : Moves ts ts' d lo (parentNodes ts) (parentNodes ts') := by
  refine (moves_leaf h _ 1).then fun _ => ?_
  exact (moves_optionally_sees h (parentSuffixLength_later h)
    (parentSuffixNode_moves h).single).then fun _ => moves_pure _

theorem attributeNameNode_moves :
    Moves ts ts' d lo (attributeNameNode ts) (attributeNameNode ts') := by
  refine moves_branch h _ (moves_look h (fun _ => rfl) fun n => ?_)
  refine moves_sees h (fun i => by rw [later_lengthOf, Nat.add_assoc]) fun named => ?_
  refine (moves_given _ (namespacePartNode_moves h).single).then fun _ => ?_
  exact (identNode_moves h).then fun _ => moves_pure _

theorem comparisonNodes_moves : Moves ts ts' d lo (comparisonNodes ts) (comparisonNodes ts') := by
  have hcomparator : Moves ts ts' d lo (comparatorNode ts) (comparatorNode ts') := by
    refine moves_cursor fun i _ => ?_
    rw [comparatorLength_later h]
    exact moves_leaf h _ _
  have hvalue : Moves ts ts' d lo (attributeValueNode ts) (attributeValueNode ts') :=
    moves_branch h _ (moves_choose_sees h (tokenLength_later h _) (stringNode_moves h)
      (identNode_moves h)).single
  have hflags : Moves ts ts' d lo (attributeFlagsNodes ts) (attributeFlagsNodes ts') :=
    (moves_branch h _ (identNode_moves h).single).then fun _ =>
      (spacingNodes_moves h).then fun _ => moves_pure _
  refine hcomparator.then fun _ => (spacingNodes_moves h).then fun _ => ?_
  refine hvalue.then fun _ => (spacingNodes_moves h).then fun _ => ?_
  exact (moves_optionally_starts _ hflags).then fun _ => moves_pure _

theorem attributeSelectorNode_moves :
    Moves ts ts' d lo (attributeSelectorNode ts) (attributeSelectorNode ts') := by
  refine moves_branch h _ (moves_ask _ fun a => moves_skip 1 ?_)
  refine (spacingNodes_moves h).then fun _ => (attributeNameNode_moves h).then fun _ => ?_
  refine (spacingNodes_moves h).then fun _ => ?_
  exact (moves_given _ (comparisonNodes_moves h)).then fun _ => moves_skip 1 (moves_pure _)

theorem pseudoElementNode_moves :
    Moves ts ts' d lo (pseudoElementNode ts) (pseudoElementNode ts') :=
  moves_branch h _ (moves_skip 2 (anyNameNode_moves h).single)

/-! ## Pseudo-classes -/

theorem nthNodes_moves (close : Nat) :
    Moves ts ts' d lo (nthNodes ts close) (nthNodes ts' (d + close)) := by
  refine moves_collectTo (moves_cursor fun i _ => ?_) close
  refine moves_choose_starts _ (spacingNodes_moves h) ?_
  rw [h.isAny, h.is]
  split
  · exact (unaryNode_moves h).single
  · split
    · exact (moves_leaf h _ 1).single
    · exact (moves_leaf h _ 1).single

theorem pseudoArgumentNodes_moves (hlo : 0 < lo) (shape : PseudoShape) (close : Nat) :
    Moves ts ts' d lo (pseudoArgumentNodes ts shape close)
      (pseudoArgumentNodes ts' shape (d + close)) := by
  have hident : Moves ts ts' d lo (spacedIdentNodes ts) (spacedIdentNodes ts') :=
    (spacingNodes_moves h).then fun _ => (identNode_moves h).then fun _ =>
      (spacingNodes_moves h).then fun _ => moves_pure _
  cases shape with
  | selectors => exact moves_enter .selectors hlo
  | ident => exact hident
  | formula | multiple | offset | bare => exact nthNodes_moves h close

theorem pseudoArgumentsNode_moves (shape : PseudoShape) :
    Moves ts ts' d lo (pseudoArgumentsNode ts shape) (pseudoArgumentsNode ts' shape) := by
  refine moves_branch h _ (moves_cursor fun i _ => moves_skip 1 ?_)
  have hclose : (ts'.closer? (d + i) .leftParen).getD (d + i) =
      d + (ts.closer? i .leftParen).getD i := by
    rw [h.closer?]
    cases ts.closer? i .leftParen <;> rfl
  rw [hclose]
  exact (pseudoArgumentNodes_moves h (Nat.succ_pos i) shape _).then fun _ =>
    moves_skip 1 (moves_pure _)

theorem pseudoClassNode_moves : Moves ts ts' d lo (pseudoClassNode ts) (pseudoClassNode ts') := by
  refine moves_branch h _ (moves_ask _ fun found => moves_check (moves_skip 1 ?_))
  split
  · exact (anyNameNode_moves h).single
  · exact (identNode_moves h).then fun _ => (pseudoArgumentsNode_moves h _).then fun _ =>
      moves_pure _

/-! ## Compounds and selectors -/

theorem compoundNode_moves : Moves ts ts' d lo (compoundNode ts) (compoundNode ts') := by
  have hlead : Moves ts ts' d lo (compoundLeadNodes ts) (compoundLeadNodes ts') :=
    moves_choose_sees h (typeSelectorLength_later h) (typeSelectorNode_moves h).single
      (parentNodes_moves h)
  have hpseudo : Moves ts ts' d lo (pseudoNode ts) (pseudoNode ts') :=
    moves_choose_sees h (pseudoElementLength_later h) (pseudoElementNode_moves h)
      (pseudoClassNode_moves h)
  refine moves_branch h _ (moves_ask _ fun found => moves_check (moves_cursor fun i hi => ?_))
  refine (moves_given _ (hlead.from hi)).then fun _ => ?_
  rw [h.size]
  refine Moves.then (moves_collect ?_ _) fun _ => moves_cursor fun j _ => moves_check (moves_pure _)
  refine moves_choose_starts _ (idNode_moves h).round ?_
  refine moves_choose_starts _ (classNode_moves h).round ?_
  refine moves_choose_starts _ (attributeSelectorNode_moves h).round ?_
  exact moves_choose_sees h (pseudoLength_later h) (hpseudo.from hi).round (moves_pure _)

theorem combinatorNode_moves : Moves ts ts' d lo (combinatorNode ts) (combinatorNode ts') :=
  moves_leafOf h _ fun _ => rfl

theorem selectorNode_moves : Moves ts ts' d lo (selectorNode ts) (selectorNode ts') := by
  refine moves_branch h _ (moves_cursor fun i _ => moves_look h (fun _ => rfl) fun n => ?_)
  rw [Nat.add_assoc]
  refine moves_collectTo (moves_choose_starts _ (spacingNodes_moves h) ?_) _
  exact moves_choose_starts _ (combinatorNode_moves h).single (compoundNode_moves h).single

theorem commaListNodes_moves (stop : Nat) {element element' : Builder Node}
    (helement : Moves ts ts' d lo element element') :
    Moves ts ts' d lo (commaListNodes ts stop element) (commaListNodes ts' (d + stop) element') := by
  refine helement.then fun _ => Moves.then (moves_collectTo ?_ _) fun _ => moves_pure _
  refine (spacingNodes_moves h).then fun _ => (delimiterNode_moves h).then fun _ => ?_
  exact (spacingNodes_moves h).then fun _ => helement.then fun _ => moves_pure _

theorem selectorGroupNodes_moves :
    Moves ts ts' d lo (selectorGroupNodes ts) (selectorGroupNodes ts') := by
  refine moves_cursor fun i _ => moves_look h (fun _ => rfl) fun n => ?_
  rw [Nat.add_assoc]
  refine (commaListNodes_moves h _ (selectorNode_moves h)).then fun _ => ?_
  exact moves_cursor fun j _ => moves_check (moves_pure _)

/-! ## Rulesets and at-rules -/

theorem rulesetNode_moves : Moves ts ts' d lo (rulesetNode ts) (rulesetNode ts') :=
  moves_branch h _ ((selectorGroupNodes_moves h).then fun _ =>
    (spacingNodes_moves h).then fun _ => (blockNode_moves h).then fun _ => moves_pure _)

theorem keyframeSelectorNode_moves :
    Moves ts ts' d lo (keyframeSelectorNode ts) (keyframeSelectorNode ts') := by
  refine moves_branch h _ (moves_branch h _ (moves_ask _ fun a => ?_)).single
  split
  · exact (percentageNode_moves h).single
  · exact (identNode_moves h).single

theorem keyframeNode_moves : Moves ts ts' d lo (keyframeNode ts) (keyframeNode ts') := by
  refine moves_branch h _ (moves_cursor fun i _ => ?_)
  refine moves_look h (commaListLength_later h _) fun n => ?_
  rw [Nat.add_assoc]
  refine (commaListNodes_moves h _ (keyframeSelectorNode_moves h)).then fun _ => ?_
  exact (spacingNodes_moves h).then fun _ => (blockNode_moves h).then fun _ => moves_pure _

theorem keyframesInterior_moves (close : Nat) :
    Moves ts ts' d lo (keyframesInterior ts close) (keyframesInterior ts' (d + close)) :=
  moves_collectTo (moves_choose_starts _ (spacingNodes_moves h) (keyframeNode_moves h).single) close

theorem atRuleNode_moves (wm : ts.WellMarked) : Moves ts ts' d lo (atRuleNode ts) (atRuleNode ts') := by
  have hblock : ∀ {block block' : Builder Node}, Moves ts ts' d lo block block' →
      Moves ts ts' d lo (do return [← atKeywordNode ts] ++ (← preludeNodes ts) ++ [← block])
        (do return [← atKeywordNode ts'] ++ (← preludeNodes ts') ++ [← block']) := by
    intro block block' hblock
    exact (atKeywordNode_moves h).then fun _ => (preludeNodes_moves h wm).then fun _ =>
      hblock.then fun _ => moves_pure _
  refine moves_branch h _ (moves_ask _ fun a => ?_)
  split
  · exact moves_unexpected
  · refine (atKeywordNode_moves h).then fun _ => (spacingNodes_moves h).then fun _ => ?_
    refine (identNode_moves h).then fun _ => (spacingNodes_moves h).then fun _ => ?_
    exact (keyframeBlockNode_moves h).then fun _ => moves_pure _
  · exact hblock (ruleBlockNode_moves h)
  · exact hblock (blockNode_moves h)
  · exact (atKeywordNode_moves h).then fun _ => (preludeNodes_moves h wm).then fun _ =>
      moves_pure _

theorem rulesInterior_moves (wm : ts.WellMarked) (close : Nat) :
    Moves ts ts' d lo (rulesInterior ts close) (rulesInterior ts' (d + close)) := by
  refine moves_collectTo (moves_ask _ fun a => ?_) close
  split
  · exact moves_unexpected
  · exact spacingNodes_moves h
  · exact (atRuleNode_moves h wm).single
  · exact (rulesetNode_moves h).single

/-! ## Mixins, calls and extends -/

theorem conditionPartNodes_moves (part : ConditionPart) :
    Moves ts ts' d lo (conditionPartNodes ts part) (conditionPartNodes ts' part) := by
  cases part with
  | function => exact (functionNode_moves h).single
  | brackets => exact (bracketsNode_moves h).single
  | parentheses => exact (parenthesesNode_moves h).single
  | var => exact (varNode_moves h).single
  | ident => exact (identNode_moves h).single
  | number => exact (numberNode_moves h).single
  | delimiter => exact (delimiterNode_moves h).single
  | operator => exact (operatorNode_moves h).single
  | combinator => exact (combinatorNode_moves h).single
  | spacing => exact spacingNodes_moves h
  | string => exact (stringNode_moves h).single

theorem conditionNode_moves : Moves ts ts' d lo (conditionNode ts) (conditionNode ts') := by
  refine moves_branch h _ (moves_cursor fun i _ => moves_look h (fun _ => rfl) fun n => ?_)
  rw [Nat.add_assoc]
  refine (identNode_moves h).then fun _ => ?_
  refine Moves.then (moves_collectTo (moves_ask _ fun a => ?_) _) fun _ => moves_pure _
  split
  · exact conditionPartNodes_moves h _
  · exact moves_unexpected

theorem mixinCallNode_moves : Moves ts ts' d lo (mixinCallNode ts) (mixinCallNode ts') := by
  have htail : ∀ {lo}, Moves ts ts' d lo (callTailNodes ts) (callTailNodes ts') :=
    (argumentsNode_moves h).then fun _ => (spacingNodes_moves h).then fun _ =>
      (moves_optionally_starts _ (importantNode_moves h).single).then fun _ => moves_pure _
  refine moves_branch h _ (moves_ask _ fun a => ?_)
  split
  · exact moves_unexpected
  · refine moves_cursor fun i _ => moves_look h (callHeadLength_later h) fun n => ?_
    rw [Nat.add_assoc]
    refine Moves.then (moves_collectTo ?_ _) fun _ =>
      (moves_given _ htail).then fun _ => moves_pure _
    refine moves_choose_sees h (classOrIdLength_later d) (classOrIdNode_moves h).single ?_
    exact moves_choose_starts _ (spacingNodes_moves h) (operatorNode_moves h).single

theorem extendTargetNodes_moves (target : ExtendTarget) :
    Moves ts ts' d lo (extendTargetNodes ts target) (extendTargetNodes ts' target) := by
  cases target with
  | parentSelector => exact parentNodes_moves h
  | ident => exact (identNode_moves h).single
  | classSelector => exact (classNode_moves h).single
  | idSelector => exact (idNode_moves h).single

theorem extendNode_moves : Moves ts ts' d lo (extendNode ts) (extendNode ts') := by
  have hbody : Moves ts ts' d lo (spacedBlockNodes ts) (spacedBlockNodes ts') :=
    (spacingNodes_moves h).then fun _ => (blockNode_moves h).then fun _ => moves_pure _
  refine moves_branch h _ (moves_ask _ fun a => moves_ask _ fun b => ?_)
  split
  · exact (extendTargetNodes_moves h _).then fun _ => (pseudoClassNode_moves h).then fun _ =>
      (moves_given _ hbody).then fun _ => moves_pure _
  · exact moves_unexpected

/-! ## Statements -/

theorem blockItemNode_moves (wm : ts.WellMarked) :
    Moves ts ts' d lo (blockItemNode ts) (blockItemNode ts') := by
  refine moves_ask _ fun a => ?_
  split
  · exact moves_unexpected
  · exact conditionNode_moves h
  · exact extendNode_moves h
  · exact rulesetNode_moves h
  · exact declarationNode_moves h wm
  · exact atRuleNode_moves h wm
  · exact mixinCallNode_moves h

theorem blockChunkNodes_moves (wm : ts.WellMarked) (shape : ChunkShape) :
    Moves ts ts' d lo (blockChunkNodes ts shape) (blockChunkNodes ts' shape) := by
  refine (spacingNodes_moves h).then fun _ => ?_
  cases shape with
  | delimitedItem =>
    refine (blockItemNode_moves h wm).then fun _ => ?_
    exact (declarationDelimiterNode_moves h).then fun _ =>
      (spacingNodes_moves h).then fun _ => moves_pure _
  | item =>
    exact (blockItemNode_moves h wm).then fun _ => (spacingNodes_moves h).then fun _ =>
      moves_pure _
  | delimiter =>
    exact (declarationDelimiterNode_moves h).then fun _ =>
      (spacingNodes_moves h).then fun _ => moves_pure _
  | spacing => exact moves_pure _

theorem blockInterior_moves (wm : ts.WellMarked) (close : Nat) :
    Moves ts ts' d lo (blockInterior ts close) (blockInterior ts' (d + close)) := by
  refine moves_collectTo (moves_ask _ fun a => ?_) close
  split
  · exact blockChunkNodes_moves h wm _
  · exact moves_unexpected

theorem mixinBodyNodes_moves : Moves ts ts' d lo (mixinBodyNodes ts) (mixinBodyNodes ts') :=
  (spacingNodes_moves h).then fun _ =>
    (moves_optionally_starts _ (conditionNode_moves h).single).then fun _ =>
      (blockNode_moves h).then fun _ => moves_pure _

theorem mixinNode_moves : Moves ts ts' d lo (mixinNode ts) (mixinNode ts') := by
  refine moves_branch h _ (moves_ask _ fun a => ?_)
  split
  · exact moves_unexpected
  · exact (classOrIdNode_moves h).then fun _ => (spacingNodes_moves h).then fun _ =>
      (moves_optionally_starts _ (argumentsNode_moves h).single).then fun _ =>
        (moves_given _ (mixinBodyNodes_moves h)).then fun _ => moves_pure _

theorem sheetItemNodes_moves (wm : ts.WellMarked) (item : SheetItem) :
    Moves ts ts' d lo (sheetItemNodes ts item) (sheetItemNodes ts' item) := by
  cases item with
  | spacing => exact spacingNodes_moves h
  | varDeclaration => exact (declarationNode_moves h wm).single
  | atRule => exact (atRuleNode_moves h wm).single
  | extend => exact (extendNode_moves h).single
  | ruleset => exact (rulesetNode_moves h).single
  | mixin => exact (mixinNode_moves h).single
  | declaration => exact (declarationNode_moves h wm).single
  | declarationDelimiter => exact (declarationDelimiterNode_moves h).single

theorem stylesheetNode_moves (wm : ts.WellMarked) :
    Moves ts ts' d lo (stylesheetNode ts) (stylesheetNode ts') := by
  refine moves_branch h _ ?_
  rw [h.size]
  refine moves_collectTo (moves_ask _ fun a => ?_) _
  split
  · exact sheetItemNodes_moves h wm _
  · exact moves_unexpected

/-! ## Insides -/

theorem Interior.content_moves (wm : ts.WellMarked) (hlo : 0 < lo) (part : Interior) :
    Moves ts ts' d lo (part.content ts) ((part.later d).content ts') := by
  cases part with
  | group => exact preludeNodes_moves h wm
  | arguments close => exact argumentsInterior_moves h wm hlo close
  | block close => exact blockInterior_moves h wm close
  | rules close => exact rulesInterior_moves h wm close
  | keyframes close => exact keyframesInterior_moves h close
  | selectors => exact selectorGroupNodes_moves h
  | var => exact (varNode_moves h).single

theorem Interior.meaning_moved (wm : ts.WellMarked) (part : Interior) {i : Nat} (hi : 0 < i) :
    Plan.Moved d i (part.meaning ts i) ((part.later d).meaning ts' (d + i)) := by
  generalize hn : ts.size - i = n
  induction n using Nat.strongRecOn generalizing part i with
  | ind n ih =>
    rw [Interior.meaning, Interior.meaning.eq_def ts']
    refine Plan.Moves.run h (fun part' j hj => ?_) 
      (Interior.content_moves h wm hi part i (Nat.le_refl i))
    by_cases hin : i < j ∧ j ≤ ts.size
    · rw [dif_pos hin, dif_pos (by rw [h.size]; omega)]
      exact ih _ (by omega) part' hj rfl
    · rw [dif_neg hin, dif_neg (by rw [h.size]; omega), h.unexpected]
      exact .error _

/-- A builder makes the same of the tail of a stream as of the whole stream. -/
theorem Plan.Moves.eval (wm : ts.WellMarked) {α : Type} {p p' : Plan (α × Nat)} {m : Nat}
    (hp : p.Moves ts ts' d m p') : Plan.Moved d m (p.eval ts) (p'.eval ts') :=
  hp.run h fun part _ hj => Interior.meaning_moved h wm part hj

/-! ## Start symbols -/

/-- A start symbol that covers something is built in the tail of a stream as in the whole stream. -/
theorem Symbol.build_moves (wm : ts.WellMarked) (start : Symbol) {i : Nat}
    (hpos : 0 < (start.length ts i).eval ts) :
    (start.build ts i).Moves ts ts' d i (start.build ts' (d + i)) := by
  have hlead : 0 < i + (start.length ts i).eval ts := Nat.lt_of_lt_of_le hpos (Nat.le_add_left _ i)
  have here : ∀ {x x' : Builder Node}, Moves ts ts' d i x x' →
      (x i).Moves ts ts' d i (x' (d + i)) := fun hx => hx i (Nat.le_refl i)
  cases start with
  | arguments => exact here (argumentsNode_moves h)
  | atKeyword => exact here (atKeywordNode_moves h)
  | atRule => exact here (atRuleNode_moves h wm)
  | attributeSelector => exact here (attributeSelectorNode_moves h)
  | block => exact here (blockNode_moves h)
  | brackets => exact here (bracketsNode_moves h)
  | classSelector => exact here (classNode_moves h)
  | color => exact here (colorNode_moves h)
  | combinator => exact here (combinatorNode_moves h)
  | compoundSelector => exact here (compoundNode_moves h)
  | condition => exact here (conditionNode_moves h)
  | declaration => exact here (declarationNode_moves h wm)
  | dimension => exact here (dimensionNode_moves h)
  | escapedString => exact here (escapedStringNode_moves h)
  | expression => exact expressionNode_moves h hlead
  | extend => exact here (extendNode_moves h)
  | function => exact here (functionNode_moves h)
  | idSelector => exact here (idNode_moves h)
  | ident => exact here (identNode_moves h)
  | important => exact here (importantNode_moves h)
  | mixinCall => exact here (mixinCallNode_moves h)
  | interpolation => exact here (interpolationNode_moves h)
  | mixin => exact here (mixinNode_moves h)
  | blockComment => exact here (blockCommentNode_moves h)
  | number => exact here (numberNode_moves h)
  | parentheses => exact here (parenthesesNode_moves h)
  | percentage => exact here (percentageNode_moves h)
  | progid => exact here (progidNode_moves h)
  | property => exact here (propertyNode_moves h)
  | pseudoClass => exact here (pseudoClassNode_moves h)
  | pseudoElement => exact here (pseudoElementNode_moves h)
  | ruleset => exact here (rulesetNode_moves h)
  | selector => exact here (selectorNode_moves h)
  | lineComment => exact here (lineCommentNode_moves h)
  | space => exact here (spaceNode_moves h)
  | stylesheet => exact here (stylesheetNode_moves h wm)
  | typeSelector => exact here (typeSelectorNode_moves h)
  | uri => exact uriNode_moves h hlead
  | value => exact here (valueNode_moves h wm)
  | var => exact here (varNode_moves h)
  | varList => exact here (varListNode_moves h)
  | declarationDelimiter | delimiter | namespaceBar | operator | parentSelector
  | propertyDelimiter | string | unary => exact here (moves_leaf h _ 1)

end

end LessCss
