import LessCss.Proofs.Twins.Terms

/-! Two runs of the builders of selectors and statements, of every inside and of every start
symbol. -/

namespace LessCss

open Lookahead Builder Grammar Node

variable {texts : Bool} {room : Option Nat} {ts ts' : Tokens}

/-! ## Parts of compounds -/

theorem namespacePartNode_twins (h : ts.Twins texts ts') :
    MakeTwins texts room (namespacePartNode ts) (namespacePartNode ts') := by
  have hname : MakeTwins texts room
      (branch ts .namespaceName (single (choose (starts .ident) (identNode ts) (leaf ts .ident 1))))
      (branch ts' .namespaceName
        (single (choose (starts .ident) (identNode ts') (leaf ts' .ident 1)))) :=
    Pairs.branch rfl
      (pairs_choose_starts _ (identNode_twins h) (makeTwins_leaf h rfl 1)).single
  have hlead : YieldTwins texts room (namespaceNodes ts) (namespaceNodes ts') := by
    refine hname.then fun _ _ hname => pairs_cursor fun i => ?_
    rw [h.is]
    exact (pairs_given _ (blockCommentNode_twins h).single).then fun _ _ hcomment =>
      pairs_pure (hname.cons hcomment)
  refine Pairs.branch rfl (pairs_ask _ fun a => ?_)
  refine (pairs_given _ hlead).then fun _ _ hlead => ?_
  exact (makeTwins_leaf h rfl 1).then fun _ _ hbar => pairs_pure (hlead.append hbar.single)

theorem starOrIdentNode_twins (h : ts.Twins texts ts') :
    MakeTwins texts room (starOrIdentNode ts) (starOrIdentNode ts') := by
  refine pairs_cursor fun i => ?_
  rw [h.is]
  split
  · exact makeTwins_leaf h rfl 1
  · exact identNode_twins h

theorem typeSelectorNode_twins (h : ts.Twins texts ts') :
    MakeTwins texts room (typeSelectorNode ts) (typeSelectorNode ts') := by
  refine Pairs.branch rfl ?_
  refine (pairs_optionally_starts _ (namespacePartNode_twins h).single).then fun _ _ hspace => ?_
  exact (starOrIdentNode_twins h).then fun _ _ hname => pairs_pure (hspace.append hname.single)

theorem parentSuffixNode_twins (h : ts.Twins texts ts') :
    MakeTwins texts room (parentSuffixNode ts) (parentSuffixNode ts') := by
  refine Pairs.branch rfl (yieldTwins_collect ?_ h.size)
  refine pairs_choose_starts _ (numberNode_twins h).round ?_
  exact pairs_choose_starts _ (identNode_twins h).round pairs_round_none

theorem parentNodes_twins (h : ts.Twins texts ts') :
    YieldTwins texts room (parentNodes ts) (parentNodes ts') := by
  refine (makeTwins_leaf h rfl 1).then fun _ _ hparent => ?_
  exact (pairs_optionally_sees (parentSuffixLength_alike h.toAlike)
    (parentSuffixNode_twins h).single).then fun _ _ hsuffix => pairs_pure (hparent.cons hsuffix)

theorem attributeNameNode_twins (h : ts.Twins texts ts') :
    MakeTwins texts room (attributeNameNode ts) (attributeNameNode ts') := by
  refine Pairs.branch rfl (pairs_look rfl fun n => pairs_sees rfl fun named => ?_)
  refine (pairs_given _ (namespacePartNode_twins h).single).then fun _ _ hspace => ?_
  exact (identNode_twins h).then fun _ _ hname => pairs_pure (hspace.append hname.single)

theorem comparisonNodes_twins (h : ts.Twins texts ts') :
    YieldTwins texts room (comparisonNodes ts) (comparisonNodes ts') := by
  have hcomparator : MakeTwins texts room (comparatorNode ts) (comparatorNode ts') := by
    refine pairs_cursor fun i => ?_
    rw [comparatorLength_alike h.toAlike]
    exact makeTwins_leaf h rfl _
  have hvalue : MakeTwins texts room (attributeValueNode ts) (attributeValueNode ts') :=
    Pairs.branch rfl (pairs_choose_sees (stringLength_alike h.toAlike)
      (stringNode_twins h) (identNode_twins h)).single
  have hflags : YieldTwins texts room (attributeFlagsNodes ts) (attributeFlagsNodes ts') := by
    refine Pairs.then (Pairs.branch (k := .attributeFlags) rfl
      (identNode_twins h).single) fun _ _ hflags => ?_
    exact (spacingNodes_twins h).then fun _ _ hafter => pairs_pure (hflags.cons hafter)
  refine hcomparator.then fun _ _ hcomparator => ?_
  refine (spacingNodes_twins h).then fun _ _ hbefore => ?_
  refine hvalue.then fun _ _ hvalue => ?_
  refine (spacingNodes_twins h).then fun _ _ hafter => ?_
  refine (pairs_optionally_starts _ hflags).then fun _ _ hflags => pairs_pure ?_
  exact ((hcomparator.cons hbefore).append (hvalue.cons hafter)).append hflags

theorem attributeSelectorNode_twins (h : ts.Twins texts ts') :
    MakeTwins texts room (attributeSelectorNode ts) (attributeSelectorNode ts') := by
  refine Pairs.branch rfl (pairs_ask _ fun a => pairs_skip 1 ?_)
  refine (spacingNodes_twins h).then fun _ _ hbefore => ?_
  refine (attributeNameNode_twins h).then fun _ _ hname => ?_
  refine (spacingNodes_twins h).then fun _ _ hafter => ?_
  refine (pairs_given _ (comparisonNodes_twins h)).then fun _ _ hrest => pairs_skip 1 (pairs_pure ?_)
  exact (hbefore.append (hname.cons hafter)).append hrest

theorem pseudoElementNode_twins (h : ts.Twins texts ts') :
    MakeTwins texts room (pseudoElementNode ts) (pseudoElementNode ts') :=
  Pairs.branch rfl (pairs_skip 2 (anyNameNode_twins h).single)

/-! ## Pseudo-classes -/

theorem nthNodes_twins (h : ts.Twins texts ts') (close : Nat) :
    YieldTwins texts room (nthNodes ts close) (nthNodes ts' close) := by
  refine yieldTwins_collectTo (pairs_cursor fun i => ?_) rfl
  refine pairs_choose_starts _ (spacingNodes_twins h) ?_
  rw [h.isAny, h.is]
  split
  · exact (unaryNode_twins h).single
  · split
    · exact (makeTwins_leaf h rfl 1).single
    · exact (makeTwins_leaf h rfl 1).single

theorem pseudoArgumentNodes_twins (h : ts.Twins texts ts') (shape : PseudoShape) (close : Nat) :
    YieldTwins texts room (pseudoArgumentNodes ts shape close)
      (pseudoArgumentNodes ts' shape close) := by
  have hident : YieldTwins texts room (spacedIdentNodes ts) (spacedIdentNodes ts') := by
    refine (spacingNodes_twins h).then fun _ _ hbefore => ?_
    refine (identNode_twins h).then fun _ _ hname => ?_
    exact (spacingNodes_twins h).then fun _ _ hafter =>
      pairs_pure ((hbefore.append hname.single).append hafter)
  cases shape with
  | selectors => exact pairs_enter_flat rfl
  | ident => exact hident
  | formula | multiple | offset | bare => exact nthNodes_twins h close

/-- The arguments of a pseudo-class are no level below it. -/
theorem pseudoArgumentsNode_twins (h : ts.Twins texts ts') (shape : PseudoShape) :
    Pairs texts room
      (fun n n' => n.outline texts = n'.outline texts ∧ n.Shallow room (some .pseudoClass))
      (pseudoArgumentsNode ts shape) (pseudoArgumentsNode ts' shape) := by
  refine pairs_cursor fun i => Pairs.then (R := Node.Twins texts room) (pairs_cursor fun j => ?_)
    fun ns ns' hns => pairs_make ⟨?_, shallow_branch ?_ (fun c hc => (hns.shallow c hc).below _) _⟩
  · rw [h.closer?]
    exact pairs_skip 1 ((pseudoArgumentNodes_twins h shape _).then fun _ _ hns =>
      pairs_skip 1 (pairs_pure hns))
  · rw [Node.outline, Node.outline, hns.outline]
  · exact (congrFun Option.map_id_fun' room).symm

theorem pseudoClassNode_twins (h : ts.Twins texts ts') :
    MakeTwins texts room (pseudoClassNode ts) (pseudoClassNode ts') := by
  refine pairs_cursor fun i => Pairs.then
    (R := fun ns ns' => outlineAll texts ns = outlineAll texts ns' ∧
      ∀ n ∈ ns, n.Shallow room (some .pseudoClass)) ?_
    fun ns ns' hns => pairs_make ⟨?_, shallow_branch ?_ hns.2 _⟩
  · refine pairs_ask _ fun found => pairs_check _ (pairs_skip 1 ?_)
    split
    · refine (anyNameNode_twins h).then fun _ _ hname => pairs_pure ?_
      exact ⟨hname.single.outline, fun n hn => (hname.single.shallow n hn).below _⟩
    · refine (identNode_twins h).then fun _ _ hname => ?_
      refine (pseudoArgumentsNode_twins h _).then fun _ _ hargs => pairs_pure ⟨?_, ?_⟩
      · simp only [outlineAll, hname.outline, hargs.1]
      · exact List.forall_mem_cons.2 ⟨hname.shallow.below _, List.forall_mem_singleton.2 hargs.2⟩
  · rw [Node.outline, Node.outline, hns.1]
  · exact (congrFun Option.map_id_fun' room).symm

/-! ## Compounds and selectors -/

theorem compoundNode_twins (h : ts.Twins texts ts') :
    MakeTwins texts room (compoundNode ts) (compoundNode ts') := by
  have hlead : YieldTwins texts room (compoundLeadNodes ts) (compoundLeadNodes ts') :=
    pairs_choose_sees (typeSelectorLength_alike h.toAlike) (typeSelectorNode_twins h).single
      (parentNodes_twins h)
  have hpseudo : MakeTwins texts room (pseudoNode ts) (pseudoNode ts') :=
    pairs_choose_sees (pseudoElementLength_alike h.toAlike) (pseudoElementNode_twins h)
      (pseudoClassNode_twins h)
  refine Pairs.branch rfl (pairs_ask _ fun found => pairs_check _ ?_)
  refine pairs_cursor fun i => (pairs_given _ hlead).then fun _ _ hlead => ?_
  refine Pairs.then (yieldTwins_collect ?_ h.size) fun _ _ hparts =>
    pairs_cursor fun j => pairs_check _ (pairs_pure (hlead.append hparts))
  refine pairs_choose_starts _ (idNode_twins h).round ?_
  refine pairs_choose_starts _ (classNode_twins h).round ?_
  refine pairs_choose_starts _ (attributeSelectorNode_twins h).round ?_
  exact pairs_choose_sees (pseudoLength_alike h.toAlike) hpseudo.round pairs_round_none

theorem selectorNode_twins (h : ts.Twins texts ts') :
    MakeTwins texts room (selectorNode ts) (selectorNode ts') := by
  refine Pairs.branch rfl (pairs_cursor fun i => pairs_look rfl fun n => ?_)
  refine yieldTwins_collectTo (pairs_choose_starts _ (spacingNodes_twins h) ?_) rfl
  exact pairs_choose_starts _ (makeTwins_leafOf h rfl rfl).single (compoundNode_twins h).single

theorem commaListNodes_twins (h : ts.Twins texts ts') (stop : Nat) {element element' : Builder Node}
    (helement : MakeTwins texts room element element') :
    YieldTwins texts room (commaListNodes ts stop element) (commaListNodes ts' stop element') := by
  refine helement.then fun _ _ hfirst => Pairs.then (yieldTwins_collectTo ?_ rfl) fun _ _ hrest =>
    pairs_pure (hfirst.cons hrest)
  refine (spacingNodes_twins h).then fun _ _ hbefore => ?_
  refine (delimiterNode_twins h).then fun _ _ hcomma => ?_
  refine (spacingNodes_twins h).then fun _ _ hafter => ?_
  refine helement.then fun _ _ helement => pairs_pure ?_
  exact ((hbefore.append hcomma.single).append hafter).append helement.single

theorem selectorGroupNodes_twins (h : ts.Twins texts ts') :
    YieldTwins texts room (selectorGroupNodes ts) (selectorGroupNodes ts') := by
  refine pairs_cursor fun i => pairs_look rfl fun n => ?_
  refine (commaListNodes_twins h _ (selectorNode_twins h)).then fun _ _ hnodes => ?_
  exact pairs_cursor fun j => pairs_check _ (pairs_pure hnodes)

/-! ## Rulesets and at-rules -/

theorem rulesetNode_twins (h : ts.Twins texts ts') :
    MakeTwins texts room (rulesetNode ts) (rulesetNode ts') := by
  refine Pairs.branch rfl ((selectorGroupNodes_twins h).then fun _ _ hgroup => ?_)
  refine (spacingNodes_twins h).then fun _ _ hgap => ?_
  exact (blockNode_twins h).then fun _ _ hblock =>
    pairs_pure ((hgroup.append hgap).append hblock.single)

theorem keyframeSelectorNode_twins (h : ts.Twins texts ts') :
    MakeTwins texts room (keyframeSelectorNode ts) (keyframeSelectorNode ts') := by
  refine Pairs.branch rfl (Pairs.branch rfl (pairs_ask _ fun a => ?_)).single
  split
  · exact (percentageNode_twins h).single
  · exact (identNode_twins h).single

theorem keyframeNode_twins (h : ts.Twins texts ts') :
    MakeTwins texts room (keyframeNode ts) (keyframeNode ts') := by
  refine Pairs.branch rfl (pairs_cursor fun i => ?_)
  refine pairs_look (commaListLength_alike h.toAlike _) fun n => ?_
  refine (commaListNodes_twins h _ (keyframeSelectorNode_twins h)).then fun _ _ hgroup => ?_
  refine (spacingNodes_twins h).then fun _ _ hgap => ?_
  exact (blockNode_twins h).then fun _ _ hblock =>
    pairs_pure ((hgroup.append hgap).append hblock.single)

theorem keyframesInterior_twins (h : ts.Twins texts ts') (close : Nat) :
    YieldTwins texts room (keyframesInterior ts close) (keyframesInterior ts' close) :=
  yieldTwins_collectTo
    (pairs_choose_starts _ (spacingNodes_twins h) (keyframeNode_twins h).single) rfl

theorem atRuleNode_twins (h : ts.Twins texts ts') :
    MakeTwins texts room (atRuleNode ts) (atRuleNode ts') := by
  have hblock : ∀ {block block' : Builder Node}, MakeTwins texts room block block' →
      YieldTwins texts room
        (do return [← atKeywordNode ts] ++ (← preludeNodes ts) ++ [← block])
        (do return [← atKeywordNode ts'] ++ (← preludeNodes ts') ++ [← block']) := by
    intro block block' hblock
    refine (atKeywordNode_twins h).then fun _ _ hkeyword => ?_
    refine (preludeNodes_twins h).then fun _ _ hhead => ?_
    exact hblock.then fun _ _ hblock =>
      pairs_pure ((hkeyword.single.append hhead).append hblock.single)
  refine Pairs.branch rfl (pairs_ask _ fun a => ?_)
  split
  · exact pairs_unexpected
  · refine (atKeywordNode_twins h).then fun _ _ hkeyword => ?_
    refine (spacingNodes_twins h).then fun _ _ hbefore => ?_
    refine (identNode_twins h).then fun _ _ hname => ?_
    refine (spacingNodes_twins h).then fun _ _ hafter => ?_
    refine (keyframeBlockNode_twins h).then fun _ _ hblock => pairs_pure ?_
    exact (((hkeyword.single.append hbefore).append hname.single).append hafter).append hblock.single
  · exact hblock (ruleBlockNode_twins h)
  · exact hblock (blockNode_twins h)
  · refine (atKeywordNode_twins h).then fun _ _ hkeyword => ?_
    exact (preludeNodes_twins h).then fun _ _ hhead => pairs_pure (hkeyword.single.append hhead)

theorem rulesInterior_twins (h : ts.Twins texts ts') (close : Nat) :
    YieldTwins texts room (rulesInterior ts close) (rulesInterior ts' close) := by
  refine yieldTwins_collectTo (pairs_ask _ fun a => ?_) rfl
  split
  · exact pairs_unexpected
  · exact spacingNodes_twins h
  · exact (atRuleNode_twins h).single
  · exact (rulesetNode_twins h).single

/-! ## Mixins, calls and extends -/

theorem conditionPartNodes_twins (h : ts.Twins texts ts') (part : ConditionPart) :
    YieldTwins texts room (conditionPartNodes ts part) (conditionPartNodes ts' part) := by
  cases part with
  | function => exact (functionNode_twins h).single
  | brackets => exact (bracketsNode_twins h).single
  | parentheses => exact (parenthesesNode_twins h).single
  | var => exact (varNode_twins h).single
  | ident => exact (identNode_twins h).single
  | number => exact (numberNode_twins h).single
  | delimiter => exact (delimiterNode_twins h).single
  | operator => exact (operatorNode_twins h).single
  | combinator => exact (makeTwins_leafOf h rfl rfl).single
  | spacing => exact spacingNodes_twins h
  | string => exact (stringNode_twins h).single

theorem conditionNode_twins (h : ts.Twins texts ts') :
    MakeTwins texts room (conditionNode ts) (conditionNode ts') := by
  refine Pairs.branch rfl (pairs_cursor fun i => pairs_look rfl fun n => ?_)
  refine (identNode_twins h).then fun _ _ hfirst => ?_
  refine Pairs.then (yieldTwins_collectTo (pairs_ask _ fun a => ?_) rfl) fun _ _ hrest =>
    pairs_pure (hfirst.cons hrest)
  split
  · exact conditionPartNodes_twins h _
  · exact pairs_unexpected

theorem mixinBodyNodes_twins (h : ts.Twins texts ts') :
    YieldTwins texts room (mixinBodyNodes ts) (mixinBodyNodes ts') := by
  refine (spacingNodes_twins h).then fun _ _ hgap => ?_
  refine (pairs_optionally_starts _ (conditionNode_twins h).single).then fun _ _ hguard => ?_
  exact (blockNode_twins h).then fun _ _ hblock =>
    pairs_pure ((hgap.append hguard).append hblock.single)

theorem mixinNode_twins (h : ts.Twins texts ts') :
    MakeTwins texts room (mixinNode ts) (mixinNode ts') := by
  refine Pairs.branch rfl (pairs_ask _ fun a => ?_)
  split
  · exact pairs_unexpected
  · refine (classOrIdNode_twins h).then fun _ _ hname => ?_
    refine (spacingNodes_twins h).then fun _ _ hgap => ?_
    refine (pairs_optionally_starts _ (argumentsNode_twins h).single).then fun _ _ hargs => ?_
    exact (pairs_given _ (mixinBodyNodes_twins h)).then fun _ _ hbody =>
      pairs_pure (((hname.cons hgap).append hargs).append hbody)

theorem mixinCallNode_twins (h : ts.Twins texts ts') :
    MakeTwins texts room (mixinCallNode ts) (mixinCallNode ts') := by
  have htail : YieldTwins texts room (callTailNodes ts) (callTailNodes ts') := by
    refine (argumentsNode_twins h).then fun _ _ hargs => ?_
    refine (spacingNodes_twins h).then fun _ _ hgap => ?_
    exact (pairs_optionally_starts _ (importantNode_twins h).single).then fun _ _ himportant =>
      pairs_pure ((hargs.cons hgap).append himportant)
  refine Pairs.branch rfl (pairs_ask _ fun a => ?_)
  split
  · exact pairs_unexpected
  · refine pairs_cursor fun i => pairs_look (callHeadLength_alike h.toAlike) fun n => ?_
    refine Pairs.then (yieldTwins_collectTo ?_ rfl) fun _ _ hhead =>
      (pairs_given _ htail).then fun _ _ htail => pairs_pure (hhead.append htail)
    refine pairs_choose_sees rfl (classOrIdNode_twins h).single ?_
    exact pairs_choose_starts _ (spacingNodes_twins h) (operatorNode_twins h).single

theorem extendTargetNodes_twins (h : ts.Twins texts ts') (target : ExtendTarget) :
    YieldTwins texts room (extendTargetNodes ts target) (extendTargetNodes ts' target) := by
  cases target with
  | parentSelector => exact parentNodes_twins h
  | ident => exact (identNode_twins h).single
  | classSelector => exact (classNode_twins h).single
  | idSelector => exact (idNode_twins h).single

theorem extendNode_twins (h : ts.Twins texts ts') :
    MakeTwins texts room (extendNode ts) (extendNode ts') := by
  have hbody : YieldTwins texts room (spacedBlockNodes ts) (spacedBlockNodes ts') :=
    (spacingNodes_twins h).then fun _ _ hgap => (blockNode_twins h).then fun _ _ hblock =>
      pairs_pure (hgap.append hblock.single)
  refine Pairs.branch rfl (pairs_ask _ fun a => pairs_ask _ fun b => ?_)
  split
  · refine (extendTargetNodes_twins h _).then fun _ _ hlead => ?_
    refine (pseudoClassNode_twins h).then fun _ _ hpseudo => ?_
    exact (pairs_given _ hbody).then fun _ _ hbody =>
      pairs_pure (hlead.append (hpseudo.cons hbody))
  · exact pairs_unexpected

/-! ## Statements -/

theorem blockItemNode_twins (h : ts.Twins texts ts') :
    MakeTwins texts room (blockItemNode ts) (blockItemNode ts') := by
  refine pairs_ask _ fun a => ?_
  split
  · exact pairs_unexpected
  · exact conditionNode_twins h
  · exact extendNode_twins h
  · exact rulesetNode_twins h
  · exact declarationNode_twins h
  · exact atRuleNode_twins h
  · exact mixinCallNode_twins h

theorem blockChunkNodes_twins (h : ts.Twins texts ts') (shape : ChunkShape) :
    YieldTwins texts room (blockChunkNodes ts shape) (blockChunkNodes ts' shape) := by
  refine (spacingNodes_twins h).then fun _ _ hleading => ?_
  cases shape with
  | delimitedItem =>
    refine (blockItemNode_twins h).then fun _ _ hitem => ?_
    refine (declarationDelimiterNode_twins h).then fun _ _ hdelimiter => ?_
    exact (spacingNodes_twins h).then fun _ _ htrailing =>
      pairs_pure (((hleading.append hitem.single).append hdelimiter.single).append htrailing)
  | item =>
    refine (blockItemNode_twins h).then fun _ _ hitem => ?_
    exact (spacingNodes_twins h).then fun _ _ htrailing =>
      pairs_pure ((hleading.append hitem.single).append htrailing)
  | delimiter =>
    refine (declarationDelimiterNode_twins h).then fun _ _ hdelimiter => ?_
    exact (spacingNodes_twins h).then fun _ _ htrailing =>
      pairs_pure ((hleading.append hdelimiter.single).append htrailing)
  | spacing => exact pairs_pure hleading

theorem blockInterior_twins (h : ts.Twins texts ts') (close : Nat) :
    YieldTwins texts room (blockInterior ts close) (blockInterior ts' close) := by
  refine yieldTwins_collectTo (pairs_ask _ fun a => ?_) rfl
  split
  · exact blockChunkNodes_twins h _
  · exact pairs_unexpected

theorem sheetItemNodes_twins (h : ts.Twins texts ts') (item : SheetItem) :
    YieldTwins texts room (sheetItemNodes ts item) (sheetItemNodes ts' item) := by
  cases item with
  | spacing => exact spacingNodes_twins h
  | varDeclaration => exact (declarationNode_twins h).single
  | atRule => exact (atRuleNode_twins h).single
  | extend => exact (extendNode_twins h).single
  | ruleset => exact (rulesetNode_twins h).single
  | mixin => exact (mixinNode_twins h).single
  | declaration => exact (declarationNode_twins h).single
  | declarationDelimiter => exact (declarationDelimiterNode_twins h).single

theorem stylesheetNode_twins (h : ts.Twins texts ts') :
    MakeTwins texts room (stylesheetNode ts) (stylesheetNode ts') := by
  refine Pairs.branch rfl (yieldTwins_collectTo (pairs_ask _ fun a => ?_) h.size)
  split
  · exact sheetItemNodes_twins h _
  · exact pairs_unexpected

/-! ## Insides and start symbols -/

theorem Interior.content_twins (h : ts.Twins texts ts') (part : Interior) :
    YieldTwins texts room (part.content ts) (part.content ts') := by
  cases part with
  | group => exact preludeNodes_twins h
  | arguments close => exact argumentsInterior_twins h close
  | block close => exact blockInterior_twins h close
  | rules close => exact rulesInterior_twins h close
  | keyframes close => exact keyframesInterior_twins h close
  | selectors => exact selectorGroupNodes_twins h
  | var => exact (varNode_twins h).single

theorem Symbol.build_twins (h : ts.Twins texts ts') (start : Symbol) :
    MakeTwins texts room (start.build ts) (start.build ts') := by
  cases start with
  | arguments => exact argumentsNode_twins h
  | atKeyword => exact atKeywordNode_twins h
  | atRule => exact atRuleNode_twins h
  | attributeSelector => exact attributeSelectorNode_twins h
  | block => exact blockNode_twins h
  | brackets => exact bracketsNode_twins h
  | classSelector => exact classNode_twins h
  | color => exact colorNode_twins h
  | combinator => exact makeTwins_leafOf h rfl rfl
  | compoundSelector => exact compoundNode_twins h
  | condition => exact conditionNode_twins h
  | declaration => exact declarationNode_twins h
  | declarationDelimiter => exact declarationDelimiterNode_twins h
  | delimiter => exact delimiterNode_twins h
  | dimension => exact dimensionNode_twins h
  | escapedString => exact escapedStringNode_twins h
  | expression => exact expressionNode_twins h
  | extend => exact extendNode_twins h
  | function => exact functionNode_twins h
  | idSelector => exact idNode_twins h
  | ident => exact identNode_twins h
  | important => exact importantNode_twins h
  | mixinCall => exact mixinCallNode_twins h
  | interpolation => exact interpolationNode_twins h
  | mixin => exact mixinNode_twins h
  | blockComment => exact blockCommentNode_twins h
  | namespaceBar => exact makeTwins_leaf h rfl 1
  | number => exact numberNode_twins h
  | operator => exact operatorNode_twins h
  | parentheses => exact parenthesesNode_twins h
  | parentSelector => exact makeTwins_leaf h rfl 1
  | percentage => exact percentageNode_twins h
  | progid => exact progidNode_twins h
  | property => exact propertyNode_twins h
  | propertyDelimiter => exact makeTwins_leaf h rfl 1
  | pseudoClass => exact pseudoClassNode_twins h
  | pseudoElement => exact pseudoElementNode_twins h
  | ruleset => exact rulesetNode_twins h
  | selector => exact selectorNode_twins h
  | lineComment => exact lineCommentNode_twins h
  | space => exact spaceNode_twins h
  | string => exact stringNode_twins h
  | stylesheet => exact stylesheetNode_twins h
  | typeSelector => exact typeSelectorNode_twins h
  | unary => exact unaryNode_twins h
  | uri => exact uriNode_twins h
  | value => exact valueNode_twins h
  | var => exact varNode_twins h
  | varList => exact varListNode_twins h

end LessCss
