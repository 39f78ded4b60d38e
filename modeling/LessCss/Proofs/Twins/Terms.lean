import LessCss.Proofs.Twins

/-! Two runs of the builders of terms: spacing, names, literals, groups, values, declarations and
argument lists. -/

namespace LessCss

open Lookahead Builder Grammar Node

variable {texts : Bool} {room : Option Nat} {ts ts' : Tokens}

/-! ## Spacing -/

theorem spaceNode_twins (h : ts.Twins texts ts') :
    MakeTwins texts room (spaceNode ts) (spaceNode ts') :=
  makeTwins_leafOf h rfl (spaceLength_alike h.toAlike)

theorem blockCommentNode_twins (h : ts.Twins texts ts') :
    MakeTwins texts room (blockCommentNode ts) (blockCommentNode ts') := by
  refine pairs_cursor fun i => pairs_skip 1 (pairs_make (twin_leaf rfl (fun ht => ?_) _ _))
  rw [h.text ht]

theorem lineCommentNode_twins (h : ts.Twins texts ts') :
    MakeTwins texts room (lineCommentNode ts) (lineCommentNode ts') := by
  refine pairs_cursor fun i => pairs_skip 1 (pairs_make (twin_leaf rfl (fun ht => ?_) _ _))
  rw [h.text ht]

theorem spacingNodes_twins (h : ts.Twins texts ts') :
    YieldTwins texts room (spacingNodes ts) (spacingNodes ts') := by
  refine yieldTwins_collect (pairs_cursor fun i => ?_) h.size
  rw [h.kind?]
  split
  · exact (spaceNode_twins h).round
  · exact (spaceNode_twins h).round
  · exact (spaceNode_twins h).round
  · exact (blockCommentNode_twins h).round
  · exact (lineCommentNode_twins h).round
  · exact pairs_round_none

/-! ## Names -/

theorem identNode_twins (h : ts.Twins texts ts') :
    MakeTwins texts room (identNode ts) (identNode ts') :=
  pairs_look rfl fun n => pairs_check _ (makeTwins_leaf h rfl n)

theorem interpolationNode_twins (h : ts.Twins texts ts') :
    MakeTwins texts room (interpolationNode ts) (interpolationNode ts') := by
  refine Pairs.branch rfl (pairs_skip 2 ?_)
  exact (identNode_twins h).then fun _ _ hn => pairs_skip 1 (pairs_pure hn.single)

theorem varNode_twins (h : ts.Twins texts ts') :
    MakeTwins texts room (varNode ts) (varNode ts') := by
  refine Pairs.branch rfl (pairs_skip 1 (pairs_choose_starts .var ?_ ?_))
  · exact pairs_enter_flat rfl
  · exact (identNode_twins h).single

theorem varListNode_twins (h : ts.Twins texts ts') :
    MakeTwins texts room (varListNode ts) (varListNode ts') := by
  refine Pairs.branch rfl ?_
  exact (varNode_twins h).then fun _ _ hn => pairs_skip 3 (pairs_pure hn.single)

theorem atKeywordNode_twins (h : ts.Twins texts ts') :
    MakeTwins texts room (atKeywordNode ts) (atKeywordNode ts') :=
  Pairs.branch rfl (pairs_skip 1 (identNode_twins h).single)

theorem nameNode_twins (h : ts.Twins texts ts') (form : Name) :
    MakeTwins texts room (nameNode ts form) (nameNode ts' form) := by
  cases form with
  | interpolation => exact interpolationNode_twins h
  | ident => exact identNode_twins h

theorem anyNameNode_twins (h : ts.Twins texts ts') :
    MakeTwins texts room (anyNameNode ts) (anyNameNode ts') :=
  pairs_choose_starts _ (interpolationNode_twins h) (identNode_twins h)

theorem classNode_twins (h : ts.Twins texts ts') :
    MakeTwins texts room (classNode ts) (classNode ts') :=
  Pairs.branch rfl (pairs_ask _ fun _ => pairs_skip 1 (nameNode_twins h _).single)

theorem idNode_twins (h : ts.Twins texts ts') :
    MakeTwins texts room (idNode ts) (idNode ts') :=
  Pairs.branch rfl (pairs_ask _ fun _ => pairs_skip 1 (nameNode_twins h _).single)

theorem classOrIdNode_twins (h : ts.Twins texts ts') :
    MakeTwins texts room (classOrIdNode ts) (classOrIdNode ts') :=
  pairs_choose_starts _ (classNode_twins h) (idNode_twins h)

/-! ## Literals -/

theorem numberNode_twins (h : ts.Twins texts ts') :
    MakeTwins texts room (numberNode ts) (numberNode ts') := makeTwins_leafOf h rfl rfl

theorem dimensionNode_twins (h : ts.Twins texts ts') :
    MakeTwins texts room (dimensionNode ts) (dimensionNode ts') := by
  refine Pairs.branch rfl ((numberNode_twins h).then fun _ _ hnumber => ?_)
  refine pairs_cursor fun i => ?_
  rw [unitLength_alike h.toAlike]
  refine (makeTwins_leaf h rfl _).then fun _ _ hunit => ?_
  exact pairs_pure (hnumber.cons hunit.single)

theorem percentageNode_twins (h : ts.Twins texts ts') :
    MakeTwins texts room (percentageNode ts) (percentageNode ts') := by
  refine Pairs.branch rfl ?_
  exact (numberNode_twins h).then fun _ _ hn => pairs_skip 1 (pairs_pure hn.single)

theorem stringNode_twins (h : ts.Twins texts ts') :
    MakeTwins texts room (stringNode ts) (stringNode ts') := makeTwins_leaf h rfl 1

theorem escapedStringNode_twins (h : ts.Twins texts ts') :
    MakeTwins texts room (escapedStringNode ts) (escapedStringNode ts') :=
  pairs_cursor fun _ => pairs_skip 2 (pairs_make (twin_leaf rfl (h.text · _) _ _))

theorem unaryNode_twins (h : ts.Twins texts ts') :
    MakeTwins texts room (unaryNode ts) (unaryNode ts') := makeTwins_leaf h rfl 1

theorem operatorNode_twins (h : ts.Twins texts ts') :
    MakeTwins texts room (operatorNode ts) (operatorNode ts') := makeTwins_leaf h rfl 1

theorem delimiterNode_twins (h : ts.Twins texts ts') :
    MakeTwins texts room (delimiterNode ts) (delimiterNode ts') := makeTwins_leaf h rfl 1

theorem declarationDelimiterNode_twins (h : ts.Twins texts ts') :
    MakeTwins texts room (declarationDelimiterNode ts) (declarationDelimiterNode ts') :=
  makeTwins_leaf h rfl 1

theorem importantNode_twins (h : ts.Twins texts ts') :
    MakeTwins texts room (importantNode ts) (importantNode ts') := makeTwins_leafOf h rfl rfl

theorem colorNode_twins (h : ts.Twins texts ts') :
    MakeTwins texts room (colorNode ts) (colorNode ts') := by
  refine pairs_cursor fun i => ?_
  rw [unitLength_alike h.toAlike]
  exact pairs_skip _ (pairs_make (twin_leaf rfl (h.join · _ _) _ _))

/-! ## Groups -/

/-- What stands in brackets is the inside. -/
theorem pairs_enclosed {closer? closer?' : Nat → Option Nat}
    (hcloser : ∀ i, closer? i = closer?' i) {R : List Node → List Node → Prop}
    {inner : Nat → Builder (List Node)} (h : ∀ close, Pairs texts room R (inner close) (inner close)) :
    Pairs texts room R (enclosed closer? inner) (enclosed closer?' inner) := by
  refine pairs_cursor fun i => ?_
  rw [hcloser]
  split
  · exact pairs_skip 1 ((h _).then fun _ _ hns => pairs_skip 1 (pairs_pure hns))
  · exact pairs_unexpected

theorem pairs_filling {part : Nat → Interior} (hpart : ∀ close, (part close).nests = true)
    (close : Nat) :
    Pairs texts room (Node.TwinsInside texts room) (filling part close) (filling part close) :=
  (pairs_enter (hpart close)).then fun _ _ hns => pairs_expectAt close (pairs_pure hns)

theorem groupNode_twins (h : ts.Twins texts ts') {k : Node.Kind}
    (hk : k.groups none = true) :
    MakeTwins texts room (groupNode ts k) (groupNode ts' k) :=
  makeTwins_group hk (pairs_enclosed h.closer (pairs_filling fun _ => rfl))

theorem parenthesesNode_twins (h : ts.Twins texts ts') :
    MakeTwins texts room (parenthesesNode ts) (parenthesesNode ts') :=
  groupNode_twins h rfl

theorem bracketsNode_twins (h : ts.Twins texts ts') :
    MakeTwins texts room (bracketsNode ts) (bracketsNode ts') := groupNode_twins h rfl

theorem argumentsNode_twins (h : ts.Twins texts ts') :
    MakeTwins texts room (argumentsNode ts) (argumentsNode ts') :=
  makeTwins_group rfl
    (pairs_enclosed (fun i => h.closer? i _) (pairs_filling fun _ => rfl))

theorem blockNode_twins (h : ts.Twins texts ts') :
    MakeTwins texts room (blockNode ts) (blockNode ts') :=
  makeTwins_group rfl
    (pairs_enclosed (fun i => h.closer? i _) (pairs_filling fun _ => rfl))

theorem ruleBlockNode_twins (h : ts.Twins texts ts') :
    MakeTwins texts room (ruleBlockNode ts) (ruleBlockNode ts') :=
  makeTwins_group rfl
    (pairs_enclosed (fun i => h.closer? i _) fun _ => pairs_enter rfl)

theorem keyframeBlockNode_twins (h : ts.Twins texts ts') :
    MakeTwins texts room (keyframeBlockNode ts) (keyframeBlockNode ts') :=
  makeTwins_group rfl
    (pairs_enclosed (fun i => h.closer? i _) fun _ => pairs_enter rfl)

/-! ## Addresses, expressions and filters -/

theorem rawNode_twins (h : ts.Twins texts ts') (close : Nat) :
    MakeTwins texts room (rawNode ts close) (rawNode ts' close) := by
  refine pairs_cursor fun i => ?_
  rw [rawEnd_alike h.toAlike]
  exact pairs_moveTo _ (pairs_make (twin_leaf rfl (h.join · _ _) _ _))

theorem uriNode_twins (h : ts.Twins texts ts') :
    MakeTwins texts room (uriNode ts) (uriNode ts') := by
  refine Pairs.branch rfl ?_
  refine pairs_look (congrArg lastToken (uriLength_alike h.toAlike)) fun close => pairs_skip 2 ?_
  refine (spacingNodes_twins h).then fun _ _ hbefore => ?_
  refine (pairs_choose_sees (stringLength_alike h.toAlike) (stringNode_twins h)
    (rawNode_twins h close)).then fun _ _ hbody => ?_
  refine (spacingNodes_twins h).then fun _ _ hafter => pairs_expectAt close (pairs_skip 1 ?_)
  exact pairs_pure ((hbefore.append hbody.single).append hafter)

theorem expressionNode_twins (h : ts.Twins texts ts') :
    MakeTwins texts room (expressionNode ts) (expressionNode ts') := by
  refine pairs_cursor fun i => ?_
  refine pairs_look (congrArg lastToken (expressionLength_alike h.toAlike)) fun close => ?_
  exact pairs_moveTo _ (pairs_make (twin_leaf rfl (h.join · _ _) _ _))

theorem progidNode_twins (h : ts.Twins texts ts') :
    MakeTwins texts room (progidNode ts) (progidNode ts') := makeTwins_leafOf h rfl rfl

/-! ## Values -/

theorem functionNode_twins (h : ts.Twins texts ts') :
    MakeTwins texts room (functionNode ts) (functionNode ts') := by
  refine Pairs.branch rfl ((identNode_twins h).then fun _ _ hname => ?_)
  exact (argumentsNode_twins h).then fun _ _ harguments =>
    pairs_pure (hname.cons harguments.single)

theorem fragmentNode_twins (h : ts.Twins texts ts') :
    MakeTwins texts room (fragmentNode ts) (fragmentNode ts') := by
  refine pairs_ask _ fun a => ?_
  split
  · exact pairs_unexpected
  · exact bracketsNode_twins h
  · exact parenthesesNode_twins h
  · exact stringNode_twins h
  · exact varListNode_twins h
  · exact varNode_twins h
  · exact percentageNode_twins h
  · exact dimensionNode_twins h
  · exact numberNode_twins h
  · exact uriNode_twins h
  · exact expressionNode_twins h
  · exact functionNode_twins h
  · exact identNode_twins h
  · exact classNode_twins h
  · exact unaryNode_twins h

theorem preludePartNodes_twins (h : ts.Twins texts ts') (part : PreludePart) :
    YieldTwins texts room (preludePartNodes ts part) (preludePartNodes ts' part) := by
  cases part with
  | color => exact (colorNode_twins h).single
  | fragment => exact (fragmentNode_twins h).single
  | spacing => exact spacingNodes_twins h
  | operator => exact (operatorNode_twins h).single

theorem preludeNodes_twins (h : ts.Twins texts ts') :
    YieldTwins texts room (preludeNodes ts) (preludeNodes ts') := by
  refine yieldTwins_collect (pairs_ask _ fun a => ?_) h.size
  split
  · exact (preludePartNodes_twins h _).then fun _ _ hns => pairs_pure (.mk hns rfl)
  · exact pairs_round_none

theorem valuePartNode_twins (h : ts.Twins texts ts') (part : ValuePart) :
    MakeTwins texts room (valuePartNode ts part) (valuePartNode ts' part) := by
  cases part with
  | escapedString => exact escapedStringNode_twins h
  | interpolation => exact interpolationNode_twins h
  | var => exact varNode_twins h
  | color => exact colorNode_twins h
  | block => exact blockNode_twins h
  | progid => exact progidNode_twins h
  | fragment => exact fragmentNode_twins h
  | atKeyword => exact atKeywordNode_twins h
  | operator => exact operatorNode_twins h
  | important => exact importantNode_twins h

theorem valueNode_twins (h : ts.Twins texts ts') :
    MakeTwins texts room (valueNode ts) (valueNode ts') := by
  refine Pairs.branch rfl (yieldTwins_collect ?_ h.size)
  refine pairs_look rfl fun n => pairs_askAhead _ n fun a => ?_
  split
  · refine (spacingNodes_twins h).then fun _ _ hbefore => ?_
    exact (valuePartNode_twins h _).then fun _ _ hpart =>
      pairs_pure (.mk (hbefore.append hpart.single) rfl)
  · exact pairs_round_none

/-! ## Declarations and arguments -/

theorem propertyNode_twins (h : ts.Twins texts ts') :
    MakeTwins texts room (propertyNode ts) (propertyNode ts') :=
  Pairs.branch rfl
    (pairs_choose_starts _ (varNode_twins h) (identNode_twins h)).single

theorem declarationNode_twins (h : ts.Twins texts ts') :
    MakeTwins texts room (declarationNode ts) (declarationNode ts') := by
  refine Pairs.branch rfl ((propertyNode_twins h).then fun _ _ hproperty => ?_)
  refine (spacingNodes_twins h).then fun _ _ hbefore => ?_
  refine (makeTwins_leaf h rfl 1).then fun _ _ hcolon => ?_
  refine (spacingNodes_twins h).then fun _ _ hafter => ?_
  refine (valueNode_twins h).then fun _ _ hvalue => pairs_pure ?_
  exact (((hproperty.single.append hbefore).append hcolon.single).append hafter).append hvalue.single

theorem argumentNodes_twins (h : ts.Twins texts ts') (part : Argument) :
    YieldTwins texts room (argumentNodes ts part) (argumentNodes ts' part) := by
  cases part with
  | escapedString => exact (escapedStringNode_twins h).single
  | declaration => exact (declarationNode_twins h).single
  | varList => exact (varListNode_twins h).single
  | var => exact (varNode_twins h).single
  | spacing => exact spacingNodes_twins h
  | unary => exact (unaryNode_twins h).single
  | operator => exact (operatorNode_twins h).single
  | delimiter => exact (delimiterNode_twins h).single
  | declarationDelimiter => exact (declarationDelimiterNode_twins h).single
  | string => exact (stringNode_twins h).single
  | percentage => exact (percentageNode_twins h).single
  | dimension => exact (dimensionNode_twins h).single
  | number => exact (numberNode_twins h).single
  | uri => exact (uriNode_twins h).single
  | function => exact (functionNode_twins h).single
  | ident => exact (identNode_twins h).single
  | color => exact (colorNode_twins h).single
  | block => exact (blockNode_twins h).single
  | parentheses => exact (parenthesesNode_twins h).single

theorem argumentsInterior_twins (h : ts.Twins texts ts') (close : Nat) :
    YieldTwins texts room (argumentsInterior ts close) (argumentsInterior ts' close) := by
  refine yieldTwins_collectTo (pairs_choose_starts _ (declarationNode_twins h).single ?_) rfl
  refine pairs_ask _ fun a => ?_
  split
  · exact argumentNodes_twins h _
  · exact pairs_choose_starts _ (classNode_twins h).single pairs_unexpected

end LessCss
