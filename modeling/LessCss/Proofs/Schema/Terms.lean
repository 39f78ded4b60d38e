import LessCss.Proofs.Build.Values
import LessCss.Proofs.Schema

/-! What the builders of terms make: spacing, names, literals, groups, values and declarations. -/

namespace LessCss

open Lookahead Builder Grammar Node Node.Kind Computability

variable {ts : Tokens} {capped : Bool} {A : Reading ts capped} {i j : Nat}

/-! ## Spacing -/

theorem blockCommentNode_makes : Makes A (blockCommentNode ts) i [.blockComment] :=
  listed_one.2 ⟨List.mem_singleton_self _, .leaf rfl⟩

theorem lineCommentNode_makes : Makes A (lineCommentNode ts) i [.lineComment] :=
  listed_one.2 ⟨List.mem_singleton_self _, .leaf rfl⟩

theorem spacingNodes_yields : Yields A (spacingNodes ts) i spacing := by
  refine yields_collect fun j => ensures_cursor.2 ?_
  split
  · exact Makes.round (makes_leafOf (k := .space) rfl _) (by decide)
  · exact Makes.round (makes_leafOf (k := .space) rfl _) (by decide)
  · exact Makes.round (makes_leafOf (k := .space) rfl _) (by decide)
  · exact Makes.round blockCommentNode_makes (by decide)
  · exact Makes.round lineCommentNode_makes (by decide)
  · exact ensures_round_none

/-! ## Names -/

theorem identNode_makes : Makes A (identNode ts) i [.ident] :=
  ensures_look.2 (ensures_check.2 (makes_leaf rfl _))

theorem interpolationNode_makes : Makes A (interpolationNode ts) i [.interpolation] := by
  refine Yields.branch (k := .interpolation) ?_ (by decide)
  exact ensures_skip.2 (identNode_makes.then fun _ _ hn => ensures_skip.2 hn)

theorem atKeywordNode_makes : Makes A (atKeywordNode ts) i [.atKeyword] :=
  Yields.branch (k := .atKeyword) (ensures_skip.2 identNode_makes.single) (by decide)

theorem nameNode_makes (form : Name) : Makes A (nameNode ts form) i names := by
  cases form with
  | interpolation => exact interpolationNode_makes.mono (by decide)
  | ident => exact identNode_makes.mono (by decide)

theorem anyNameNode_makes : Makes A (anyNameNode ts) i names :=
  makes_choose_starts (interpolationNode_makes.mono (by decide)) (identNode_makes.mono (by decide))

theorem classNode_makes : Makes A (classNode ts) i [.classSelector] :=
  Yields.branch (k := .classSelector)
    (ensures_ask.2 (ensures_skip.2 (nameNode_makes _).single)) (by decide)

theorem idNode_makes : Makes A (idNode ts) i [.idSelector] :=
  Yields.branch (k := .idSelector)
    (ensures_ask.2 (ensures_skip.2 (nameNode_makes _).single)) (by decide)

theorem classOrIdNode_makes : Makes A (classOrIdNode ts) i [.classSelector, .idSelector] :=
  makes_choose_starts (classNode_makes.mono (by decide)) (idNode_makes.mono (by decide))

/-! ## Variables -/

/-- No variable starts behind two signs. -/
theorem not_var_of_atSigns (wm : ts.WellMarked) (h : ts.is i .atSign = true)
    (h' : ts.is (i + 1) .atSign = true) : A.len .var (i + 2) = 0 := by
  refine Nat.eq_zero_of_not_pos fun hpos => ?_
  have he := A.len_of_sole (r := .var) (u := ()) wm rfl (A.lt_of_len hpos) rfl
  have hcond : (!ts.is (i + 2) .atSign || (decide (2 ≤ i + 2) && ts.is (i + 2 - 1) .atSign &&
      ts.is (i + 2 - 2) .atSign)) = true := by
    rw [show i + 2 - 1 = i + 1 by omega, show i + 2 - 2 = i by omega, h, h',
      decide_eq_true (by omega)]
    exact Bool.or_true _
  unfold varLength at he
  rw [if_pos hcond, A.value_pure] at he
  omega

theorem varDepth_of_ident {n : Node} (h : n.kind = .ident) : n.varDepth = 0 := by
  cases n with
  | leaf k text start => exact varDepth_leaf k text start
  | branch k cs start => exact varDepth_of_ne (by rw [show k = .ident from h]; decide) cs start

theorem makes_var {n : Node} {start : Position} (hn : Listed (one [.var, .ident]) [n])
    (hd : n.varDepth ≤ 1) : Listed (one [.var]) [Node.branch .var [n] start] := by
  refine listed_one.2 ⟨List.mem_singleton_self _, .branch (Or.inl (Or.inl hn.1)) ?_ hn.2⟩
  rw [varDepth_var]
  omega

/-- A variable; right behind a sign, it holds no other one. -/
theorem varNode_ensures (wm : ts.WellMarked) (h : 0 < A.len .var i) :
    (varNode ts).Ensures A i fun n _ => Listed (one [.var]) [n] ∧
      (ts.is (i - 1) .atSign = true → 1 ≤ i → n.varDepth ≤ 1) := by
  obtain ⟨hat, _⟩ := var_cases wm h
  refine ensures_cursor.2 (ensures_bind.2 (ensures_skip.2 (ensures_choose_starts ?_ fun _ => ?_)))
  · intro hinner x hx
    obtain ⟨hlisted, hdepth⟩ := hx.var rfl hinner
    obtain ⟨k, _, he⟩ := mem_one.1 hlisted.1
    obtain ⟨n, hn, _⟩ := List.map_eq_singleton_iff.1 he
    rw [Nat.add_sub_cancel, hn] at hdepth
    have hd := hdepth hat (by omega) n (List.mem_singleton_self n)
    change Listed (one [.var]) [Node.branch .var x.1 (ts.position i)] ∧ _
    rw [hn] at hlisted ⊢
    refine ⟨makes_var (hlisted.mono (mem_one_mono (by decide))) hd, fun hbefore hi => ?_⟩
    obtain ⟨m, rfl⟩ : ∃ m, i = m + 1 := ⟨i - 1, by omega⟩
    rw [Nat.add_sub_cancel] at hbefore
    have hno : A.len .var (m + 1 + 1) = 0 := not_var_of_atSigns wm hbefore hat
    exact absurd hinner (by omega)
  · refine identNode_makes.then fun n _ hn => ?_
    have hd : n.varDepth = 0 := varDepth_of_ident (List.mem_singleton.1 (listed_one.1 hn).1)
    refine ⟨makes_var (hn.mono (mem_one_mono (by decide))) (by omega), fun _ _ => ?_⟩
    rw [varDepth_var]
    omega

theorem varNode_makes (wm : ts.WellMarked) (h : 0 < A.len .var i) : Makes A (varNode ts) i [.var] :=
  (varNode_ensures wm h).mono fun _ _ hn => hn.1

theorem varListNode_makes (wm : ts.WellMarked) (h : 0 < A.value (varListLength ts i)) :
    Makes A (varListNode ts) i [.varList] := by
  refine Yields.branch (k := .varList) ?_ (by decide)
  exact (varNode_makes wm (varList_cases h).1).then fun _ _ hn => ensures_skip.2 hn

theorem propertyNode_makes (wm : ts.WellMarked) : Makes A (propertyNode ts) i [.property] := by
  refine Yields.branch (k := .property) (Makes.single ?_) (by decide)
  exact ensures_choose_starts (fun h => (varNode_makes wm h).mono (by decide))
    fun _ => identNode_makes.mono (by decide)

/-! ## Literals -/

theorem numberNode_makes : Makes A (numberNode ts) i [.number] := makes_leafOf rfl _

theorem dimensionNode_makes : Makes A (dimensionNode ts) i [.dimension] := by
  refine Yields.branch (k := .dimension) ?_ (by decide)
  refine numberNode_makes.then fun number _ hnumber => ensures_cursor.2 ?_
  exact (makes_leaf (k := .ident) rfl _).then fun unit _ hunit => hnumber.append hunit

theorem percentageNode_makes : Makes A (percentageNode ts) i [.percentage] :=
  Yields.branch (k := .percentage) (numberNode_makes.then fun _ _ hn => ensures_skip.2 hn)
    (by decide)

theorem escapedStringNode_makes : Makes A (escapedStringNode ts) i [.escapedString] :=
  listed_one.2 ⟨List.mem_singleton_self _, .leaf rfl⟩

theorem colorNode_makes : Makes A (colorNode ts) i [.color] :=
  listed_one.2 ⟨List.mem_singleton_self _, .leaf rfl⟩

theorem stringNode_makes : Makes A (stringNode ts) i [.string] := makes_leaf rfl 1

theorem importantNode_makes : Makes A (importantNode ts) i [.important] := makes_leafOf rfl _

theorem progidNode_makes : Makes A (progidNode ts) i [.progid] := makes_leafOf rfl _

theorem expressionNode_makes : Makes A (expressionNode ts) i [.expression] :=
  listed_one.2 ⟨List.mem_singleton_self _, .leaf rfl⟩

theorem rawNode_makes (close : Nat) : Makes A (rawNode ts close) i [.raw] :=
  listed_one.2 ⟨List.mem_singleton_self _, .leaf rfl⟩

theorem uriNode_makes : Makes A (uriNode ts) i [.uri] := by
  refine Yields.branch (k := .uri) ?_ (by decide)
  refine ensures_look.2 (ensures_skip.2 ?_)
  refine spacingNodes_yields.then fun before _ hbefore => ?_
  have hbody : ∀ close j, Makes A (choose (sees (stringLength ts)) (stringNode ts)
      (rawNode ts close)) j [.string, .raw] := fun close j =>
    makes_choose_sees (stringNode_makes.mono (by decide)) ((rawNode_makes close).mono (by decide))
  refine (hbody _ _).then fun body _ hbody => ?_
  refine spacingNodes_yields.then fun after _ hafter => ensures_expectAt fun _ => ?_
  exact ensures_skip.2 ((hbefore.append hbody).append hafter)

/-! ## Groups -/

/-- What stands in brackets is the inside. -/
theorem yields_enclosed {closer? : Nat → Option Nat} {inner : Nat → Builder (List Node)}
    {p : Pattern} (h : ∀ close j, Yields A (inner close) j p) :
    Yields A (enclosed closer? inner) i p := by
  unfold enclosed
  refine ensures_cursor.2 ?_
  split
  · exact ensures_skip.2 ((h _ _).then fun _ _ hns => ensures_skip.2 hns)
  · trivial

theorem yields_enter (part : Interior) (h : part ≠ .var) : Yields A (enter part) i part.pattern :=
  fun _ hx => hx.listed h

theorem yields_filling (part : Nat → Interior) (close : Nat) (h : part close ≠ .var) :
    Yields A (filling part close) i (part close).pattern :=
  (yields_enter _ h).then fun _ _ hns => ensures_expectAt fun _ => hns

theorem parenthesesNode_makes : Makes A (parenthesesNode ts) i [.parentheses] :=
  Yields.branch (k := .parentheses)
    (yields_enclosed fun close _ => yields_filling (fun _ => .group) close nofun)
    (by decide)

theorem bracketsNode_makes : Makes A (bracketsNode ts) i [.brackets] :=
  Yields.branch (k := .brackets)
    (yields_enclosed fun close _ => yields_filling (fun _ => .group) close nofun)
    (by decide)

theorem argumentsNode_makes : Makes A (argumentsNode ts) i [.arguments] :=
  Yields.branch (k := .arguments)
    (Ensures.mono (yields_enclosed fun close _ => yields_filling .arguments close nofun)
      fun _ _ hns => hns.left) (by decide)

theorem blockNode_makes : Makes A (blockNode ts) i [.block] :=
  Yields.branch (k := .block)
    (yields_enclosed fun close _ => yields_filling .block close nofun)
    (by decide)

theorem functionNode_makes : Makes A (functionNode ts) i [.function] := by
  refine Yields.branch (k := .function) ?_ (by decide)
  exact identNode_makes.then fun _ _ hname => argumentsNode_makes.then fun _ _ hargs =>
    hname.append hargs

/-! ## Fragments and values -/

theorem fragmentNode_makes (wm : ts.WellMarked) : Makes A (fragmentNode ts) i fragments := by
  refine ensures_ask.2 ?_
  cases ht : A.tell .fragment i with
  | none => trivial
  | some m =>
    obtain ⟨a, ha, hs, hl, hpos⟩ := A.alternative wm rfl rfl ht
    simp only [List.mem_cons, List.not_mem_nil, or_false] at ha
    simp only [Answer.shape?, Option.map_some]
    rcases ha with rfl | rfl | rfl | rfl | rfl | rfl | rfl | rfl | rfl | rfl | rfl | rfl | rfl
      | rfl <;> rw [hs]
    · exact bracketsNode_makes.mono (by decide)
    · exact parenthesesNode_makes.mono (by decide)
    · exact stringNode_makes.mono (by decide)
    · exact (varListNode_makes wm hpos).mono (by decide)
    · exact (varNode_makes wm hpos).mono (by decide)
    · exact percentageNode_makes.mono (by decide)
    · exact dimensionNode_makes.mono (by decide)
    · exact numberNode_makes.mono (by decide)
    · exact uriNode_makes.mono (by decide)
    · exact expressionNode_makes.mono (by decide)
    · exact functionNode_makes.mono (by decide)
    · exact identNode_makes.mono (by decide)
    · exact classNode_makes.mono (by decide)
    · exact (makes_leaf (k := .unary) rfl 1).mono (by decide)

theorem preludePartNodes_yields (wm : ts.WellMarked) (part : PreludePart) :
    Yields A (preludePartNodes ts part) i (many preludeParts) := by
  cases part with
  | color => exact colorNode_makes.many (by decide)
  | fragment => exact (fragmentNode_makes wm).many (by decide)
  | spacing => exact spacingNodes_yields.widen (by decide)
  | operator => exact (makes_leaf (k := .operator) rfl 1).many (by decide)

theorem preludeNodes_yields (wm : ts.WellMarked) :
    Yields A (preludeNodes ts) i (many preludeParts) := by
  refine yields_collect fun j => ensures_ask.2 ?_
  split
  · exact (preludePartNodes_yields wm _).then fun _ _ hns => hns
  · exact ensures_round_none

theorem valuePartNode_makes (wm : ts.WellMarked) {m : Match ValuePart}
    (h : A.tell .valuePart i = some m) :
    Makes A (valuePartNode ts m.shape) i (if m.shape = .block then [.block] else valueParts) := by
  obtain ⟨a, ha, hs, hl, hpos⟩ := A.alternative wm rfl rfl h
  simp only [List.mem_cons, List.not_mem_nil, or_false] at ha
  rcases ha with rfl | rfl | rfl | rfl | rfl | rfl | rfl | rfl | rfl | rfl <;>
    dsimp only at hs <;> rw [hs]
  · exact escapedStringNode_makes.mono (by decide)
  · exact interpolationNode_makes.mono (by decide)
  · exact (varNode_makes wm hpos).mono (by decide)
  · exact colorNode_makes.mono (by decide)
  · exact blockNode_makes
  · exact progidNode_makes.mono (by decide)
  · exact (fragmentNode_makes wm).mono (by decide)
  · exact atKeywordNode_makes.mono (by decide)
  · exact (makes_leaf (k := .operator) rfl 1).mono (by decide)
  · exact importantNode_makes.mono (by decide)

/-- Elements none of which is a block are a value. -/
theorem listed_value {ns : List Node} (h : Listed (spacing * one valueParts).star ns) :
    ns = [] ∨ Listed Kind.value.content ns := by
  have hsplit : ns.map Node.kind ∈
      1 + (spacing * one valueParts).matches'∗ * (spacing * one valueParts).matches' := by
    rw [one_add_kstar_mul]
    exact h.1
  rcases (Language.mem_add _ _ _).1 hsplit with hnil | hlast
  · exact Or.inl (List.map_eq_nil_iff.1 hnil)
  · refine Or.inr ⟨?_, h.2⟩
    have hone : (one valueParts).matches' ≤ (one (.block :: valueParts)).matches' :=
      mem_one_mono (List.subset_cons_self _ _)
    exact mul_le_mul_right (mul_le_mul_right hone _) _ hlast

theorem valueNode_makes (wm : ts.WellMarked) : Makes A (valueNode ts) i [.value] := by
  refine makes_branch_of_empty (k := .value) (by decide) ?_
  refine Ensures.mono (Q := fun ns _ => ns = [] ∨ Listed Kind.value.content ns) ?_ fun ns _ hns => ?_
  · refine ensures_collect (I := fun ns _ => Listed (spacing * one valueParts).star ns)
      (fun _ _ hns _ => listed_value hns) (fun ns j hns _ => ?_) listed_star_nil
    refine ensures_look.2 (ensures_askAhead.2 ?_)
    rw [A.value_lengthOf]
    cases ht : A.tell .valuePart (j + A.len .spacing j) with
    | none =>
      change if j < j ∧ false = true then _ else _
      rw [if_neg (by simp), List.append_nil]
      exact listed_value hns
    | some m =>
      refine ensures_bind.2 (((spacingNodes_gives wm A j).and_ensures spacingNodes_yields).mono ?_)
      rintro before _ ⟨⟨rfl, _⟩, hbefore⟩
      refine (valuePartNode_makes wm ht).then fun part l hpart => ?_
      by_cases hblock : m.shape = .block
      · rw [if_pos hblock] at hpart
        have hlast : Listed (one (.block :: valueParts)) [part] :=
          hpart.mono (mem_one_mono fun k hk => by rw [List.mem_singleton.1 hk]; exact .head _)
        change if j < l ∧ (m.shape != .block) = true then _ else _
        rw [hblock, if_neg (by simp)]
        exact Or.inr (hns.append (hbefore.append hlast))
      · rw [if_neg hblock] at hpart
        have hall := hns.star_append (hbefore.append hpart)
        change if j < l ∧ (m.shape != .block) = true then Listed _ (ns ++ (before ++ [part]))
          else ns ++ (before ++ [part]) = [] ∨ Listed _ (ns ++ (before ++ [part]))
        split
        · exact hall
        · exact listed_value hall
  · rcases hns with rfl | hns
    · exact ⟨Or.inl rfl, List.forall_mem_nil _⟩
    · exact ⟨Or.inr (Or.inl hns.1), hns.2⟩

/-! ## Declarations and arguments -/

theorem declarationNode_makes (wm : ts.WellMarked) :
    Makes A (declarationNode ts) i [.declaration] := by
  refine Yields.branch (k := .declaration) ?_ (by decide)
  refine (propertyNode_makes wm).then fun property _ hproperty => ?_
  refine spacingNodes_yields.then fun before _ hbefore => ?_
  refine (makes_leaf (k := .propertyDelimiter) rfl 1).then fun colon _ hcolon => ?_
  refine spacingNodes_yields.then fun after _ hafter => ?_
  refine (valueNode_makes wm).then fun value _ hvalue => ?_
  exact (((hproperty.append hbefore).append hcolon).append hafter).append hvalue

/-- An element that looking ahead finds is no class. -/
theorem argumentNodes_yields (wm : ts.WellMarked) {m : Match Argument}
    (h : A.tell .argument i = some m) :
    Yields A (argumentNodes ts m.shape) i (many (argumentParts.erase .classSelector)) := by
  obtain ⟨a, ha, hs, hl, hpos⟩ := A.alternative wm rfl rfl h
  simp only [List.mem_cons, List.not_mem_nil, or_false] at ha
  rcases ha with rfl | rfl | rfl | rfl | rfl | rfl | rfl | rfl | rfl | rfl | rfl | rfl | rfl | rfl |
    rfl | rfl | rfl | rfl | rfl <;> rw [hs]
  · exact escapedStringNode_makes.many (by decide)
  · exact (declarationNode_makes wm).many (by decide)
  · exact (varListNode_makes wm hpos).many (by decide)
  · exact (varNode_makes wm hpos).many (by decide)
  · exact spacingNodes_yields.widen (by decide)
  · exact (makes_leaf (k := .unary) rfl 1).many (by decide)
  · exact (makes_leaf (k := .operator) rfl 1).many (by decide)
  · exact (makes_leaf (k := .delimiter) rfl 1).many (by decide)
  · exact (makes_leaf (k := .declarationDelimiter) rfl 1).many (by decide)
  · exact stringNode_makes.many (by decide)
  · exact percentageNode_makes.many (by decide)
  · exact dimensionNode_makes.many (by decide)
  · exact numberNode_makes.many (by decide)
  · exact uriNode_makes.many (by decide)
  · exact functionNode_makes.many (by decide)
  · exact identNode_makes.many (by decide)
  · exact colorNode_makes.many (by decide)
  · exact blockNode_makes.many (by decide)
  · exact parenthesesNode_makes.many (by decide)

theorem argumentsInterior_yields (wm : ts.WellMarked) (close : Nat) :
    Yields A (argumentsInterior ts close) i (many argumentParts) := by
  refine yields_collectTo fun j => ?_
  refine yields_choose_starts ((declarationNode_makes wm).many (by decide)) (ensures_ask.2 ?_)
  cases ht : A.tell .argument j with
  | none => exact yields_choose_starts (classNode_makes.many (by decide)) trivial
  | some m => exact (argumentNodes_yields wm ht).widen (by decide)

end LessCss
