import LessCss.Proofs.Schema.Selectors
import LessCss.Proofs.Spans

/-! What the builders of statements make, and the schema of whole trees. -/

namespace LessCss

open Lookahead Builder Grammar Node Node.Kind

variable {ts : Tokens} {capped : Bool} {A : Reading ts capped} {i j : Nat}

/-! ## Rulesets and at-rules -/

theorem rulesetNode_makes (wm : ts.WellMarked) : Makes A (rulesetNode ts) i [.ruleset] := by
  refine Yields.branch (k := .ruleset) ?_ (by decide)
  refine (selectorGroupNodes_yields wm).then fun group _ hgroup => ?_
  refine spacingNodes_yields.then fun gap _ hgap => ?_
  exact blockNode_makes.then fun block _ hblock => (hgroup.append hgap).append hblock

theorem keyframeSelectorNode_makes : Makes A (keyframeSelectorNode ts) i [.selector] := by
  refine Yields.branch (k := .selector) (Makes.single ?_) (by decide)
  refine Yields.branch (k := .keyframeSelector) (ensures_ask.2 ?_) (by decide)
  split
  · exact (percentageNode_makes.mono (by decide)).single
  · exact (identNode_makes.mono (by decide)).single

theorem keyframeNode_makes : Makes A (keyframeNode ts) i [.ruleset] := by
  refine Yields.branch (k := .ruleset) (ensures_cursor.2 (ensures_look.2 ?_)) (by decide)
  refine (commaListNodes_yields _ fun _ => keyframeSelectorNode_makes).then fun group _ hgroup => ?_
  refine spacingNodes_yields.then fun gap _ hgap => ?_
  exact blockNode_makes.then fun block _ hblock => (hgroup.append hgap).append hblock

theorem keyframesInterior_yields (close : Nat) :
    Yields A (keyframesInterior ts close) i Kind.block.content :=
  yields_collectTo fun _ =>
    yields_choose_starts (spacingNodes_yields.widen (by decide)) (keyframeNode_makes.many (by decide))

theorem ruleBlockNode_makes : Makes A (ruleBlockNode ts) i [.block] :=
  Yields.branch (k := .block) (yields_enclosed fun _ _ => yields_enter (.rules _) nofun)
    (by decide)

theorem keyframeBlockNode_makes : Makes A (keyframeBlockNode ts) i [.block] :=
  Yields.branch (k := .block) (yields_enclosed fun _ _ => yields_enter (.keyframes _) nofun)
    (by decide)

theorem atRuleNode_makes (wm : ts.WellMarked) : Makes A (atRuleNode ts) i [.atRule] := by
  refine Yields.branch (k := .atRule) (ensures_ask.2 ?_) (by decide)
  have hblock : ∀ {block : Builder Node}, (∀ j, Makes A block j [.block]) →
      Yields A (do return [← atKeywordNode ts] ++ (← preludeNodes ts) ++ [← block]) i
        Kind.atRule.content := by
    intro block hblock
    refine atKeywordNode_makes.then fun keyword _ hkeyword => ?_
    refine (preludeNodes_yields wm).then fun head _ hhead => ?_
    exact (hblock _).then fun block _ hblock => (hkeyword.append hhead).append hblock.maybe
  split
  · trivial
  · refine atKeywordNode_makes.then fun keyword _ hkeyword => ?_
    refine spacingNodes_yields.then fun before _ hbefore => ?_
    refine identNode_makes.then fun name _ hname => ?_
    refine spacingNodes_yields.then fun after _ hafter => ?_
    refine keyframeBlockNode_makes.then fun block _ hblock => ?_
    -- the name and the spacing around it are a head like any other
    have hhead : Listed (many preludeParts) (before ++ [name] ++ after) := by
      refine listed_many.2 (List.forall_mem_append.2 ⟨List.forall_mem_append.2 ⟨?_, ?_⟩, ?_⟩)
      · exact listed_many.1 (hbefore.widen (by decide))
      · refine List.forall_mem_singleton.2 ⟨?_, (listed_one.1 hname).2⟩
        rw [List.mem_singleton.1 (listed_one.1 hname).1]
        decide
      · exact listed_many.1 (hafter.widen (by decide))
    have hall := (hkeyword.append hhead).append hblock.maybe
    rw [← List.append_assoc, ← List.append_assoc] at hall
    exact hall
  · exact hblock fun _ => ruleBlockNode_makes
  · exact hblock fun _ => blockNode_makes
  · refine atKeywordNode_makes.then fun keyword _ hkeyword => ?_
    refine (preludeNodes_yields wm).then fun head _ hhead => ?_
    have hall := (hkeyword.append hhead).append (listed_maybe_nil (p := one [.block]))
    rw [List.append_nil] at hall
    exact hall

theorem rulesInterior_yields (wm : ts.WellMarked) (close : Nat) :
    Yields A (rulesInterior ts close) i Kind.block.content := by
  refine yields_collectTo fun j => ensures_ask.2 ?_
  split
  · trivial
  · exact spacingNodes_yields.widen (by decide)
  · exact (atRuleNode_makes wm).many (by decide)
  · exact (rulesetNode_makes wm).many (by decide)

/-! ## Mixins, calls and extends -/

theorem conditionPartNodes_yields (wm : ts.WellMarked) {m : Match ConditionPart}
    (h : A.tell .conditionPart i = some m) :
    Yields A (conditionPartNodes ts m.shape) i (many conditionParts) := by
  obtain ⟨a, ha, hs, hl, hpos⟩ := A.alternative wm rfl rfl h
  simp only [List.mem_cons, List.not_mem_nil, or_false] at ha
  rcases ha with rfl | rfl | rfl | rfl | rfl | rfl | rfl | rfl | rfl | rfl | rfl <;> rw [hs]
  · exact functionNode_makes.many (by decide)
  · exact bracketsNode_makes.many (by decide)
  · exact parenthesesNode_makes.many (by decide)
  · exact (varNode_makes wm hpos).many (by decide)
  · exact identNode_makes.many (by decide)
  · exact numberNode_makes.many (by decide)
  · exact (makes_leaf (k := .delimiter) rfl 1).many (by decide)
  · exact (makes_leaf (k := .operator) rfl 1).many (by decide)
  · exact (makes_leafOf (k := .combinator) rfl _).many (by decide)
  · exact spacingNodes_yields.widen (by decide)
  · exact stringNode_makes.many (by decide)

theorem conditionNode_makes (wm : ts.WellMarked) : Makes A (conditionNode ts) i [.condition] := by
  refine Yields.branch (k := .condition) (ensures_cursor.2 (ensures_look.2 ?_)) (by decide)
  refine identNode_makes.then fun first _ hfirst => ?_
  refine Yields.then (yields_collectTo fun j => ensures_ask.2 ?_) fun _ _ hrest =>
    hfirst.append hrest
  cases ht : A.tell .conditionPart j with
  | none => trivial
  | some m => exact conditionPartNodes_yields wm ht

theorem mixinBodyNodes_yields (wm : ts.WellMarked) :
    Yields A (mixinBodyNodes ts) i (spacing * maybe (one [.condition]) * one [.block]) := by
  refine spacingNodes_yields.then fun gap _ hgap => ?_
  refine (Yields.optionally_starts (conditionNode_makes wm).single).then fun guard _ hguard => ?_
  exact blockNode_makes.then fun block _ hblock => (hgap.append hguard).append hblock

theorem mixinNode_makes (wm : ts.WellMarked) : Makes A (mixinNode ts) i [.mixin] := by
  refine Yields.branch (k := .mixin) (ensures_ask.2 ?_) (by decide)
  split
  · trivial
  · refine classOrIdNode_makes.then fun name _ hname => ?_
    refine spacingNodes_yields.then fun gap _ hgap => ?_
    refine (Yields.optionally_starts argumentsNode_makes.single).then fun args _ hargs => ?_
    refine (Yields.given (mixinBodyNodes_yields wm)).then fun body _ hbody => ?_
    exact ((hname.append hgap).append hargs).append hbody

theorem callTailNodes_yields :
    Yields A (callTailNodes ts) i (one [.arguments] * spacing * maybe (one [.important])) := by
  refine argumentsNode_makes.then fun args _ hargs => ?_
  refine spacingNodes_yields.then fun gap _ hgap => ?_
  exact (Yields.optionally_starts importantNode_makes.single).then fun mark _ hmark =>
    (hargs.append hgap).append hmark

/-- The head of a call starts with a class or an id. -/
theorem callHead_yields {stop : Nat} (hstop : i < stop) (h : 0 < A.value (classOrIdLength i)) :
    Yields A (collectTo stop (do
      if ← sees classOrIdLength then single (classOrIdNode ts)
      else if ← starts .spacing then spacingNodes ts
      else single (operatorNode ts))) i callHead := by
  refine ensures_collectTo (I := fun ns j => ns = [] ∧ j = i ∨ Listed callHead ns)
    (fun ns j hns hj => ?_) (fun ns j hns hj => ?_) (Or.inl ⟨rfl, rfl⟩)
  · rcases hns with ⟨rfl, rfl⟩ | hns
    · omega
    · exact hns
  rcases hns with ⟨rfl, rfl⟩ | hns
  · refine ensures_choose_sees (fun _ => classOrIdNode_makes.then fun n l hn => ?_)
      fun hz => absurd h (by omega)
    have hfirst := Listed.append hn (listed_star_nil (p := one (spacings ++
      [.classSelector, .idSelector, .operator])))
    change if j < l then _ ∨ Listed callHead ([n] ++ []) else Listed callHead ([n] ++ [])
    split
    · exact Or.inr hfirst
    · exact hfirst
  · have hround : Yields A (choose (sees classOrIdLength) (single (classOrIdNode ts))
        (choose (starts .spacing) (spacingNodes ts) (single (operatorNode ts)))) j
        (many (spacings ++ [.classSelector, .idSelector, .operator])) :=
      ensures_choose_sees (fun _ => classOrIdNode_makes.many (by decide)) fun _ =>
        yields_choose_starts (spacingNodes_yields.widen (by decide))
          ((makes_leaf (k := .operator) rfl 1).many (by decide))
    refine Ensures.mono hround fun ms l hms => ?_
    have hall := hns.append_many hms
    split
    · exact Or.inr hall
    · exact hall

theorem mixinCallNode_makes (wm : ts.WellMarked) : Makes A (mixinCallNode ts) i [.mixinCall] := by
  refine Yields.branch (k := .mixinCall) (ensures_ask.2 ?_) (by decide)
  cases ht : A.tell .mixinCall i with
  | none => trivial
  | some m =>
    obtain ⟨_, hpos, _⟩ := mixinCall_cases (A.value_of_tell wm rfl ht)
    refine ensures_cursor.2 (ensures_look.2 ?_)
    refine (callHead_yields (by omega) (callHead_cases hpos).1).then fun head _ hhead => ?_
    exact (Yields.given callTailNodes_yields).then fun tail _ htail => hhead.append htail

theorem extendTargetNodes_yields (target : ExtendTarget) :
    Yields A (extendTargetNodes ts target) i
      (parent + one [.ident, .classSelector, .idSelector]) := by
  cases target with
  | parentSelector => exact Ensures.mono parentNodes_yields fun _ _ h => h.left
  | ident => exact Ensures.mono (identNode_makes.mono (by decide)).single fun _ _ h => h.right
  | classSelector =>
    exact Ensures.mono (classNode_makes.mono (by decide)).single fun _ _ h => h.right
  | idSelector => exact Ensures.mono (idNode_makes.mono (by decide)).single fun _ _ h => h.right

theorem extendNode_makes : Makes A (extendNode ts) i [.extend] := by
  refine Yields.branch (k := .extend) (ensures_ask.2 (ensures_ask.2 ?_)) (by decide)
  split
  · refine (extendTargetNodes_yields _).then fun lead _ hlead => ?_
    refine pseudoClassNode_makes.then fun pseudo _ hpseudo => ?_
    have hbody : ∀ j, Yields A (spacedBlockNodes ts) j (spacing * one [.block]) := fun j =>
      spacingNodes_yields.then fun _ _ hgap => blockNode_makes.then fun _ _ hblock =>
        hgap.append hblock
    exact (Yields.given (hbody _)).then fun body _ hbody => hlead.append (hpseudo.append hbody)
  · trivial

/-! ## Blocks and stylesheets -/

theorem blockItemNode_makes (wm : ts.WellMarked) : Makes A (blockItemNode ts) i
    [.condition, .extend, .ruleset, .declaration, .atRule, .mixinCall] := by
  refine ensures_ask.2 ?_
  split
  · trivial
  · exact (conditionNode_makes wm).mono (by decide)
  · exact extendNode_makes.mono (by decide)
  · exact (rulesetNode_makes wm).mono (by decide)
  · exact (declarationNode_makes wm).mono (by decide)
  · exact (atRuleNode_makes wm).mono (by decide)
  · exact (mixinCallNode_makes wm).mono (by decide)

theorem blockChunkNodes_yields (wm : ts.WellMarked) (shape : ChunkShape) :
    Yields A (blockChunkNodes ts shape) i Kind.block.content := by
  have hitem : ∀ j, Yields A (single (blockItemNode ts)) j Kind.block.content :=
    fun j => (blockItemNode_makes wm).many (by decide)
  have hmark : ∀ j, Yields A (single (declarationDelimiterNode ts)) j Kind.block.content :=
    fun j => (makes_leaf (k := .declarationDelimiter) rfl 1).many (by decide)
  have hgap : ∀ j, Yields A (spacingNodes ts) j Kind.block.content :=
    fun j => spacingNodes_yields.widen (by decide)
  have happend : ∀ {ns ms : List Node}, Listed Kind.block.content ns →
      Listed Kind.block.content ms → Listed Kind.block.content (ns ++ ms) := fun hns hms =>
    listed_many.2 (List.forall_mem_append.2 ⟨listed_many.1 hns, listed_many.1 hms⟩)
  refine (hgap i).then fun leading _ hleading => ?_
  cases shape with
  | delimitedItem =>
    refine ensures_bind.2 (Ensures.mono (ensures_bind.1 (hitem _)) fun item _ hitem => ?_)
    refine ensures_bind.2 (Ensures.mono (ensures_bind.1 (hmark _)) fun mark _ hmark => ?_)
    exact (hgap _).then fun trailing _ htrailing =>
      happend (happend (happend hleading hitem) hmark) htrailing
  | item =>
    refine ensures_bind.2 (Ensures.mono (ensures_bind.1 (hitem _)) fun item _ hitem => ?_)
    exact (hgap _).then fun trailing _ htrailing => happend (happend hleading hitem) htrailing
  | delimiter =>
    refine ensures_bind.2 (Ensures.mono (ensures_bind.1 (hmark _)) fun mark _ hmark => ?_)
    exact (hgap _).then fun trailing _ htrailing => happend (happend hleading hmark) htrailing
  | spacing => exact hleading

theorem blockInterior_yields (wm : ts.WellMarked) (close : Nat) :
    Yields A (blockInterior ts close) i Kind.block.content := by
  refine yields_collectTo fun j => ensures_ask.2 ?_
  split
  · exact blockChunkNodes_yields wm _
  · trivial

theorem stylesheetNode_makes (wm : ts.WellMarked) :
    Makes A (stylesheetNode ts) i [.stylesheet] := by
  refine Yields.branch (k := .stylesheet) (yields_collectTo fun j => ensures_ask.2 ?_) (by decide)
  split
  · next item _ =>
    cases item with
    | spacing => exact spacingNodes_yields.widen (by decide)
    | varDeclaration => exact (declarationNode_makes wm).many (by decide)
    | atRule => exact (atRuleNode_makes wm).many (by decide)
    | extend => exact extendNode_makes.many (by decide)
    | ruleset => exact (rulesetNode_makes wm).many (by decide)
    | mixin => exact (mixinNode_makes wm).many (by decide)
    | declaration => exact (declarationNode_makes wm).many (by decide)
    | declarationDelimiter =>
      exact (makes_leaf (k := .declarationDelimiter) rfl 1).many (by decide)
  · trivial

/-! ## Whole trees -/

theorem content_yields (wm : ts.WellMarked) {part : Interior} (h : part ≠ .var) :
    Yields A (part.content ts) i part.pattern := by
  cases part with
  | group => exact preludeNodes_yields wm
  | arguments close => exact argumentsInterior_yields wm close
  | block close => exact blockInterior_yields wm close
  | rules close => exact rulesInterior_yields wm close
  | keyframes close => exact keyframesInterior_yields close
  | selectors => exact selectorGroupNodes_yields wm
  | var => exact absurd rfl h

/-- Insides are formed when they are built by the plain functions of the stream. -/
theorem meaning_formed (wm : ts.WellMarked) (hA : A.tell = Parser.meanings ts) (part : Interior)
    (i : Nat) (x : List Node × Nat) (h : part.meaning ts i = .ok x) : part.Formed A i x := by
  generalize hn : ts.size - i = n
  induction n using Nat.strongRecOn generalizing part i x with
  | ind n ih =>
    rw [Interior.meaning] at h
    have hrun : ∀ {Q : List Node × Nat → Prop}, (part.content ts i).Ensures A Q → Q x := by
      intro Q hQ
      refine hQ.run hA (fun part' j y hy => ?_) h
      split at hy
      · next hj => exact ih _ (by omega) part' j y hy rfl
      · cases hy
    have hfilled : ∀ {Q : List Node × Nat → Prop}, (part.content ts i).Ensures A Q →
        part.Ready A i → part.Filled A i x := fun hQ hready =>
      (hrun ((content_runs (E := fun _ => True) wm (fun _ _ => trivial) part i
        hready).and_ensures hQ)).1
    by_cases hpart : part = .var
    · subst hpart
      have hvar : 0 < A.len .var i → (single (varNode ts)).Ensures A i fun ns _ =>
          Listed (one [.var]) ns ∧
            (ts.is (i - 1) .atSign = true → 1 ≤ i → ∀ n ∈ ns, n.varDepth ≤ 1) := fun hpos =>
        ensures_bind.2 ((varNode_ensures wm hpos).mono fun n _ hn =>
          ⟨hn.1, fun hat hi => List.forall_mem_singleton.2 (hn.2 hat hi)⟩)
      exact ⟨fun hready => hfilled (hvar hready) hready, fun h => absurd rfl h,
        fun _ hpos => hrun (hvar hpos)⟩
    · exact ⟨hfilled (content_yields wm hpart), fun _ => hrun (content_yields wm hpart),
        fun h => absurd h hpart⟩

/-- Where a start symbol covers tokens, its builder makes a node of its kind. -/
theorem Symbol.build_makes (wm : ts.WellMarked) (start : Symbol)
    (h : 0 < A.value (start.length ts i)) : Makes A (start.build ts) i [start.kind] := by
  cases start with
  | arguments => exact argumentsNode_makes
  | atKeyword => exact atKeywordNode_makes
  | atRule => exact atRuleNode_makes wm
  | attributeSelector => exact attributeSelectorNode_makes
  | block => exact blockNode_makes
  | brackets => exact bracketsNode_makes
  | classSelector => exact classNode_makes
  | color => exact colorNode_makes
  | combinator => exact makes_leafOf rfl _
  | compoundSelector => exact compoundNode_makes
  | condition => exact conditionNode_makes wm
  | declaration => exact declarationNode_makes wm
  | declarationDelimiter => exact makes_leaf rfl 1
  | delimiter => exact makes_leaf rfl 1
  | dimension => exact dimensionNode_makes
  | escapedString => exact escapedStringNode_makes
  | expression => exact expressionNode_makes
  | extend => exact extendNode_makes
  | function => exact functionNode_makes
  | idSelector => exact idNode_makes
  | ident => exact identNode_makes
  | important => exact importantNode_makes
  | mixinCall => exact mixinCallNode_makes wm
  | interpolation => exact interpolationNode_makes
  | mixin => exact mixinNode_makes wm
  | blockComment => exact blockCommentNode_makes
  | namespaceBar => exact makes_leaf rfl 1
  | number => exact numberNode_makes
  | operator => exact makes_leaf rfl 1
  | parentheses => exact parenthesesNode_makes
  | parentSelector => exact makes_leaf rfl 1
  | percentage => exact percentageNode_makes
  | progid => exact progidNode_makes
  | property => exact propertyNode_makes wm
  | propertyDelimiter => exact makes_leaf rfl 1
  | pseudoClass => exact pseudoClassNode_makes
  | pseudoElement => exact pseudoElementNode_makes
  | ruleset => exact rulesetNode_makes wm
  | selector => exact selectorNode_makes wm
  | lineComment => exact lineCommentNode_makes
  | space => exact makes_leafOf rfl _
  | string => exact stringNode_makes
  | stylesheet => exact stylesheetNode_makes wm
  | typeSelector => exact typeSelectorNode_makes
  | unary => exact makes_leaf rfl 1
  | uri => exact uriNode_makes
  | value => exact valueNode_makes wm
  | var => exact varNode_makes wm h
  | varList => exact varListNode_makes wm h

/-- A node that stands for tokens has not come out empty. -/
theorem Node.Drafted.shaped {n : Node} (h : n.Drafted) (hcovers : Covers ts i j n) : n.Shaped := by
  cases h with
  | leaf htext =>
    refine ⟨htext.symm, nofun, ?_⟩
    rw [varDepth_leaf]
    exact Nat.zero_le 2
  | branch content depth children =>
    rcases content with hadmits | ⟨rfl, hk⟩
    · exact ⟨(hasText_of_content hadmits).symm, fun _ => hadmits, depth⟩
    · -- the kinds that may be empty have no marks, so without children there would be no token
      cases hcovers with
      | branch frame lt tiles =>
        have heq := tiles.eq_of_nil
        simp only [mayBeEmpty, List.mem_cons, List.not_mem_nil, or_false] at hk
        rcases hk with rfl | rfl | rfl | rfl <;>
        · obtain ⟨rfl, rfl⟩ := frame
          omega

theorem stylesheet_shaped (start : Position) : (Node.branch .stylesheet [] start).Shaped := by
  refine ⟨rfl, fun _ => Or.inl (Language.nil_mem_kstar _), ?_⟩
  rw [varDepth_of_ne (by decide)]
  exact Nat.zero_le 2

/-- The tree has the kind of its start symbol, and every node in it has the shape of its kind. -/
theorem parseText_schema (source : String) (start : Symbol) (tree : Node)
    (h : parseText source start = .ok tree) :
    tree.kind = start.kind ∧ ∀ n ∈ tree.descendants, n.Shaped := by
  have wm := Token.lex_wellMarked source
  have hf := Token.lex_faithful source
  have hcovers := parse_covers h
  rw [parseText, Parser.parse_eq_parsePlain wm] at h
  rcases Parser.parsePlain_eq_ok_iff.1 h with ⟨_, rfl, rfl⟩ | ⟨hne, hall, k, hk⟩
  · rw [Node.descendants, visit, Node.children, List.nil_append, visit]
    exact ⟨rfl, List.forall_mem_singleton.2 (stylesheet_shaped _)⟩
  obtain ⟨A, hA⟩ := Parser.exists_plain_reading wm
  have hlen : A.value (start.length (Token.lex source) 0) =
      (start.length (Token.lex source) 0).eval (Token.lex source) := by
    rw [Reading.value, hA]
    rfl
  have hmakes : Listed (one [start.kind]) [tree] :=
    (start.build_makes wm (A := A) (by omega)).run hA (meaning_formed wm hA) hk
  obtain ⟨hkind, hdrafted⟩ := listed_one.1 hmakes
  refine ⟨List.mem_singleton.1 hkind, ?_⟩
  obtain ⟨_, hcovers⟩ := hcovers.resolve_left fun hempty => by
    rw [hempty.1] at hne
    exact absurd hne (by decide +kernel)
  have hdown : ∀ n : Node, (∃ i j, Covers (Token.lex source) i j n) ∧ n.Drafted →
      ∀ c ∈ n.children, (∃ i j, Covers (Token.lex source) i j c) ∧ c.Drafted := by
    rintro n ⟨⟨i, j, hcov⟩, hd⟩ c hc
    obtain ⟨lo, hi, _, hchild⟩ := hcov.child hf hc
    exact ⟨⟨lo, hi, hchild⟩, hd.children c hc⟩
  intro n hn
  obtain ⟨⟨i, j, hcov⟩, hd⟩ := Node.forall_visit hdown [tree]
    (List.forall_mem_singleton.2 ⟨⟨0, _, hcovers⟩, hdrafted⟩) n hn
  exact hd.shaped hcov

/-- A variable in a variable, a block in a value, and a combinator at the end of a selector. -/
theorem parseText_schema_sample :
    ∃ tree, parseText "@@a:b\x7bc:d\x7de f >\x7b\x7d" .stylesheet = .ok tree ∧
      tree.kind = .stylesheet ∧ ∀ n ∈ tree.descendants, n.Shaped := by
  have hok : (parseText "@@a:b\x7bc:d\x7de f >\x7b\x7d" .stylesheet).isOk = true := by decide +kernel
  cases h : parseText "@@a:b\x7bc:d\x7de f >\x7b\x7d" .stylesheet with
  | ok tree => exact ⟨tree, rfl, parseText_schema _ _ tree h⟩
  | error e =>
    rw [h] at hok
    cases hok

end LessCss
