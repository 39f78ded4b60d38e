import LessCss.Proofs.Head.Compounds

/-! Statements at the head of a stream: rulesets, at-rules, mixins and what blocks are made of. In
the end every inside before a closer of the shorter stream is built there as in the longer one, by
induction over the tokens that are left, and so is the node of a start symbol that ends where the
shorter stream does. -/

namespace LessCss

open Lookahead Builder Grammar Tokens

variable {ts ts' : Tokens} {A : Reading ts false} {B : Reading ts' false} {s i j : Nat}

section
variable (h : ts.Head ts') (hin : B.KeepsInsides ts s)
include h hin

/-! ## Rulesets -/

theorem rulesetNode_remade (hpos : 0 < B.len .ruleset i) :
    Remakes A B s (rulesetNode ts) (rulesetNode ts') i := by
  have wm := h.right.wm
  refine remakes_of_fits ((rulesetNode_gives wm hpos).endsAt wm) (Nat.le_add_right i _) fun hle => ?_
  obtain ⟨hgroup, a, b, ha, hb, hblock, hend⟩ := ruleset_cases wm hpos
  obtain ⟨c, hc, _⟩ := throughCloser_cases wm hblock
  have hbrace : ts'.is (a + B.len .spacing a) .leftCurly = true := hb ▸ is_of_closer? hc
  have hlen := (selectorGroup_found (A := A) h hgroup ha hbrace (by omega)).len (by omega)
  refine Remakes.branch h .ruleset ((selectorGroupNodes_remade h hgroup hlen fun j _ hrest => ?_).then
    fun selectors _ => (spacingNodes_remade h _).then fun between _ =>
      (blockNode_remade h hin _).then fun block _ => remakes_pure (selectors ++ between ++ [block]))
  exact clear_in_list wm (hrest.trans ha.symm) hbrace (by decide)

/-! ## Keyframes -/

omit hin in
theorem keyframeSelectorNode_remade (hi : ts.Inside ts' i) :
    Remakes A B s (keyframeSelectorNode ts) (keyframeSelectorNode ts') i := by
  refine (Remakes.branch h .keyframeSelector
    (remakes_tell (hi.keyframeSelector h) ?_)).single.branch h .selector
  rcases B.tell .keyframeSelector i with _ | ⟨_, _ | _, _⟩
  · exact (identNode_remade h i).single
  · exact (identNode_remade h i).single
  · exact (percentageNode_remade h i).single

theorem keyframeNode_remade (hi : ts.Inside ts' i) (hpos : 0 < B.value (keyframeLength ts' i)) :
    Remakes A B s (keyframeNode ts) (keyframeNode ts') i := by
  have hpath := keyframeSelector_path (A := B) h.right
  obtain ⟨hlist, _⟩ := keyframe_cases hpos
  obtain ⟨hfirst, hend⟩ := commaList_cases hlist
  refine Remakes.branch h .ruleset (remakes_cursor (remakes_look
    (hi.commaList h (fun j hj => hj.keyframeSelector h) hpath) ?_))
  refine (commaListNodes_remade h hpath hfirst hend.symm
    (fun j => keyframeSelectorNode_gives h.right.wm) fun j hj _ _ =>
      keyframeSelectorNode_remade h (hi.next h hj)).then fun selectors _ => ?_
  exact (spacingNodes_remade h _).then fun between _ =>
    (blockNode_remade h hin _).then fun block _ => remakes_pure (selectors ++ between ++ [block])

theorem keyframesInterior_remade {c : Nat} (hi : ts.Inside ts' i)
    (ht : Trail (KeyframesPiece B) i c) :
    Remakes A B s (keyframesInterior ts c) (keyframesInterior ts' c) i := by
  refine remakes_collectTrail ht (fun j l hpiece => (keyframesPiece_gives h.right.wm hpiece).endsAt
    h.right.wm) fun j l hbefore hpiece => ?_
  have hj := hi.next h (hbefore.flatten fun _ _ => keyframesPiece_path h.right)
  refine remakes_choose_starts (spacing_keeps h j).len (fun _ => spacingNodes_endsAt h.right.wm j)
    (fun _ => spacingNodes_remade h j) fun hz => (keyframeNode_remade h hin hj ?_).single
  cases hpiece with
  | spacing pos => exact absurd hz (Nat.ne_of_gt pos)
  | keyframe none pos => exact pos

/-! ## At-rules -/

/-- A block whose inside was read by the lookahead up to its closer. -/
theorem entered_remade {part : Nat → Interior} {c : Nat} (hc : ts'.closer? i .leftCurly = some c)
    (hready : (part c).Ready B (i + 1)) (hends : ∀ k, (part c).Ends B (i + 1) k → k = c) :
    Remakes A B s
      (branch ts .block (enclosed (ts.closer? · .leftCurly) fun close => enter (part close)))
      (branch ts' .block (enclosed (ts'.closer? · .leftCurly) fun close => enter (part close))) i :=
  Remakes.branch h .block <| remakes_enclosed hc (fun hlt => (h.closer?_iff rfl).2 ⟨hc, hlt⟩)
    (h.right.wm.closer_lt hc).1 (fun hlt => enter_remade h hin rfl hc hlt hready hends)
    (enter_endsAt h.right.wm hready hends)

theorem ruleBlockNode_remade {c : Nat} (hc : ts'.closer? i .leftCurly = some c)
    (hbody : i + B.len .ruleBody i = c) :
    Remakes A B s (ruleBlockNode ts) (ruleBlockNode ts') i :=
  entered_remade h hin hc ⟨i, rfl, hc, hbody⟩ fun _ hk => hk

theorem keyframeBlockNode_remade (hpos : 0 < B.value (keyframesLength ts' i)) :
    Remakes A B s (keyframeBlockNode ts) (keyframeBlockNode ts') i := by
  obtain ⟨c, hc, _⟩ := keyframes_cases h.right.wm hpos
  exact entered_remade h hin hc ⟨i, rfl, hc, hpos⟩ fun _ hk => hk

/-- The keyword and the head of an at-rule. -/
theorem atRuleHead_remade {e : Nat} {f f' : Node → List Node → Builder (List Node)}
    (he : B.value (atRuleHead ts' i) = some e)
    (hdots : ∀ j, ts'.Path i j → B.value (preludeEnd ts' j) = e → B.DotsEnd ts j)
    (hf : ∀ n ns, Remakes A B s (f n ns) (f' n ns) e) :
    Remakes A B s (do f (← atKeywordNode ts) (← preludeNodes ts))
      (do f' (← atKeywordNode ts') (← preludeNodes ts')) i := by
  obtain ⟨hkey, rfl⟩ := atRuleHead_cases he
  refine (atKeywordNode_remade h i).thenAt ((atKeywordNode_gives h.right.wm hkey).endsAt h.right.wm)
    fun n => ?_
  exact (preludeNodes_remade h hin rfl fun j hj => hdots j ((atKeyword_path h.right i).trans hj)).thenAt
    ((preludeNodes_gives h.right.wm B _).endsAt h.right.wm) fun ns => hf n ns

omit h hin in
/-- An at-rule of keyframes is told to be one. -/
theorem keyframesRule_eq_zero {m : Match AtRuleShape} (ht : B.tell .atRule i = some m)
    (hs : m.shape ≠ .keyframes) : B.value (keyframesRuleLength ts' i) = 0 := by
  refine Nat.eq_zero_of_not_pos fun hpos => hs ?_
  rw [B.tell_eq_value (B.lt_of_tell ht)] at ht
  change B.value (firstOf i _) = some m at ht
  rw [B.value_firstOf_cons, Match.of?_pos hpos, Option.some_or] at ht
  exact congrArg Match.shape (Option.some.inj ht).symm

/-- An at-rule that is told in both streams, if no dots are cut in its head. -/
theorem atRuleNode_remade (hpos : 0 < B.len .atRule i) (ht : A.tell .atRule i = B.tell .atRule i)
    (hdots : B.value (keyframesRuleLength ts' i) = 0 → ∀ e, B.value (atRuleHead ts' i) = some e →
      ∀ j, ts'.Path i j → B.value (preludeEnd ts' j) = e → B.DotsEnd ts j) :
    Remakes A B s (atRuleNode ts) (atRuleNode ts') i := by
  have wm := h.right.wm
  obtain ⟨m, hm, _⟩ := B.exists_of_len hpos
  obtain ⟨inner, hinner, hcases⟩ := atRule_cases wm hm
  have hmpos := m.length_pos
  refine Remakes.branch h .atRule (remakes_tell ht ?_)
  rw [hm]
  have hdots := fun hs => hdots (keyframesRule_eq_zero hm hs)
  rcases hcases with ⟨hs, hl⟩ | ⟨hs, hl⟩ | ⟨hs, hl⟩ | ⟨hs, hl⟩ <;>
    simp only [Answer.shape?, Option.map_some, hs]
  · obtain ⟨a, b, c, d, hkey, rfl, rfl, hname, rfl, rfl, hbody, _⟩ := keyframesRule_cases (hl ▸ hmpos)
    refine (atKeywordNode_remade h i).thenAt ((atKeywordNode_gives wm hkey).endsAt wm) fun key => ?_
    refine (spacingNodes_remade h _).thenAt (spacingNodes_endsAt wm _) fun before => ?_
    refine (identNode_remade h _).thenAt ((identNode_gives wm hname).endsAt wm) fun name => ?_
    refine (spacingNodes_remade h _).thenAt (spacingNodes_endsAt wm _) fun after => ?_
    exact (keyframeBlockNode_remade h hin hbody).then fun body _ =>
      remakes_pure ([key] ++ before ++ [name] ++ after ++ [body])
  · obtain ⟨e, c, he, hc, hbody, _⟩ := rulesRule_cases wm hinner (hl ▸ hmpos)
    refine atRuleHead_remade h hin he (hdots (by rw [hs]; decide) e he) fun key ns => ?_
    exact (ruleBlockNode_remade h hin hc hbody).then fun body _ =>
      remakes_pure ([key] ++ ns ++ [body])
  · obtain ⟨e, he, _⟩ := blockRule_cases (hl ▸ hmpos)
    refine atRuleHead_remade h hin he (hdots (by rw [hs]; decide) e he) fun key ns => ?_
    exact (blockNode_remade h hin _).then fun block _ => remakes_pure ([key] ++ ns ++ [block])
  · obtain ⟨e, he, _⟩ := bareRule_cases (hl ▸ hmpos)
    exact atRuleHead_remade h hin he (hdots (by rw [hs]; decide) e he) fun key ns =>
      remakes_pure ([key] ++ ns)

/-- An at-rule before a closer. -/
theorem Tokens.Inside.atRuleNode_remade (hi : ts.Inside ts' i) (hpos : 0 < B.len .atRule i) :
    Remakes A B s (atRuleNode ts) (atRuleNode ts') i :=
  LessCss.atRuleNode_remade h hin hpos (hi.atRule h) fun _ _ _ _ hj _ => (hi.next h hj).dotsEnd h

/-- An at-rule that ends where the shorter stream does. -/
theorem outerAtRuleNode_remade (hpos : 0 < B.len .atRule i)
    (hend : i + B.len .atRule i = ts.size) :
    Remakes A B s (atRuleNode ts) (atRuleNode ts') i := by
  refine atRuleNode_remade h hin hpos (atRule_found h hpos hend) fun hz e he j _ hj => ?_
  obtain ⟨e', he', _, hstop⟩ := atRuleHead_stop h.right.wm hpos hend hz
  obtain rfl := Option.some.inj (he.symm.trans he')
  exact dotsEnd_of_prelude h.right.wm hj hstop

/-! ## Runs of statements -/

omit hin in
/-- A run of what is built of the answers to one question, before a closer. -/
theorem answers_remade {r : Rule} {f f' : Answer r → Builder (List Node)} (stop : Nat)
    (hi : ts.Inside ts' i) (ht : ∀ j, ts.Inside ts' j → A.tell r j = B.tell r j)
    (hpath : ∀ j, ts'.Path j (j + B.len r j)) (hnone : f' none = Builder.unexpected)
    (hgives : ∀ j m, B.tell r j = some m → GivesAll B (f' (some m)) j (j + m.length))
    (hnodes : ∀ j m, ts.Inside ts' j → B.tell r j = some m →
      Remakes A B s (f (some m)) (f' (some m)) j) :
    Remakes A B s (collectTo stop (ask r >>= f)) (collectTo stop (ask r >>= f')) i := by
  refine remakes_collectTo (I := fun j => ts.Inside ts' j) (fun j front l hj hs _ hret => ?_)
    (fun j hj _ => remakes_answer h.right.wm (fun _ => ht j hj) hnone (hgives j) fun m => hnodes j m hj) hi
  obtain rfl := answer_endsAt h.right.wm hnone (hgives j) hs front l hret
  exact hj.next h (hpath j)

theorem nestedRuleNodes_remade (hi : ts.Inside ts' i) {m : Match NestedRule}
    (ht : B.tell .nestedRule i = some m) :
    Remakes A B s (nestedRuleNodes ts m.shape) (nestedRuleNodes ts' m.shape) i := by
  obtain ⟨a, ha, hs, _, hlead⟩ := B.alternative h.right.wm rfl rfl ht
  simp only [List.mem_cons, List.not_mem_nil, or_false] at ha
  rcases ha with rfl | rfl | rfl <;> rw [hs]
  · exact spacingNodes_remade h i
  · exact (hi.atRuleNode_remade h hin hlead).single
  · exact (rulesetNode_remade h hin hlead).single

omit h hin in
theorem rulesInterior_eq (ts : Tokens) (close : Nat) :
    rulesInterior ts close = collectTo close (ask .nestedRule >>= fun answer =>
      answer.shape?.elim Builder.unexpected (nestedRuleNodes ts)) := by
  unfold rulesInterior
  congr 2
  funext answer
  rcases answer with _ | ⟨_, _ | _ | _, _⟩ <;> rfl

theorem rulesInterior_remade (close : Nat) (hi : ts.Inside ts' i) :
    Remakes A B s (rulesInterior ts close) (rulesInterior ts' close) i := by
  rw [rulesInterior_eq, rulesInterior_eq]
  exact answers_remade h close hi (fun j hj => hj.nestedRule h (hj.atRule h))
    (nestedRule_path h.right) rfl (fun _ _ => nestedRuleNodes_gives h.right.wm)
    fun _ _ hj => nestedRuleNodes_remade h hin hj

/-! ## Guards -/

theorem conditionPartNodes_remade {m : Match ConditionPart} (ht : B.tell .conditionPart i = some m) :
    Remakes A B s (conditionPartNodes ts m.shape) (conditionPartNodes ts' m.shape) i := by
  obtain ⟨a, ha, hs, _, hlead⟩ := B.alternative h.right.wm rfl rfl ht
  simp only [List.mem_cons, List.not_mem_nil, or_false] at ha
  rcases ha with rfl | rfl | rfl | rfl | rfl | rfl | rfl | rfl | rfl | rfl | rfl <;> rw [hs]
  · exact (functionNode_remade h hin i).single
  · exact (bracketsNode_remade h hin hlead).single
  · exact (parenthesesNode_remade h hin hlead).single
  · exact (varNode_remade h hlead).single
  · exact (identNode_remade h i).single
  · exact (numberNode_remade h i).single
  · exact (remakes_mark h .delimiter i).single
  · exact (remakes_mark h .operator i).single
  · exact (combinatorNode_remade h i).single
  · exact spacingNodes_remade h i
  · exact (stringNode_remade h i).single

theorem conditionNode_remade (hguard : A.tell .condition i = B.tell .condition i) :
    Remakes A B s (conditionNode ts) (conditionNode ts') i := by
  refine Remakes.branch h .condition (remakes_cursor (remakes_look (Reading.len_congr hguard) ?_))
  refine (identNode_remade h i).then fun first j => Remakes.then ?_ fun rest _ =>
    remakes_pure (first :: rest)
  exact remakes_collectTo (I := fun _ => True) (fun _ _ _ _ _ _ _ => trivial)
    (fun j _ _ => remakes_answer h.right.wm (conditionPart_keeps h j) rfl
      (fun m => conditionPartNodes_gives h.right.wm) fun m => conditionPartNodes_remade h hin) trivial

/-! ## Mixins -/

theorem mixinBodyNodes_remade {e : Nat} (hbody : MixinBody B i e) (hle : e ≤ ts.size) :
    Remakes A B s (mixinBodyNodes ts) (mixinBodyNodes ts') i := by
  obtain ⟨a, b, rfl, rfl, hblock, rfl⟩ := hbody.parts
  have hguard := guard_found (A := A) h hblock hle
  refine (spacingNodes_remade h i).thenAt (spacingNodes_endsAt h.right.wm i) fun spacing => ?_
  refine Remakes.then (remakes_choose_starts (fun _ => Reading.len_congr hguard)
    (fun hpos => (conditionNode_gives h.right.wm hpos).single.endsAt h.right.wm)
    (fun _ => (conditionNode_remade h hin hguard).single) fun _ => remakes_pure []) fun guard _ => ?_
  exact (blockNode_remade h hin _).then fun block _ => remakes_pure (spacing ++ guard ++ [block])

theorem mixinNode_remade (hpos : 0 < B.len .mixin i) (hend : i + B.len .mixin i = ts.size) :
    Remakes A B s (mixinNode ts) (mixinNode ts') i := by
  have wm := h.right.wm
  obtain ⟨m, ht, hlen⟩ := B.exists_of_len hpos
  obtain ⟨hhead, hcases⟩ := mixin_cases (B.value_of_tell wm rfl ht)
  obtain ⟨hname, a, b, rfl, rfl, he⟩ := mixinHead_cases hhead
  refine Remakes.branch h .mixin (remakes_tell (mixin_found h hpos hend) ?_)
  rw [ht]
  refine (classOrIdNode_remade h hname).thenAt ((classOrIdNode_gives wm hname).endsAt wm) fun name => ?_
  refine (spacingNodes_remade h _).thenAt (spacingNodes_endsAt wm _) fun spacing => ?_
  refine Remakes.thenAt (remakes_choose_starts (arguments_keeps h _).len
      (fun ha => (readArgumentsNode_gives wm ha).single.endsAt wm)
      (fun _ => (argumentsNode_remade h hin _).single) fun _ => remakes_pure [])
    ((givesAll_optionally fun ha => (readArgumentsNode_gives wm ha).single).endsAt wm) fun args => ?_
  refine Remakes.then (remakes_given fun hs => ?_) fun body _ =>
    remakes_pure (name :: spacing ++ args ++ body)
  rcases hcases with ⟨hshape, _⟩ | ⟨_, hbody⟩
  · rw [hshape] at hs
    cases hs
  · rw [← he]
    exact mixinBodyNodes_remade h hin hbody (by omega)

/-! ## Calls -/

theorem callTailNodes_remade (i : Nat) :
    Remakes A B s (callTailNodes ts) (callTailNodes ts') i := by
  refine (argumentsNode_remade h hin i).then fun arguments _ => ?_
  refine (spacingNodes_remade h _).then fun spacing j => ?_
  exact Remakes.then (remakes_choose_starts (important_keeps h j).len
      (fun hpos => (importantNode_gives h.right.wm hpos).single.endsAt h.right.wm)
      (fun _ => (importantNode_remade h j).single) fun _ => remakes_pure [])
    fun important _ => remakes_pure (arguments :: spacing ++ important)

theorem mixinCallNode_remade (hpos : 0 < B.len .mixinCall i) :
    Remakes A B s (mixinCallNode ts) (mixinCallNode ts') i := by
  have wm := h.right.wm
  refine remakes_of_fits ((mixinCallNode_gives wm hpos).endsAt wm) (Nat.le_add_right i _) fun hle => ?_
  obtain ⟨m, ht, hlen⟩ := B.exists_of_len hpos
  obtain ⟨j, _, hj, hcases⟩ := mixinCall_cases (B.value_of_tell wm rfl ht)
  have hfits : i + B.value (callHeadLength ts' i) ≤ ts.size := by
    rcases hcases with ⟨_, hend⟩ | ⟨_, _, a, b, ha, hb, hend⟩ <;> omega
  refine Remakes.branch h .mixinCall (remakes_tell (mixinCall_keeps h i hle) ?_)
  rw [ht]
  refine remakes_cursor (remakes_look (callHead_kept h i hfits) ?_)
  refine Remakes.then ?_ fun head _ => (remakes_given fun _ => callTailNodes_remade h hin _).then
    fun tail _ => remakes_pure (head ++ tail)
  refine remakes_collectTo (I := fun _ => True) (fun _ _ _ _ _ _ _ => trivial) (fun l _ _ => ?_)
    trivial
  refine remakes_choose_sees (classOrId_kept h l)
    (fun hname => (classOrIdNode_gives wm hname).single.endsAt wm)
    (fun hname => (classOrIdNode_remade h hname).single) fun _ => ?_
  exact remakes_choose_starts (spacing_keeps h l).len (fun _ => spacingNodes_endsAt wm l)
    (fun _ => spacingNodes_remade h l) fun _ => (remakes_mark h .operator l).single

/-! ## Extends -/

omit hin in
theorem extendTargetNodes_remade {m : Match ExtendTarget} (ht : B.tell .extendTarget i = some m) :
    Remakes A B s (extendTargetNodes ts m.shape) (extendTargetNodes ts' m.shape) i := by
  obtain ⟨a, ha, hs, _, hlead⟩ := B.alternative h.right.wm rfl rfl ht
  simp only [List.mem_cons, List.not_mem_nil, or_false] at ha
  rcases ha with rfl | rfl | rfl | rfl <;> rw [hs]
  · exact parentNodes_remade h i
  · exact (identNode_remade h i).single
  · exact (classNode_remade h hlead).single
  · exact (idNode_remade h hlead).single

theorem extendNode_remade (hpos : 0 < B.len .extend i) :
    Remakes A B s (extendNode ts) (extendNode ts') i := by
  have wm := h.right.wm
  refine remakes_of_fits ((extendNode_gives wm hpos).endsAt wm) (Nat.le_add_right i _) fun hle => ?_
  obtain ⟨m, ht, hlen⟩ := B.exists_of_len hpos
  obtain ⟨target, p, htarget, rfl, hpseudo, a, b, ha, hb, hcases⟩ :=
    extend_cases (B.value_of_tell wm rfl ht)
  have hone : B.len .extendTarget i = target.length := by rw [Reading.len, htarget]; rfl
  have hfits : i + B.len .extendTarget i ≤ ts.size := by
    rcases hcases with ⟨_, hend⟩ | ⟨_, _, hend⟩ <;> omega
  refine Remakes.branch h .extend (remakes_tell (extend_found h hpos hle)
    (remakes_tell (extendTarget_keeps h i hfits) ?_))
  rw [ht, htarget]
  refine (extendTargetNodes_remade h htarget).thenAt
    ((extendTargetNodes_gives wm htarget).endsAt wm) fun lead => ?_
  refine (pseudoClassNode_remade h hpseudo).then fun pseudo _ => ?_
  refine Remakes.then (remakes_given fun _ => ?_) fun body _ => remakes_pure (lead ++ pseudo :: body)
  exact (spacingNodes_remade h _).then fun spacing _ =>
    (blockNode_remade h hin _).then fun block _ => remakes_pure (spacing ++ [block])

/-! ## Blocks -/

theorem blockItemNode_remade (hi : ts.Inside ts' i) :
    Remakes A B s (blockItemNode ts) (blockItemNode ts') i := by
  refine remakes_tell (hi.blockItem h) ?_
  cases ht : B.tell .blockItem i with
  | none => exact remakes_unexpected
  | some m =>
    obtain ⟨a, ha, hs, _, hlead⟩ := B.alternative h.right.wm rfl rfl ht
    simp only [List.mem_cons, List.not_mem_nil, or_false] at ha
    simp only [Answer.shape?, Option.map_some]
    rcases ha with rfl | rfl | rfl | rfl | rfl | rfl <;> rw [hs]
    · exact conditionNode_remade h hin (hi.condition h)
    · exact extendNode_remade h hin hlead
    · exact rulesetNode_remade h hin hlead
    · exact declarationNode_remade h hin i
    · exact hi.atRuleNode_remade h hin hlead
    · exact mixinCallNode_remade h hin hlead

theorem blockChunkNodes_remade (hi : ts.Inside ts' i) (shape : ChunkShape) :
    Remakes A B s (blockChunkNodes ts shape) (blockChunkNodes ts' shape) i := by
  refine (spacingNodes_remade h i).thenAt (spacingNodes_endsAt h.right.wm i) fun leading => ?_
  have hitem := blockItemNode_remade (A := A) h hin (hi.afterSpacing (B := B) h)
  cases shape with
  | delimitedItem =>
    exact hitem.then fun item _ => (remakes_mark h .declarationDelimiter _).then fun delimiter _ =>
      (spacingNodes_remade h _).then fun trailing _ =>
        remakes_pure (leading ++ [item] ++ [delimiter] ++ trailing)
  | item =>
    exact hitem.then fun item _ => (spacingNodes_remade h _).then fun trailing _ =>
      remakes_pure (leading ++ [item] ++ trailing)
  | delimiter =>
    exact (remakes_mark h .declarationDelimiter _).then fun delimiter _ =>
      (spacingNodes_remade h _).then fun trailing _ =>
        remakes_pure (leading ++ [delimiter] ++ trailing)
  | spacing => exact remakes_pure leading

theorem blockInterior_remade (close : Nat) (hi : ts.Inside ts' i) :
    Remakes A B s (blockInterior ts close) (blockInterior ts' close) i :=
  answers_remade h close hi (fun _ hj => hj.blockChunk h) (blockChunk_path h.right) rfl
    (fun _ _ => blockChunkNodes_gives h.right.wm)
    fun _ m hj _ => blockChunkNodes_remade h hin hj m.shape

/-! ## Insides -/

theorem Interior.content_remade (part : Interior) (hready : part.Ready B i)
    (hi : ts.Inside ts' i) : Remakes A B s (part.content ts) (part.content ts') i := by
  cases part with
  | group => exact preludeNodes_remade h hin rfl fun j hj _ => (hi.next h hj).dotsEnd h
  | arguments close => exact argumentsInterior_remade h hin close hi
  | block close => exact blockInterior_remade h hin close hi
  | rules close => exact rulesInterior_remade h hin close hi
  | keyframes close =>
    obtain ⟨o, rfl, hc, hpos⟩ := hready
    obtain ⟨c, hc', _, ht⟩ := keyframes_cases h.right.wm hpos
    cases hc.symm.trans hc'
    exact keyframesInterior_remade h hin hi ht
  | selectors =>
    exact selectorGroupNodes_remade h hready (Reading.len_congr (hi.selectorGroup h))
      fun j hj _ => ((hi.next h hj).afterSpacing h).clear h
  | var => exact (varNode_remade h hready).single

end

/-- Before a closer of the shorter stream the same insides are built in both streams. -/
theorem Reading.keepsInsides (A : Reading ts false) (B : Reading ts' false) (h : ts.Head ts')
    (s : Nat) : B.KeepsInsides ts s := by
  intro part i x _ hready hi hx
  generalize hn : ts.size - i = n
  induction n using Nat.strongRecOn generalizing part i x with
  | ind n ih =>
    have hin : B.KeepsInsides ts i := fun part' j y hij hready' hj hy => by
      have := hj.lt
      exact ih (ts.size - j) (by omega) part' j y (by omega) hready' hj hy rfl
    have hret := (Interior.meaning_eq_ok_iff h.right.wm hready).1 hx
    have hend := hi.end_lt h (Interior.meaning_path h.right hready hx)
    exact Plan.Returns.meaning h.left.wm ((Interior.content_remade (A := A) h hin part hready hi
      (Nat.le_refl i) x.1 x.2 hret).2 (Nat.le_of_lt hend))

/-! ## Start symbols -/

/-- A start symbol that covers the longer stream up to the cut is built in the shorter one as it is
in the longer one. -/
theorem Symbol.build_remade (h : ts.Head ts') (start : Symbol) (hs : start ≠ .stylesheet)
    (hpos : 0 < B.value (start.length ts' i)) (hend : i + B.value (start.length ts' i) = ts.size) :
    Remakes A B s (start.build ts) (start.build ts') i := by
  have hin := A.keepsInsides B h s
  cases start with
  | stylesheet => exact absurd rfl hs
  | arguments => exact argumentsNode_remade h hin i
  | atKeyword => exact atKeywordNode_remade h i
  | atRule => exact outerAtRuleNode_remade h hin hpos hend
  | attributeSelector => exact attributeSelectorNode_remade h hpos
  | block => exact blockNode_remade h hin i
  | brackets => exact bracketsNode_remade h hin hpos
  | classSelector => exact classNode_remade h hpos
  | color => exact colorNode_remade h i
  | combinator => exact combinatorNode_remade h i
  | compoundSelector => exact compoundNode_remade h hpos
  | condition =>
    exact conditionNode_remade h hin (condition_found h hpos (Nat.le_of_eq hend) (Or.inl hend))
  | declaration => exact declarationNode_remade h hin i
  | declarationDelimiter => exact remakes_mark h .declarationDelimiter i
  | delimiter => exact remakes_mark h .delimiter i
  | dimension => exact dimensionNode_remade h i
  | escapedString => exact escapedStringNode_remade h i
  | expression => exact expressionNode_remade h hpos
  | extend => exact extendNode_remade h hin hpos
  | function => exact functionNode_remade h hin i
  | idSelector => exact idNode_remade h hpos
  | ident => exact identNode_remade h i
  | important => exact importantNode_remade h i
  | mixinCall => exact mixinCallNode_remade h hin hpos
  | interpolation => exact interpolationNode_remade h i
  | mixin => exact mixinNode_remade h hin hpos hend
  | blockComment => exact blockCommentNode_remade h i
  | namespaceBar => exact remakes_mark h .namespaceBar i
  | number => exact numberNode_remade h i
  | operator => exact remakes_mark h .operator i
  | parentheses => exact parenthesesNode_remade h hin hpos
  | parentSelector => exact remakes_mark h .parentSelector i
  | percentage => exact percentageNode_remade h i
  | progid => exact progidNode_remade h i
  | property => exact propertyNode_remade h i
  | propertyDelimiter => exact remakes_mark h .propertyDelimiter i
  | pseudoClass => exact pseudoClassNode_remade h hpos
  | pseudoElement => exact pseudoElementNode_remade h i
  | ruleset => exact rulesetNode_remade h hin hpos
  | selector =>
    refine selectorNode_remade h hpos fun e he => clear_past_end ?_
    replace hend : i + B.len .selector i = ts.size := hend
    omega
  | lineComment => exact lineCommentNode_remade h i
  | space => exact spaceNode_remade h i
  | string => exact stringNode_remade h i
  | typeSelector => exact typeSelectorNode_remade h hpos
  | unary => exact remakes_mark h .unary i
  | uri => exact uriNode_remade h hpos
  | value => exact valueNode_remade h hin i
  | var => exact varNode_remade h hpos
  | varList => exact varListNode_remade h hpos

end LessCss
