import LessCss.Proofs.Build.AtRules

/-! Building mixins, their calls, guards and extends, and the statements of blocks and stylesheets.
At the end stands what is promised of every inside. -/

namespace LessCss

open Lookahead Builder Grammar Tokens

variable {ts : Tokens} {capped : Bool} {A : Reading ts capped} {i j k : Nat}

/-! ## Guards -/

theorem conditionPartNodes_gives (wm : ts.WellMarked) {m : Match ConditionPart}
    (h : A.tell .conditionPart i = some m) :
    GivesAll A (conditionPartNodes ts m.shape) i (i + m.length) := by
  obtain ⟨a, ha, hs, hl, hpos⟩ := A.alternative wm rfl rfl h
  simp only [List.mem_cons, List.not_mem_nil, or_false] at ha
  rcases ha with rfl | rfl | rfl | rfl | rfl | rfl | rfl | rfl | rfl | rfl | rfl <;>
    rw [hl, hs]
  · exact (functionNode_gives wm hpos).single
  · exact (bracketsNode_gives wm hpos).single
  · exact (parenthesesNode_gives wm hpos).single
  · exact (varNode_gives wm hpos).single
  · exact (identNode_gives wm hpos).single
  · exact (numberNode_gives wm hpos).single
  · exact (gives_token (k := .delimiter) ⟨rfl, rfl⟩ hpos rfl).single
  · exact (gives_token (k := .operator) ⟨rfl, rfl⟩ hpos rfl).single
  · exact (combinatorNode_gives wm hpos).single
  · exact spacingNodes_gives wm A i
  · exact (gives_token (k := .string) ⟨rfl, rfl⟩ hpos rfl).single

/-- One round of a guard: an element, unless a block starts here. -/
def conditionRound (ts : Tokens) (j : Nat) : Lookahead Nat := do
  if 0 < (← blockLength ts j) then return 0 else lengthOf .conditionPart j

theorem conditionRound_cases (h : 0 < A.value (conditionRound ts i)) :
    0 < A.len .conditionPart i ∧ A.value (conditionRound ts i) = A.len .conditionPart i := by
  unfold conditionRound at h ⊢
  rw [A.value_bind] at h ⊢
  split at h
  · cases h
  · next hb =>
    rw [if_neg hb]
    exact ⟨h, rfl⟩

theorem condition_cases (wm : ts.WellMarked) (h : 0 < A.len .condition i) :
    A.len .ident i = 1 ∧
      i + A.len .condition i = A.value (walkWhile ts.size (conditionRound ts) (i + 1)) := by
  have he := A.len_of_sole (r := .condition) (u := ()) wm rfl (A.lt_of_len h) rfl
  have hround : (fun j => do
      if 0 < (← blockLength ts j) then return 0 else lengthOf .conditionPart j) =
      conditionRound ts := rfl
  unfold conditionLength at he
  split at he
  · rw [A.value_pure] at he
    omega
  rw [A.value_bind, A.value_lengthOf] at he
  split at he
  · rw [A.value_pure] at he
    omega
  next hident =>
  have hone : A.len .ident i = 1 := Decidable.byContradiction hident
  rw [hround, A.value_bind] at he
  split at he
  · rw [A.value_tokensBetween] at he
    exact ⟨hone, by omega⟩
  · rw [A.value_bind] at he
    split at he
    · rw [A.value_tokensBetween] at he
      exact ⟨hone, by omega⟩
    · rw [A.value_pure] at he
      omega

theorem conditionNode_gives (wm : ts.WellMarked) (h : 0 < A.len .condition i) :
    Gives A (conditionNode ts) i (i + A.len .condition i) := by
  obtain ⟨hone, hend⟩ := condition_cases wm h
  have htrail := A.trail_walkWhile ts.size (conditionRound ts) (i + 1)
  rw [← hend] at htrail
  refine GivesAll.branch (k := .condition) (fun E lo hc => runs_cursor.2 ?_) ⟨rfl, rfl⟩ (by omega)
  refine runs_look.2 ⟨⟨_, lengthOf_top .condition i⟩, ?_⟩
  refine (identNode_gives wm (by omega)).then hc fun first hfirst hc => ?_
  rw [hone] at hfirst hc ⊢
  refine (givesAll_collectTo htrail fun j l hjl E lo hc => runs_ask.2 ?_).then hc
    fun rest hrest _ => ⟨rfl, hfirst.single.append hrest⟩
  obtain ⟨_, hpos, rfl⟩ := hjl
  obtain ⟨hpart, hlen⟩ := conditionRound_cases hpos
  obtain ⟨m, ht, hm⟩ := A.exists_of_len hpart
  rw [hlen, ← hm, ht]
  exact conditionPartNodes_gives wm ht E lo hc

/-! ## Mixins -/

theorem arguments_cases (wm : ts.WellMarked) (h : 0 < A.len .arguments i) :
    ∃ c, ts.closer? i .leftParen = some c ∧ i + A.len .arguments i = c + 1 := by
  have he := A.len_of_sole (r := .arguments) (u := ()) wm rfl (A.lt_of_len h) rfl
  unfold argumentsLength at he
  split at he
  · next c hc =>
    have hlt := wm.closer_lt hc
    rw [A.value_bind] at he
    split at he
    · rw [A.value_tokensBetween] at he
      exact ⟨c, hc, by omega⟩
    · rw [A.value_pure] at he
      omega
  · rw [A.value_pure] at he
    omega

theorem readArgumentsNode_gives (wm : ts.WellMarked) (h : 0 < A.len .arguments i) :
    Gives A (argumentsNode ts) i (i + A.len .arguments i) := by
  obtain ⟨c, hc, hlen⟩ := arguments_cases wm h
  rw [hlen]
  exact argumentsNode_gives wm hc

theorem mixinHead_cases (h : 0 < A.value (mixinHeadLength i)) :
    0 < A.value (classOrIdLength i) ∧ ∃ a b, a = i + A.value (classOrIdLength i) ∧
      b = a + A.len .spacing a ∧ i + A.value (mixinHeadLength i) = b + A.len .arguments b := by
  unfold mixinHeadLength at h ⊢
  rw [A.value_bind] at h ⊢
  split at h
  · cases h
  next hn =>
  refine ⟨Nat.pos_of_ne_zero hn, _, _, rfl, rfl, ?_⟩
  rw [A.value_bind, A.value_lengthOf, A.value_bind, A.value_lengthOf, A.value_tokensBetween]
  omega

/-- What follows the head of a mixin that has a block. -/
structure MixinBody (A : Reading ts capped) (i j : Nat) : Prop where
  parts : ∃ a b, a = i + A.len .spacing i ∧ b = a + A.len .condition a ∧
    0 < A.value (blockLength ts b) ∧ j = b + A.value (blockLength ts b)

theorem mixin_cases {m : Match BlockShape} (h : A.value (mixinMatch ts i) = some m) :
    0 < A.value (mixinHeadLength i) ∧
      (m.shape = .bare ∧ m.length = A.value (mixinHeadLength i) ∨
        m.shape = .withBlock ∧ MixinBody A (i + A.value (mixinHeadLength i)) (i + m.length)) := by
  unfold mixinMatch at h
  rw [A.value_bind] at h
  split at h
  · cases h
  next hn =>
  refine ⟨Nat.pos_of_ne_zero hn, ?_⟩
  rw [A.value_bind, A.value_lengthOf, A.value_bind, A.value_lengthOf, A.value_bind] at h
  split at h
  · exact Or.inl (of?_eq_some h)
  · next hb =>
    rw [A.value_bind, A.value_tokensBetween, A.value_pure] at h
    obtain ⟨hs, hl⟩ := of?_eq_some h
    exact Or.inr ⟨hs, ⟨_, _, rfl, rfl, Nat.pos_of_ne_zero hb, by omega⟩⟩

theorem mixinBodyNodes_gives (wm : ts.WellMarked) (h : MixinBody A i j) :
    GivesAll A (mixinBodyNodes ts) i j := by
  obtain ⟨a, b, rfl, rfl, hblock, rfl⟩ := h.parts
  intro E lo hc
  refine (spacingNodes_gives wm A i).then hc fun spacing hspacing hc => ?_
  refine (givesAll_optionally fun hg => (conditionNode_gives wm hg).single).then hc
    fun guard hguard hc => ?_
  refine (blockNode_gives wm hblock).then hc fun block hb _ => ?_
  exact ⟨rfl, (hspacing.append hguard).append hb.single⟩

theorem mixinNode_gives (wm : ts.WellMarked) (h : 0 < A.len .mixin i) :
    Gives A (mixinNode ts) i (i + A.len .mixin i) := by
  obtain ⟨m, ht, hlen⟩ := A.exists_of_len h
  have hbody := A.value_of_tell wm rfl ht
  have hpos := m.length_pos
  obtain ⟨hhead, hcases⟩ := mixin_cases hbody
  obtain ⟨hname, a, b, rfl, rfl, hend⟩ := mixinHead_cases hhead
  rw [← hlen]
  refine GivesAll.branch (k := .mixin) (fun E lo hc => runs_ask.2 ?_) ⟨rfl, rfl⟩ (by omega)
  rw [ht]
  refine (classOrIdNode_gives wm hname).then hc fun name hn hc => ?_
  refine (spacingNodes_gives wm A _).then hc fun spacing hspacing hc => ?_
  refine (givesAll_optionally fun ha => (readArgumentsNode_gives wm ha).single).then hc
    fun args hargs hc => ?_
  have hlead := (hn.single.append hspacing).append hargs
  rw [← hend] at hlead hc ⊢
  refine (givesAll_given (j := i + m.length) (fun hs => ?_) (fun hs => ?_)).then hc
    fun body hb _ => ⟨rfl, hlead.append hb⟩
  · rcases hcases with ⟨hshape, _⟩ | ⟨_, hmb⟩
    · rw [hshape] at hs
      cases hs
    · exact mixinBodyNodes_gives wm hmb
  · rcases hcases with ⟨_, hl⟩ | ⟨hshape, _⟩
    · rw [hl]
    · rw [hshape] at hs
      cases hs

/-! ## Calls -/

/-- One round of the head of a call: a class, an id, spacing or `>`. -/
def callRound (ts : Tokens) (j : Nat) : Lookahead Nat :=
  classOrIdLength j <|> lengthOf .spacing j <|> tokenLength ts [.greater] j

theorem callHead_cases (h : 0 < A.value (callHeadLength ts i)) :
    0 < A.value (classOrIdLength i) ∧
      i + A.value (callHeadLength ts i) = A.value (walkWhile ts.size (callRound ts) i) := by
  have hround : (fun j => classOrIdLength j <|> lengthOf .spacing j <|>
      tokenLength ts [.greater] j) = callRound ts := rfl
  unfold callHeadLength at h ⊢
  rw [A.value_bind] at h ⊢
  split at h
  · cases h
  · next hn =>
    rw [hround, A.value_bind, A.value_tokensBetween] at h ⊢
    exact ⟨Nat.pos_of_ne_zero hn, by omega⟩

theorem callPiece_gives (wm : ts.WellMarked) (h : 0 < A.value (callRound ts i)) :
    GivesAll A (choose (sees classOrIdLength) (single (classOrIdNode ts))
      (choose (starts .spacing) (spacingNodes ts) (single (operatorNode ts)))) i
      (i + A.value (callRound ts i)) := by
  rw [callRound, A.value_orElse, A.value_orElse, A.value_lengthOf] at h ⊢
  refine givesAll_choose_sees (classOrIdLength_measures (Scope.top_open (by decide) i))
    (fun hp => ?_) (fun hz => ?_)
  · rw [if_neg (show ¬ A.value (classOrIdLength i) = 0 by omega)]
    exact (classOrIdNode_gives wm hp).single
  rw [if_pos hz] at h ⊢
  refine givesAll_choose_starts (fun hp => ?_) (fun hz => ?_)
  · rw [if_neg (show ¬ A.len .spacing i = 0 by omega)]
    exact spacingNodes_gives wm A i
  · rw [if_pos hz] at h ⊢
    exact (gives_token (k := .operator) ⟨rfl, rfl⟩ h rfl).single

theorem mixinCall_cases {m : Match CallShape} (h : A.value (mixinCallMatch ts i) = some m) :
    ∃ j, 0 < A.value (callHeadLength ts i) ∧ j = i + A.value (callHeadLength ts i) ∧
      (m.shape = .bare ∧ i + m.length = j ∨
        m.shape = .withArguments ∧ 0 < A.len .arguments j ∧ ∃ a b, a = j + A.len .arguments j ∧
          b = a + A.len .spacing a ∧ i + m.length = b + A.len .important b) := by
  unfold mixinCallMatch at h
  rw [A.value_bind] at h
  split at h
  · cases h
  next hn =>
  refine ⟨_, Nat.pos_of_ne_zero hn, rfl, ?_⟩
  rw [A.value_bind, A.value_lengthOf] at h
  split at h
  · obtain ⟨hs, hl⟩ := of?_eq_some h
    exact Or.inl ⟨hs, by omega⟩
  · next ha =>
    rw [A.value_bind, A.value_lengthOf, A.value_bind, A.value_lengthOf, A.value_bind,
      A.value_tokensBetween, A.value_pure] at h
    obtain ⟨hs, hl⟩ := of?_eq_some h
    exact Or.inr ⟨hs, Nat.pos_of_ne_zero ha, _, _, rfl, rfl, by omega⟩

theorem mixinCallNode_gives (wm : ts.WellMarked) (h : 0 < A.len .mixinCall i) :
    Gives A (mixinCallNode ts) i (i + A.len .mixinCall i) := by
  obtain ⟨m, ht, hlen⟩ := A.exists_of_len h
  have hbody := A.value_of_tell wm rfl ht
  have hpos := m.length_pos
  obtain ⟨j, hhead, hj, hcases⟩ := mixinCall_cases hbody
  have htrail := A.trail_walkWhile ts.size (callRound ts) i
  rw [← (callHead_cases hhead).2, ← hj] at htrail
  rw [← hlen]
  refine GivesAll.branch (k := .mixinCall) (fun E lo hc => runs_ask.2 ?_) ⟨rfl, rfl⟩ (by omega)
  rw [ht]
  refine runs_cursor.2 (runs_look.2
    ⟨⟨_, callHeadLength_measures (Scope.top_open (by decide) i)⟩, ?_⟩)
  rw [← hj]
  refine (givesAll_collectTo htrail fun k l hkl => ?_).then hc fun head hhead hc => ?_
  · obtain ⟨_, hp, rfl⟩ := hkl
    exact callPiece_gives wm hp
  refine (givesAll_given (j := i + m.length) (fun hs => ?_) (fun hs => ?_)).then hc
    fun tail htail _ => ⟨rfl, hhead.append htail⟩
  · rcases hcases with ⟨hshape, _⟩ | ⟨_, hargs, a, b, rfl, rfl, hend⟩
    · rw [hshape] at hs
      cases hs
    rw [hend]
    intro E lo hc
    refine (readArgumentsNode_gives wm hargs).then hc fun args hargs hc => ?_
    refine (spacingNodes_gives wm A _).then hc fun spacing hspacing hc => ?_
    refine (givesAll_optionally fun hi => (importantNode_gives wm hi).single).then hc
      fun mark hmark _ => ?_
    exact ⟨rfl, (hargs.single.append hspacing).append hmark⟩
  · rcases hcases with ⟨_, hend⟩ | ⟨hshape, _⟩
    · exact hend.symm
    · rw [hshape] at hs
      cases hs

/-! ## Extends -/

theorem extendTargetNodes_gives (wm : ts.WellMarked) {m : Match ExtendTarget}
    (h : A.tell .extendTarget i = some m) :
    GivesAll A (extendTargetNodes ts m.shape) i (i + m.length) := by
  obtain ⟨a, ha, hs, hl, hpos⟩ := A.alternative wm rfl rfl h
  simp only [List.mem_cons, List.not_mem_nil, or_false] at ha
  rcases ha with rfl | rfl | rfl | rfl <;> rw [hl, hs]
  · exact parentNodes_gives wm hpos
  · exact (identNode_gives wm hpos).single
  · exact (classNode_gives wm hpos).single
  · exact (idNode_gives wm hpos).single

theorem extend_cases {m : Match BlockShape} (h : A.value (extendMatch ts i) = some m) :
    ∃ target p, A.tell .extendTarget i = some target ∧ p = i + target.length ∧
      0 < A.len .pseudoClass p ∧ ∃ a b, a = p + A.len .pseudoClass p ∧ b = a + A.len .spacing a ∧
        (m.shape = .bare ∧ i + m.length = a ∨
          m.shape = .withBlock ∧ 0 < A.value (blockLength ts b) ∧
            i + m.length = b + A.value (blockLength ts b)) := by
  have hpos := m.length_pos
  unfold extendMatch at h
  rw [A.value_bind, A.value_find] at h
  split at h
  · cases h
  next target htarget =>
  refine ⟨target, _, htarget, rfl, ?_⟩
  dsimp only at h
  split at h
  · cases h
  rw [A.value_bind, A.value_lengthOf] at h
  split at h
  · cases h
  next hn =>
  refine ⟨Nat.pos_of_ne_zero hn, _, _, rfl, rfl, ?_⟩
  rw [A.value_bind, A.value_lengthOf, A.value_bind] at h
  split at h
  · rw [A.value_bind, A.value_tokensBetween, A.value_pure] at h
    obtain ⟨hs, hl⟩ := of?_eq_some h
    exact Or.inl ⟨hs, by omega⟩
  · next hb =>
    rw [A.value_bind, A.value_tokensBetween, A.value_pure] at h
    obtain ⟨hs, hl⟩ := of?_eq_some h
    exact Or.inr ⟨hs, Nat.pos_of_ne_zero hb, by omega⟩

theorem extendNode_gives (wm : ts.WellMarked) (h : 0 < A.len .extend i) :
    Gives A (extendNode ts) i (i + A.len .extend i) := by
  obtain ⟨m, ht, hlen⟩ := A.exists_of_len h
  have hbody := A.value_of_tell wm rfl ht
  have hpos := m.length_pos
  obtain ⟨target, p, htarget, rfl, hpseudo, a, b, ha, rfl, hcases⟩ := extend_cases hbody
  rw [← hlen]
  refine GivesAll.branch (k := .extend) (fun E lo hc => runs_ask.2 (runs_ask.2 ?_)) ⟨rfl, rfl⟩
    (by omega)
  rw [ht, htarget]
  refine (extendTargetNodes_gives wm htarget).then hc fun lead hlead hc => ?_
  refine (pseudoClassNode_gives wm hpseudo).then hc fun pseudo hp hc => ?_
  rw [← ha] at hp hc ⊢
  refine (givesAll_given (j := i + m.length) (fun hs => ?_) (fun hs => ?_)).then hc
    fun body hb _ => ⟨rfl, hlead.append (.cons hp hb)⟩
  · rcases hcases with ⟨hshape, _⟩ | ⟨_, hblock, hend⟩
    · rw [hshape] at hs
      cases hs
    rw [hend]
    intro E lo hc
    refine (spacingNodes_gives wm A a).then hc fun spacing hspacing hc => ?_
    refine (blockNode_gives wm hblock).then hc fun block hb _ => ?_
    exact ⟨rfl, hspacing.append hb.single⟩
  · rcases hcases with ⟨_, hend⟩ | ⟨hshape, _⟩
    · exact hend.symm
    · rw [hshape] at hs
      cases hs

/-! ## Blocks -/

theorem blockItemNode_gives (wm : ts.WellMarked) (h : 0 < A.len .blockItem i) :
    Gives A (blockItemNode ts) i (i + A.len .blockItem i) := by
  obtain ⟨m, ht, hlen⟩ := A.exists_of_len h
  obtain ⟨a, ha, hs, hl, hpos⟩ := A.alternative wm rfl rfl ht
  rw [← hlen]
  intro E lo hc
  refine runs_ask.2 ?_
  rw [ht]
  simp only [List.mem_cons, List.not_mem_nil, or_false] at ha
  simp only [Answer.shape?, Option.map_some]
  rcases ha with rfl | rfl | rfl | rfl | rfl | rfl <;> rw [hl, hs]
  · exact conditionNode_gives wm hpos E lo hc
  · exact extendNode_gives wm hpos E lo hc
  · exact rulesetNode_gives wm hpos E lo hc
  · exact declarationNode_gives wm hpos E lo hc
  · exact atRuleNode_gives wm hpos E lo hc
  · exact mixinCallNode_gives wm hpos E lo hc

theorem spacingAfterSemicolon_cases (h : 0 < A.value (spacingAfterSemicolon ts i)) :
    ts.is i .semicolon = true ∧
      A.value (spacingAfterSemicolon ts i) = A.len .spacing (i + 1) := by
  unfold spacingAfterSemicolon at h ⊢
  split at h
  · next hs =>
    rw [if_pos hs]
    exact ⟨hs, rfl⟩
  · cases h

/-- What a stretch of a block consists of behind the spacing it starts with, from token `j` up to
token `e`. -/
def ChunkRest (A : Reading ts capped) (shape : ChunkShape) (j e : Nat) : Prop :=
  match shape with
  | .delimitedItem => 0 < A.len .blockItem j ∧ ∃ k, k = j + A.len .blockItem j ∧
      ts.is k .semicolon = true ∧ e = k + 1 + A.len .spacing (k + 1)
  | .item => 0 < A.len .blockItem j ∧ ∃ k, k = j + A.len .blockItem j ∧ e = k + A.len .spacing k
  | .delimiter => ts.is j .semicolon = true ∧ e = j + 1 + A.len .spacing (j + 1)
  | .spacing => e = j

theorem blockChunk_cases {m : Match ChunkShape} (h : A.value (blockChunkMatch ts i) = some m) :
    ChunkRest A m.shape (i + A.len .spacing i) (i + m.length) := by
  have hpos := m.length_pos
  unfold blockChunkMatch at h
  rw [A.value_bind, A.value_lengthOf, A.value_bind, A.value_find] at h
  dsimp only at h
  split at h
  · next item hitem =>
    have hlen : A.len .blockItem (i + A.len .spacing i) = item.length := by
      rw [Reading.len, hitem]
      rfl
    have hitem := item.length_pos
    rw [A.value_bind] at h
    split at h
    · rw [A.value_bind, A.value_lengthOf, A.value_bind, A.value_tokensBetween, A.value_pure] at h
      obtain ⟨hs, hl⟩ := of?_eq_some h
      rw [hs]
      refine ⟨by omega, _, rfl, ?_⟩
      rw [hlen]
      omega
    · next hn =>
      obtain ⟨hsemi, hspacing⟩ := spacingAfterSemicolon_cases (Nat.pos_of_ne_zero hn)
      rw [hspacing, A.value_bind, A.value_tokensBetween, A.value_pure] at h
      obtain ⟨hs, hl⟩ := of?_eq_some h
      rw [hs]
      refine ⟨by omega, _, rfl, by rw [hlen]; exact hsemi, ?_⟩
      rw [hlen]
      omega
  · split at h
    · next hsemi =>
      rw [A.value_bind, A.value_lengthOf, A.value_bind, A.value_tokensBetween, A.value_pure] at h
      obtain ⟨hs, hl⟩ := of?_eq_some h
      rw [hs]
      exact ⟨hsemi, by omega⟩
    · rw [A.value_pure] at h
      obtain ⟨hs, hl⟩ := of?_eq_some h
      rw [hs, hl]
      rfl

theorem blockChunkNodes_gives (wm : ts.WellMarked) {m : Match ChunkShape}
    (h : A.tell .blockChunk i = some m) :
    GivesAll A (blockChunkNodes ts m.shape) i (i + m.length) := by
  have hbody := A.value_of_tell wm rfl h
  have hrest := blockChunk_cases hbody
  generalize i + m.length = e at hrest
  intro E lo hc
  refine (spacingNodes_gives wm A i).then hc fun leading hleading hc => ?_
  have hdelim : ∀ {j : Nat}, ts.is j .semicolon = true →
      Gives A (declarationDelimiterNode ts) j (j + 1) :=
    fun hsemi => gives_mark (k := .declarationDelimiter) ⟨rfl, rfl⟩ hsemi rfl
  match m.shape, hrest with
  | .delimitedItem, ⟨hitem, k, hk, hsemi, he⟩ =>
    refine (blockItemNode_gives wm hitem).then hc fun item hi hc => ?_
    rw [← hk] at hi hc ⊢
    refine (hdelim hsemi).then hc fun d hd hc => ?_
    refine (spacingNodes_gives wm A _).then hc fun trailing ht _ => ?_
    rw [he]
    exact ⟨rfl, ((hleading.append hi.single).append hd.single).append ht⟩
  | .item, ⟨hitem, k, hk, he⟩ =>
    refine (blockItemNode_gives wm hitem).then hc fun item hi hc => ?_
    rw [← hk] at hi hc ⊢
    refine (spacingNodes_gives wm A _).then hc fun trailing ht _ => ?_
    rw [he]
    exact ⟨rfl, (hleading.append hi.single).append ht⟩
  | .delimiter, ⟨hsemi, he⟩ =>
    refine (hdelim hsemi).then hc fun d hd hc => ?_
    refine (spacingNodes_gives wm A _).then hc fun trailing ht _ => ?_
    rw [he]
    exact ⟨rfl, (hleading.append hd.single).append ht⟩
  | .spacing, he =>
    rw [he]
    exact ⟨rfl, hleading⟩

/-! ## Stylesheets -/

theorem varDeclaration_cases (h : 0 < A.value (varDeclarationLength ts i)) :
    A.value (varDeclarationLength ts i) = A.len .declaration i := by
  unfold varDeclarationLength at h ⊢
  rw [A.value_bind, A.value_lengthOf] at h ⊢
  split at h
  · next hn =>
    rw [if_pos hn]
    rfl
  · cases h

theorem sheetItemNodes_gives (wm : ts.WellMarked) {m : Match SheetItem}
    (h : A.tell .sheetItem i = some m) :
    GivesAll A (sheetItemNodes ts m.shape) i (i + m.length) := by
  obtain ⟨a, ha, hs, hl, hpos⟩ := A.alternative wm rfl rfl h
  simp only [List.mem_cons, List.not_mem_nil, or_false] at ha
  rcases ha with rfl | rfl | rfl | rfl | rfl | rfl | rfl | rfl <;> rw [hl, hs]
  · exact spacingNodes_gives wm A i
  · have hd := varDeclaration_cases hpos
    change GivesAll A _ i (i + A.value (varDeclarationLength ts i))
    rw [hd]
    exact (declarationNode_gives wm (hd ▸ hpos)).single
  · exact (atRuleNode_gives wm hpos).single
  · exact (extendNode_gives wm hpos).single
  · exact (rulesetNode_gives wm hpos).single
  · exact (mixinNode_gives wm hpos).single
  · exact (declarationNode_gives wm hpos).single
  · exact (gives_token (k := .declarationDelimiter) ⟨rfl, rfl⟩ hpos rfl).single

/-- The token behind the longest run of statements. -/
def Reading.sheetEnd (A : Reading ts capped) (i : Nat) : Nat :=
  A.value (walkWhile ts.size (lengthOf .sheetItem) i)

theorem Reading.sheetEnd_eq (A : Reading ts capped) (hi : i < ts.size) : A.sheetEnd i =
    if 0 < A.len .sheetItem i then A.sheetEnd (i + A.len .sheetItem i) else i := by
  rw [sheetEnd, walkWhile, A.value_walk, if_pos hi, A.value_map, A.value_lengthOf]
  rcases Nat.eq_zero_or_pos (A.len .sheetItem i) with hz | hp
  · rw [hz]
    rfl
  · rw [if_pos hp, if_pos ⟨hp, rfl⟩]
    rfl

/-- A stylesheet is built up to the end of the stream, or building fails where the run of statements
ends that the lookahead has found. -/
theorem stylesheetNode_runs (wm : ts.WellMarked) {E : Nat → Prop} {lo : Nat} (hc : Site ts E lo i)
    (hi : i < ts.size) (hE : A.sheetEnd i < ts.size → E (A.sheetEnd i)) :
    (stylesheetNode ts).Runs A E lo i fun n k =>
      k = ts.size ∧ A.sheetEnd i = ts.size ∧ Covers ts i ts.size n := by
  refine runs_cursor.2 (runs_bind.2 (Runs.mono (Q := fun ns k =>
    Tiles ts i k ns ∧ k = ts.size ∧ A.sheetEnd i = ts.size) ?_ fun ns k hk => ?_))
  · refine runs_collectTo (I := fun j => A.sheetEnd j = A.sheetEnd i ∧ j ≤ ts.size) hc
      (fun j hj hstop => ?_) (fun j hj hlt hc => runs_ask.2 ?_) ⟨rfl, by omega⟩
    · have hend : A.sheetEnd j = j := by
        rw [Reading.sheetEnd, walkWhile, A.value_walk, if_neg (by omega)]
      exact ⟨by omega, by omega⟩
    · have hstep := A.sheetEnd_eq hlt
      cases ht : A.tell .sheetItem j with
      | none =>
        have hz : A.len .sheetItem j = 0 := by
          rw [Reading.len, ht]
          rfl
        rw [hz, if_neg (Nat.lt_irrefl 0), hj.1] at hstep
        rw [hstep] at hE
        exact hE hlt
      | some m =>
        have hlen : A.len .sheetItem j = m.length := by
          rw [Reading.len, ht]
          rfl
        have hpos := m.length_pos
        have hle := A.len_le (r := .sheetItem) (i := j) (by omega)
        rw [if_pos (by omega), hlen, hj.1] at hstep
        refine (sheetItemNodes_gives wm ht E lo hc).mono fun ns l hns => ?_
        obtain ⟨rfl, htiles⟩ := hns
        exact ⟨htiles, by omega, hstep.symm, by omega⟩
  · obtain ⟨htiles, rfl, hend⟩ := hk
    exact (runs_make (.branch (k := .stylesheet) ⟨rfl, rfl⟩ hi htiles)).mono fun n k hk =>
      ⟨hk.1, hend, hk.2⟩

/-! ## Insides -/

theorem argumentsInterior_runs (wm : ts.WellMarked) {E : Nat → Prop} {lo close : Nat}
    (hc : Site ts E lo i) (hd : ts.Deferred i) :
    (argumentsInterior ts close).Runs A E lo i fun ns k => Tiles ts i k ns := by
  refine runs_collectTo_some hc fun j hij hc => ?_
  refine runs_choose_starts (fun hdecl => ?_) fun _ => runs_ask.2 ?_
  · exact (declarationNode_gives wm hdecl).single.moves (by omega) hc
  cases ht : A.tell .argument j with
  | some m =>
    exact (argumentNodes_gives wm ht).moves (Nat.lt_add_of_pos_right m.length_pos) hc
  | none =>
    refine runs_choose_starts (fun hclass => ?_) fun _ => hc.deferred j (hd.mono hij)
    exact (classNode_gives wm hclass).single.moves (by omega) hc

theorem blockInterior_runs (wm : ts.WellMarked) {E : Nat → Prop} {lo close : Nat}
    (hc : Site ts E lo i) (hd : ts.Deferred i) :
    (blockInterior ts close).Runs A E lo i fun ns k => Tiles ts i k ns := by
  refine runs_collectTo_some hc fun j hij hc => runs_ask.2 ?_
  cases ht : A.tell .blockChunk j with
  | some m =>
    exact (blockChunkNodes_gives wm ht).moves (Nat.lt_add_of_pos_right m.length_pos) hc
  | none => exact hc.deferred j (hd.mono hij)

/-- Every inside that is ready is built as promised. -/
theorem content_runs (wm : ts.WellMarked) {E : Nat → Prop} (hE : ∀ j, ts.Deferred j → E j)
    (part : Interior) (i : Nat) (h : part.Ready A i) :
    (part.content ts).Runs A E i i fun ns k => Tiles ts i k ns ∧ part.Ends A i k := by
  have hc : Site ts E i i := ⟨hE, Nat.le_refl i⟩
  cases part with
  | group => exact (preludeNodes_gives wm A i E i hc).mono fun ns k hk => ⟨hk.1 ▸ hk.2, trivial⟩
  | arguments close =>
    exact (argumentsInterior_runs wm hc h.deferred).mono fun ns k hk => ⟨hk, trivial⟩
  | block close => exact (blockInterior_runs wm hc h.deferred).mono fun ns k hk => ⟨hk, trivial⟩
  | rules close =>
    obtain ⟨o, rfl, hcl, hlen⟩ := h
    have hlt := wm.closer_lt hcl
    exact (rulesInterior_gives wm (ruleBody_trail wm (by omega) hlen) E _ hc).mono
      fun ns k hk => ⟨hk.1 ▸ hk.2, hk.1⟩
  | keyframes close =>
    obtain ⟨o, rfl, hcl, hpos⟩ := h
    obtain ⟨c, hc', _, htrail⟩ := keyframes_cases wm hpos
    cases hcl.symm.trans hc'
    exact (keyframesInterior_gives wm htrail E _ hc).mono fun ns k hk => ⟨hk.1 ▸ hk.2, hk.1⟩
  | selectors =>
    exact (selectorGroupNodes_gives wm h E i hc).mono fun ns k hk => ⟨hk.1 ▸ hk.2, hk.1⟩
  | var => exact ((varNode_gives wm h).single E i hc).mono fun ns k hk => ⟨hk.1 ▸ hk.2, hk.1⟩

end LessCss
