import LessCss.Proofs.Build.Selectors

/-! Building rulesets, keyframes and at-rules. The inside of a body of rules or of keyframes was
read by the lookahead, so its builder has to end at the closer and does. -/

namespace LessCss

open Lookahead Builder Grammar Tokens

variable {ts : Tokens} {capped : Bool} {A : Reading ts capped} {i j k : Nat}

/-! ## Rulesets -/

theorem ruleset_cases (wm : ts.WellMarked) (h : 0 < A.len .ruleset i) :
    0 < A.len .selectorGroup i ∧ ∃ a b, a = i + A.len .selectorGroup i ∧ b = a + A.len .spacing a ∧
      0 < A.value (blockLength ts b) ∧ i + A.len .ruleset i = b + A.value (blockLength ts b) := by
  have he := A.len_of_sole (r := .ruleset) (u := ()) wm rfl (A.lt_of_len h) rfl
  unfold rulesetLength at he
  rw [A.value_bind, A.value_lengthOf] at he
  split at he
  · rw [A.value_pure] at he
    omega
  · next hn =>
    rw [A.value_bind, A.value_lengthOf, A.value_bind, A.value_through] at he
    split at he
    · omega
    · exact ⟨Nat.pos_of_ne_zero hn, _, _, rfl, rfl, by omega, by omega⟩

theorem rulesetNode_gives (wm : ts.WellMarked) (h : 0 < A.len .ruleset i) :
    Gives A (rulesetNode ts) i (i + A.len .ruleset i) := by
  obtain ⟨hsel, a, b, rfl, rfl, hblock, hlen⟩ := ruleset_cases wm h
  refine GivesAll.branch (k := .ruleset) (fun E lo hc => ?_) ⟨rfl, rfl⟩ (by omega)
  rw [hlen]
  refine (selectorGroupNodes_gives wm hsel).then hc fun sels hsels hc => ?_
  refine (spacingNodes_gives wm A _).then hc fun between hbetween hc => ?_
  refine (blockNode_gives wm hblock).then hc fun block hb _ => ?_
  exact ⟨rfl, (hsels.append hbetween).append hb.single⟩

/-! ## Keyframes -/

theorem keyframeSelector_cases {m : Match KeyframeShape}
    (h : A.value (keyframeSelectorMatch ts i) = some m) :
    m.shape = .percentage ∧ m.length = A.value (percentageLength ts i) ∨
      m.shape = .keyword ∧ m.length = A.len .ident i := by
  unfold keyframeSelectorMatch at h
  rw [A.value_bind, A.value_lengthOf] at h
  split at h
  · rw [A.value_bind, A.value_pure] at h
    exact Or.inl (of?_eq_some h)
  · dsimp only at h
    split at h
    · exact Or.inr (of?_eq_some h)
    · cases h

theorem keyframeSelectorNode_gives (wm : ts.WellMarked) (h : 0 < A.len .keyframeSelector i) :
    Gives A (keyframeSelectorNode ts) i (i + A.len .keyframeSelector i) := by
  obtain ⟨m, ht, hlen⟩ := A.exists_of_len h
  have hbody := A.value_of_tell wm rfl ht
  have hpos := m.length_pos
  rw [← hlen]
  refine GivesAll.branch (k := .selector) (Gives.single ?_) ⟨rfl, rfl⟩ (by omega)
  refine GivesAll.branch (k := .keyframeSelector) (fun E lo hc => runs_ask.2 ?_) ⟨rfl, rfl⟩
    (by omega)
  rw [ht]
  rcases keyframeSelector_cases hbody with ⟨hs, hl⟩ | ⟨hs, hl⟩
  · simp only [Answer.shape?, Option.map_some, hs]
    rw [hl] at hpos ⊢
    exact (percentageNode_gives wm hpos).single E lo hc
  · simp only [Answer.shape?, Option.map_some, hs]
    rw [hl] at hpos ⊢
    exact (identNode_gives wm hpos).single E lo hc

theorem keyframe_cases (h : 0 < A.value (keyframeLength ts i)) :
    0 < A.value (commaListLength ts .keyframeSelector i) ∧
      ∃ a b, a = i + A.value (commaListLength ts .keyframeSelector i) ∧ b = a + A.len .spacing a ∧
        0 < A.value (blockLength ts b) ∧
        i + A.value (keyframeLength ts i) = b + A.value (blockLength ts b) := by
  unfold keyframeLength at h ⊢
  rw [A.value_bind] at h ⊢
  split at h
  · cases h
  · next hn =>
    rw [A.value_bind, A.value_lengthOf, A.value_bind, A.value_through] at h ⊢
    split at h
    · omega
    · next hb =>
      rw [if_neg hb]
      exact ⟨Nat.pos_of_ne_zero hn, _, _, rfl, rfl, by omega, by omega⟩

theorem keyframeNode_gives (wm : ts.WellMarked) (h : 0 < A.value (keyframeLength ts i)) :
    Gives A (keyframeNode ts) i (i + A.value (keyframeLength ts i)) := by
  obtain ⟨hsel, a, b, rfl, rfl, hblock, hlen⟩ := keyframe_cases h
  refine GivesAll.branch (k := .ruleset) (fun E lo hc => runs_cursor.2 ?_) ⟨rfl, rfl⟩ (by omega)
  rw [hlen]
  refine runs_look.2 ⟨⟨_, commaListLength_measures (Scope.top_open (by decide) i)⟩, ?_⟩
  refine (commaListNodes_gives wm (fun _ => keyframeSelectorNode_gives wm) hsel).then hc
    fun sels hsels hc => ?_
  refine (spacingNodes_gives wm A _).then hc fun between hbetween hc => ?_
  refine (blockNode_gives wm hblock).then hc fun block hb _ => ?_
  exact ⟨rfl, (hsels.append hbetween).append hb.single⟩

/-- One piece of a body of keyframes, as the builder takes it. -/
inductive KeyframesPiece (A : Reading ts capped) : Nat → Nat → Prop
  | spacing {j : Nat} (pos : 0 < A.len .spacing j) : KeyframesPiece A j (j + A.len .spacing j)
  | keyframe {j : Nat} (none : A.len .spacing j = 0) (pos : 0 < A.value (keyframeLength ts j)) :
    KeyframesPiece A j (j + A.value (keyframeLength ts j))

theorem KeyframesPiece.of_round (h : 0 < A.value (lengthOf .spacing j <|> keyframeLength ts j)) :
    KeyframesPiece A j (j + A.value (lengthOf .spacing j <|> keyframeLength ts j)) := by
  rw [A.value_orElse, A.value_lengthOf] at h ⊢
  split at h
  · next hz =>
    rw [if_pos hz]
    exact .keyframe hz h
  · next hn =>
    rw [if_neg hn]
    exact .spacing h

theorem keyframes_cases (wm : ts.WellMarked) (h : 0 < A.value (keyframesLength ts i)) :
    ∃ close, ts.closer? i .leftCurly = some close ∧
      i + A.value (keyframesLength ts i) = close + 1 ∧
      Trail (KeyframesPiece A) (i + 1) close := by
  unfold keyframesLength at h ⊢
  split at h
  · cases h
  next close hc =>
  have hlt := wm.closer_lt hc
  rw [hc]
  refine ⟨close, rfl, ?_⟩
  dsimp only
  rw [A.value_bind, A.value_lengthOf, A.value_bind] at h ⊢
  split at h
  · cases h
  next hn =>
  rw [A.value_bind] at h ⊢
  split at h
  · next hstop =>
    have hpos := Nat.pos_of_ne_zero hn
    rw [if_pos hstop, A.value_tokensBetween]
    refine ⟨by omega, ?_⟩
    have hspacing : Trail (KeyframesPiece A) (i + 1) (i + 1 + A.len .spacing (i + 1)) := by
      rcases Nat.eq_zero_or_pos (A.len .spacing (i + 1)) with hz | hp
      · rw [hz]
        exact .refl _
      · exact .single (.spacing hp) (by omega)
    have hnone := len_spacing_eq_zero (A := A) wm (not_spacing_end wm A (i + 1))
    have hfirst := Trail.single (KeyframesPiece.keyframe hnone hpos) (by omega)
    have hrest := (A.trail_walkWhile close (fun j => lengthOf .spacing j <|> keyframeLength ts j)
      (i + 1 + A.len .spacing (i + 1) +
        A.value (keyframeLength ts (i + 1 + A.len .spacing (i + 1))))).flatten
      (R := KeyframesPiece A) fun j l hjl => by
        obtain ⟨_, hp, rfl⟩ := hjl
        exact .single (.of_round hp) (by omega)
    exact (hspacing.trans (hfirst.trans hrest)).cast hstop
  · cases h

theorem keyframesPiece_gives (wm : ts.WellMarked) (h : KeyframesPiece A i j) :
    GivesAll A (choose (starts .spacing) (spacingNodes ts) (single (keyframeNode ts))) i j := by
  cases h with
  | spacing pos =>
    exact givesAll_choose_starts (fun _ => spacingNodes_gives wm A i) (fun hz => by omega)
  | keyframe none pos =>
    exact givesAll_choose_starts (fun hp => by omega) fun _ => (keyframeNode_gives wm pos).single

theorem keyframesInterior_gives (wm : ts.WellMarked) (h : Trail (KeyframesPiece A) i j) :
    GivesAll A (keyframesInterior ts j) i j :=
  givesAll_collectTo h fun _ _ => keyframesPiece_gives wm

/-- A block whose inside was read by the lookahead up to its closer. -/
theorem entered_gives (wm : ts.WellMarked) {part : Nat → Interior} {c : Nat}
    (hc : ts.closer? i .leftCurly = some c) (hready : (part c).Ready A (i + 1))
    (hends : ∀ k, (part c).Ends A (i + 1) k → k = c) :
    Gives A (branch ts .block (enclosed (ts.closer? · .leftCurly) fun close => enter (part close)))
      i (c + 1) := by
  have hlt := wm.closer_lt hc
  refine gives_branch (by omega) fun E lo hs => runs_cursor.2 ?_
  have hlo := hs.le
  dsimp only
  rw [hc]
  refine runs_skip.2 (runs_enter (by omega) (by omega) hready fun ns k hfill => runs_skip.2 ?_)
  obtain ⟨htiles, hk⟩ := hfill
  have hkc := hends k hk
  subst hkc
  exact ⟨rfl, i + 1, k, ⟨hc, rfl, rfl⟩, htiles⟩

theorem keyframeBlockNode_gives (wm : ts.WellMarked) (h : 0 < A.value (keyframesLength ts i)) :
    Gives A (keyframeBlockNode ts) i (i + A.value (keyframesLength ts i)) := by
  obtain ⟨close, hc, hlen, _⟩ := keyframes_cases wm h
  rw [hlen]
  exact entered_gives wm hc ⟨i, rfl, hc, h⟩ fun _ hk => hk

/-! ## Bodies of rules -/

/-- The rules in a body, up to its closer. -/
theorem ruleBody_trail (wm : ts.WellMarked) (hi : i < ts.size) (h : i + A.len .ruleBody i = j) :
    Trail (fun k l => 0 < A.len .nestedRule k ∧ l = k + A.len .nestedRule k) (i + 1) j := by
  have he := A.len_of_sole (r := .ruleBody) (u := ()) wm rfl hi rfl
  have hv : A.value (ruleBodyLength ts i) =
      A.value (walkWhile ts.size (lengthOf .nestedRule) (i + 1)) - i := A.value_bind _ _
  have htrail := (A.trail_walkWhile ts.size (lengthOf .nestedRule) (i + 1)).flatten
    (R := fun k l => 0 < A.len .nestedRule k ∧ l = k + A.len .nestedRule k) fun k l hkl => by
      have hpos : 0 < A.len .nestedRule k := hkl.2.1
      have hl : l = k + A.len .nestedRule k := hkl.2.2
      exact .single ⟨hpos, hl⟩ (by omega)
  have hle := htrail.le
  exact htrail.cast (by omega)

/-! ## At-rules -/

theorem atRuleHead_cases (h : A.value (atRuleHead ts i) = some j) :
    0 < A.value (atKeywordLength ts i) ∧
      j = A.value (preludeEnd ts (i + A.value (atKeywordLength ts i))) := by
  unfold atRuleHead at h
  rw [A.value_bind] at h
  split at h
  · cases h
  · next hn =>
    rw [A.value_bind, A.value_pure] at h
    exact ⟨Nat.pos_of_ne_zero hn, (Option.some.inj h).symm⟩

/-- The keyword and the head of an at-rule. -/
theorem atRuleHead_runs (wm : ts.WellMarked) (h : A.value (atRuleHead ts i) = some j)
    {β : Type} {f : Node → List Node → Builder β} {E : Nat → Prop} {lo : Nat} {Q : β → Nat → Prop}
    (hc : Site ts E lo i)
    (hf : ∀ n ns, Tiles ts i j (n :: ns) → Site ts E lo j → (f n ns).Runs A E lo j Q) :
    Runs A E lo (do
      let n ← atKeywordNode ts
      let ns ← preludeNodes ts
      f n ns) i Q := by
  obtain ⟨hkey, rfl⟩ := atRuleHead_cases h
  refine (atKeywordNode_gives wm hkey).then hc fun n hn hc => ?_
  exact (preludeNodes_gives wm A _).then hc fun ns hns hc => hf n ns (.cons hn hns) hc

theorem keyframesRule_cases (h : 0 < A.value (keyframesRuleLength ts i)) :
    ∃ a b c d, 0 < A.value (atKeywordLength ts i) ∧ a = i + A.value (atKeywordLength ts i) ∧
      b = a + A.len .spacing a ∧ 0 < A.len .ident b ∧ c = b + A.len .ident b ∧
      d = c + A.len .spacing c ∧ 0 < A.value (keyframesLength ts d) ∧
      i + A.value (keyframesRuleLength ts i) = d + A.value (keyframesLength ts d) := by
  unfold keyframesRuleLength at h ⊢
  rw [A.value_bind] at h ⊢
  split at h
  · cases h
  next hkey =>
  rw [if_neg hkey]
  rw [A.value_bind, A.value_lengthOf] at h ⊢
  split at h
  · cases h
  next hs =>
  rw [if_neg hs]
  rw [A.value_bind, A.value_lengthOf] at h ⊢
  split at h
  · cases h
  next hname =>
  rw [if_neg hname]
  rw [A.value_bind, A.value_lengthOf, A.value_bind, A.value_through] at h ⊢
  split at h
  · omega
  next hb =>
  rw [if_neg hb]
  have hkey' : ¬ A.value (atKeywordLength ts i) = 0 := by
    intro hz
    rw [hz] at hkey
    exact hkey rfl
  exact ⟨_, _, _, _, by omega, rfl, rfl, by omega, rfl, rfl, by omega, by omega⟩

theorem rulesRule_cases (wm : ts.WellMarked) {inner : Answers} (hinner : Inner capped A.tell inner)
    (h : 0 < (rulesRuleLength ts i).result A.tell inner) :
    ∃ j close, A.value (atRuleHead ts i) = some j ∧ ts.closer? j .leftCurly = some close ∧
      j + A.len .ruleBody j = close ∧
      (rulesRuleLength ts i).result A.tell inner = close + 1 - i := by
  have hhead : (atRuleHead ts i).result A.tell inner = A.value (atRuleHead ts i) :=
    A.result_eq_value (atRuleHead_stays (s := .top) (Nat.zero_le i)) rfl inner
  unfold rulesRuleLength at h ⊢
  rw [result_bind, hhead] at h ⊢
  split at h
  · cases h
  next j hj =>
  rw [hj]
  split at h
  · cases h
  next close hc =>
  have hlt := wm.closer_lt hc
  rw [result_bind, result_lengthInside] at h ⊢
  split at h
  · next hbody =>
    rw [if_pos hbody, result_tokensBetween]
    refine ⟨j, close, rfl, hc, ?_, rfl⟩
    -- a refused body has no tokens, and the closer is further on
    rcases hinner with rfl | ⟨_, rfl⟩
    · exact hbody
    · have hbody : j + 0 = close := hbody
      omega
  · cases h

theorem blockRule_cases (h : 0 < A.value (blockRuleLength ts i)) :
    ∃ j, A.value (atRuleHead ts i) = some j ∧ 0 < A.value (blockLength ts j) ∧
      A.value (blockRuleLength ts i) = j + A.value (blockLength ts j) - i := by
  unfold blockRuleLength at h ⊢
  rw [A.value_bind] at h ⊢
  split at h
  · cases h
  next j hj =>
  rw [A.value_bind, A.value_through] at h
  split at h
  · omega
  next hb =>
  rw [hj]
  rw [A.value_bind, A.value_through, if_neg hb]
  exact ⟨j, rfl, by omega, rfl⟩

theorem bareRule_cases (h : 0 < A.value (bareRuleLength ts i)) :
    ∃ j, A.value (atRuleHead ts i) = some j ∧ A.value (bareRuleLength ts i) = j - i := by
  unfold bareRuleLength at h ⊢
  rw [A.value_bind] at h ⊢
  split at h
  · cases h
  next j hj =>
  rw [hj]
  exact ⟨j, rfl, rfl⟩

theorem ruleBlockNode_gives (wm : ts.WellMarked) (hc : ts.closer? i .leftCurly = some j)
    (h : i + A.len .ruleBody i = j) : Gives A (ruleBlockNode ts) i (j + 1) :=
  entered_gives wm hc ⟨i, rfl, hc, h⟩ fun _ hk => hk

/-- An at-rule, and the equation of the alternative that matched. -/
theorem atRule_cases (wm : ts.WellMarked) {m : Match AtRuleShape}
    (h : A.tell .atRule i = some m) :
    ∃ inner, Inner capped A.tell inner ∧
      (m.shape = .keyframes ∧ m.length = A.value (keyframesRuleLength ts i) ∨
        m.shape = .rules ∧ m.length = (rulesRuleLength ts i).result A.tell inner ∨
        m.shape = .block ∧ m.length = A.value (blockRuleLength ts i) ∨
        m.shape = .bare ∧ m.length = A.value (bareRuleLength ts i)) := by
  have hlt := A.lt_of_tell h
  obtain ⟨inner, hinner, he⟩ := A.explains .atRule i hlt
  obtain ⟨a, ha, hs, hl⟩ := exists_of_firstOf (he.symm.trans h)
  refine ⟨inner, hinner, ?_⟩
  have htop : ∀ {q : Lookahead Nat}, q.Measures ts .top i →
      q.result A.tell inner = A.value q := fun hq => A.result_eq_value hq rfl inner
  simp only [List.mem_cons, List.not_mem_nil, or_false] at ha
  rcases ha with rfl | rfl | rfl | rfl
  · exact Or.inl ⟨hs, hl.trans (htop (keyframesRuleLength_measures wm (Nat.zero_le i)))⟩
  · exact Or.inr (Or.inl ⟨hs, hl⟩)
  · have hlen := hl.trans (htop (blockRuleLength_measures wm (Nat.zero_le i)))
    exact Or.inr (Or.inr (Or.inl ⟨hs, hlen⟩))
  · exact Or.inr (Or.inr (Or.inr ⟨hs, hl.trans (htop (bareRuleLength_measures (Nat.zero_le i)))⟩))

theorem atRuleNode_gives (wm : ts.WellMarked) (h : 0 < A.len .atRule i) :
    Gives A (atRuleNode ts) i (i + A.len .atRule i) := by
  obtain ⟨m, ht, hlen⟩ := A.exists_of_len h
  obtain ⟨inner, hinner, hcases⟩ := atRule_cases wm ht
  have hpos := m.length_pos
  rw [← hlen]
  refine GivesAll.branch (k := .atRule) (fun E lo hc => runs_ask.2 ?_) ⟨rfl, rfl⟩ (by omega)
  rw [ht]
  rcases hcases with ⟨hs, hl⟩ | ⟨hs, hl⟩ | ⟨hs, hl⟩ | ⟨hs, hl⟩ <;>
    simp only [Answer.shape?, Option.map_some, hs] <;> rw [hl] at hpos ⊢
  · obtain ⟨a, b, c, d, hkey, rfl, rfl, hname, rfl, rfl, hbody, hend⟩ := keyframesRule_cases hpos
    rw [hend]
    refine (atKeywordNode_gives wm hkey).then hc fun key hk hc => ?_
    refine (spacingNodes_gives wm A _).then hc fun before hbefore hc => ?_
    refine (identNode_gives wm hname).then hc fun name hn hc => ?_
    refine (spacingNodes_gives wm A _).then hc fun after hafter hc => ?_
    refine (keyframeBlockNode_gives wm hbody).then hc fun body hb _ => ?_
    exact ⟨rfl, ((hk.single.append hbefore).append hn.single).append hafter |>.append hb.single⟩
  · obtain ⟨j, close, hhead, hcl, hbody, hend⟩ := rulesRule_cases wm hinner hpos
    refine atRuleHead_runs wm hhead hc fun key ns hns hc => ?_
    refine (ruleBlockNode_gives wm hcl hbody).then hc fun body hb _ => ?_
    exact ⟨by omega, (hns.append hb.single).cast (by omega)⟩
  · obtain ⟨j, hhead, hblock, hend⟩ := blockRule_cases hpos
    refine atRuleHead_runs wm hhead hc fun key ns hns hc => ?_
    refine (blockNode_gives wm hblock).then hc fun body hb _ => ?_
    exact ⟨by omega, (hns.append hb.single).cast (by omega)⟩
  · obtain ⟨j, hhead, hend⟩ := bareRule_cases hpos
    refine atRuleHead_runs wm hhead hc fun key ns hns _ => ?_
    exact ⟨by omega, hns.cast (by omega)⟩

/-- A statement in a body of rules, in the form that was found. -/
def nestedRuleNodes (ts : Tokens) : NestedRule → Builder (List Node)
  | .spacing => spacingNodes ts
  | .atRule => single (atRuleNode ts)
  | .ruleset => single (rulesetNode ts)

theorem nestedRuleNodes_gives (wm : ts.WellMarked) {m : Match NestedRule}
    (h : A.tell .nestedRule i = some m) :
    GivesAll A (nestedRuleNodes ts m.shape) i (i + m.length) := by
  obtain ⟨a, ha, hs, hl, hpos⟩ := A.alternative wm rfl rfl h
  simp only [List.mem_cons, List.not_mem_nil, or_false] at ha
  rcases ha with rfl | rfl | rfl <;> rw [hl, hs]
  · exact spacingNodes_gives wm A i
  · exact (atRuleNode_gives wm hpos).single
  · exact (rulesetNode_gives wm hpos).single

/-- The rules of a body that was read up to its closer. -/
theorem rulesInterior_gives (wm : ts.WellMarked)
    (h : Trail (fun k l => 0 < A.len .nestedRule k ∧ l = k + A.len .nestedRule k) i j) :
    GivesAll A (rulesInterior ts j) i j := by
  refine givesAll_collectTo h fun k l hkl E lo hc => runs_ask.2 ?_
  obtain ⟨hpos, rfl⟩ := hkl
  obtain ⟨m, ht, hlen⟩ := A.exists_of_len hpos
  have hnodes := nestedRuleNodes_gives wm ht E lo hc
  rw [← hlen, ht]
  cases hs : m.shape <;> rw [hs] at hnodes <;> simp only [Answer.shape?, Option.map_some, hs] <;>
    exact hnodes

end LessCss
