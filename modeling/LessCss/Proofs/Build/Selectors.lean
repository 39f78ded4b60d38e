import LessCss.Proofs.Build.Simple

/-! Building compounds, selectors and lists of them. The builder of a selector takes spacing,
combinators and compounds one by one, while the lookahead took them in larger rounds; the two agree
since no token can start two of the three. -/

namespace LessCss

open Lookahead Builder Grammar Tokens

variable {ts : Tokens} {capped : Bool} {A : Reading ts capped} {i j k : Nat}

/-! ## Compounds -/

theorem compound_cases {m : Match CompoundLead} (h : A.value (compoundMatch ts i) = some m) :
    ∃ lead, lead = A.value (typeSelectorLength ts i <|> parentLength ts i) ∧
      m.shape = (if lead = 0 then .untyped else .typed) ∧
      i + m.length = A.value (walkWhile ts.size (compoundPartLength ts) (i + lead)) := by
  unfold compoundMatch at h
  rw [A.value_bind, A.value_bind, A.value_bind, A.value_tokensBetween, A.value_pure] at h
  refine ⟨_, rfl, ?_⟩
  obtain ⟨hs, hl⟩ := of?_eq_some h
  have hpos := m.length_pos
  exact ⟨hs, by omega⟩

theorem compoundLeadNodes_gives (wm : ts.WellMarked)
    (h : 0 < A.value (typeSelectorLength ts i <|> parentLength ts i)) :
    GivesAll A (compoundLeadNodes ts) i
      (i + A.value (typeSelectorLength ts i <|> parentLength ts i)) := by
  rw [A.value_orElse] at h ⊢
  refine givesAll_choose_sees (typeSelectorLength_measures (Scope.top_open (by decide) i))
    (fun ht => ?_) (fun hz => ?_)
  · rw [if_neg (show ¬ A.value (typeSelectorLength ts i) = 0 by omega)]
    exact (typeSelectorNode_gives wm ht).single
  · rw [if_pos hz] at h ⊢
    exact parentNodes_gives wm h

theorem value_compoundPartLength (i : Nat) : A.value (compoundPartLength ts i) =
    if A.len .idSelector i = 0 then
      if A.len .classSelector i = 0 then
        if A.len .attributeSelector i = 0 then A.value (pseudoLength ts i)
        else A.len .attributeSelector i
      else A.len .classSelector i
    else A.len .idSelector i := by
  rw [compoundPartLength, A.value_orElse, A.value_orElse, A.value_orElse]
  rfl

/-- One part of a compound, as the builder takes it. -/
def compoundPart (ts : Tokens) : Builder Chunk := do
  if ← starts .idSelector then return ⟨[← idNode ts], true⟩
  else if ← starts .classSelector then return ⟨[← classNode ts], true⟩
  else if ← starts .attributeSelector then return ⟨[← attributeSelectorNode ts], true⟩
  else if ← sees (pseudoLength ts) then return ⟨[← pseudoNode ts], true⟩
  else return ⟨[], false⟩

theorem compoundPart_gives (wm : ts.WellMarked) (A : Reading ts capped) (j : Nat) :
    GivesRound A (compoundPart ts) j (A.value (compoundPartLength ts j)) := by
  rw [value_compoundPartLength]
  refine givesRound_choose (fun h => (idNode_gives wm h).round h) ?_
  refine givesRound_choose (fun h => (classNode_gives wm h).round h) ?_
  refine givesRound_choose (fun h => (attributeSelectorNode_gives wm h).round h) ?_
  exact givesRound_sees (pseudoLength_measures (Scope.top_open (by decide) j))
    fun h => (pseudoNode_gives wm h).round h

theorem compoundParts_give (wm : ts.WellMarked) (A : Reading ts capped) (i : Nat) :
    GivesAll A (collect ts.size (compoundPart ts)) i
      (A.value (walkWhile ts.size (compoundPartLength ts) i)) := by
  exact givesAll_collectWhile fun j => compoundPart_gives wm A j

theorem compoundNode_gives (wm : ts.WellMarked) (h : 0 < A.len .compound i) :
    Gives A (compoundNode ts) i (i + A.len .compound i) := by
  obtain ⟨m, ht, hlen⟩ := A.exists_of_len h
  have hbody := A.value_of_tell wm rfl ht
  obtain ⟨lead, hlead, hshape, hend⟩ := compound_cases hbody
  have hpos := m.length_pos
  rw [← hlen]
  refine GivesAll.branch (k := .compoundSelector) (fun E lo hc => runs_ask.2 ?_) ⟨rfl, rfl⟩
    (by omega)
  rw [ht]
  refine runs_check.2 ⟨decide_eq_true hpos, runs_cursor.2 ?_⟩
  have hfirst : GivesAll A (given ((some m.shape : Option CompoundLead) == some .typed)
      (compoundLeadNodes ts)) i (i + lead) := by
    rw [hshape]
    refine givesAll_given (fun hty => ?_) (fun hun => ?_)
    · have hn : ¬ lead = 0 := by
        intro hz
        rw [if_pos hz] at hty
        cases hty
      rw [hlead]
      exact compoundLeadNodes_gives wm (by omega)
    · have hz : lead = 0 := by
        refine Decidable.byContradiction fun hn => ?_
        rw [if_neg hn] at hun
        cases hun
      rw [hz]
      rfl
  refine hfirst.then hc fun first hfirst hc => ?_
  refine (compoundParts_give wm A (i + lead)).then hc fun parts hparts _ => runs_cursor.2 ?_
  rw [← hend] at hparts ⊢
  exact runs_check.2 ⟨decide_eq_true rfl, rfl, hfirst.append hparts⟩

/-! ## Which tokens start what -/

theorem not_isAny_of_isAny {ks l : List Token.Kind} (h : ts.isAny i ks = true)
    (hd : ∀ k ∈ ks, k ∉ l) : ts.isAny i l = false := by
  obtain ⟨k, hk, he⟩ := isAny_iff.1 h
  rw [Bool.eq_false_iff]
  intro hl
  obtain ⟨k', hk', he'⟩ := isAny_iff.1 hl
  rw [he] at he'
  cases he'
  exact hd k hk hk'

theorem isAny_of_isAny {ks l : List Token.Kind} (h : ts.isAny i ks = true)
    (hs : ∀ k ∈ ks, k ∈ l) : ts.isAny i l = true := by
  obtain ⟨k, hk, he⟩ := isAny_iff.1 h
  exact isAny_iff.2 ⟨k, hs k hk, he⟩

theorem isAny_of_is {k : Token.Kind} {ks : List Token.Kind} (h : ts.is i k = true) (hk : k ∈ ks) :
    ts.isAny i ks = true := isAny_iff.2 ⟨k, hk, is_iff.1 h⟩

/-- The kinds with which a name starts. -/
def nameHeads : List Token.Kind := [.underscore, .minus, .identifier, .dollar, .asterisk]

theorem ident_head (wm : ts.WellMarked) (h : 0 < A.len .ident i) : ts.isAny i nameHeads = true := by
  have he := A.len_of_sole (r := .ident) (u := ()) wm rfl (A.lt_of_len h) rfl
  unfold identLength at he
  split at he
  · next hk => exact isAny_iff.2 ⟨_, by decide, hk⟩
  · next k _ hk =>
    split at he
    · next hmem => exact isAny_iff.2 ⟨k, List.mem_cons_of_mem _ hmem, hk⟩
    · rw [A.value_pure] at he
      omega
  · rw [A.value_pure] at he
    omega

theorem nameOrStar_head (wm : ts.WellMarked) (h : 0 < A.value (nameOrStar ts i)) :
    ts.isAny i nameHeads = true := by
  rw [nameOrStar, A.value_orElse, A.value_lengthOf, value_tokenLength] at h
  split at h
  · exact isAny_of_isAny (toNat_pos.1 h) (by decide)
  · exact ident_head wm h

theorem typeSelector_head (wm : ts.WellMarked) (h : 0 < A.value (typeSelectorLength ts i)) :
    ts.isAny i nameHeads = true ∨ ts.is i .bar = true ∧ ts.isAny (i + 1) nameHeads = true := by
  -- the token behind the namespace starts the name
  have hname : ts.isAny (i + A.len .namespacePart i) nameHeads = true := by
    rcases typeSelector_cases h with ⟨hs, _⟩ | ⟨_, hpos, _⟩
    · exact isAny_of_is hs (by decide)
    · exact ident_head wm hpos
  rcases Nat.eq_zero_or_pos (A.len .namespacePart i) with hz | hpos
  · rw [hz] at hname
    exact Or.inl hname
  · obtain ⟨m, ht, hlen⟩ := A.exists_of_len hpos
    have hbody := A.value_of_tell wm rfl ht
    rcases namespace_cases hbody with ⟨_, hn, _⟩ | ⟨_, hbar, hone⟩
    · exact Or.inl (nameOrStar_head wm hn)
    · rw [← hlen, hone] at hname
      exact Or.inr ⟨hbar, hname⟩

/-- The kinds with which a part of a compound starts, or the parent selector. -/
def partHeads : List Token.Kind := [.ampersand, .hash, .dot, .leftSquare, .colon]

theorem compoundPart_head (wm : ts.WellMarked) (h : 0 < A.value (compoundPartLength ts i)) :
    ts.isAny i partHeads = true := by
  rw [value_compoundPartLength] at h
  by_cases hid : 0 < A.len .idSelector i
  · obtain ⟨m, ht, _⟩ := A.exists_of_len hid
    have hbody := A.value_of_tell wm rfl ht
    exact isAny_of_is (markedName_cases hbody).1 (by decide)
  rw [if_pos (show A.len .idSelector i = 0 by omega)] at h
  by_cases hclass : 0 < A.len .classSelector i
  · obtain ⟨m, ht, _⟩ := A.exists_of_len hclass
    have hbody := A.value_of_tell wm rfl ht
    exact isAny_of_is (markedName_cases hbody).1 (by decide)
  rw [if_pos (show A.len .classSelector i = 0 by omega)] at h
  by_cases hattr : 0 < A.len .attributeSelector i
  · obtain ⟨m, ht, _⟩ := A.exists_of_len hattr
    have hbody := A.value_of_tell wm rfl ht
    exact isAny_of_is (attributeSelector_cases hbody).1 (by decide)
  rw [if_pos (show A.len .attributeSelector i = 0 by omega), pseudoLength, A.value_orElse,
    A.value_lengthOf] at h
  split at h
  · obtain ⟨m, ht, _⟩ := A.exists_of_len h
    exact isAny_of_is (pseudoClass_cases wm ht).1 (by decide)
  · exact isAny_of_is (pseudoElement_cases h).1 (by decide)

/-- A compound starts with a type selector, or with a parent selector or one of the parts. -/
theorem compound_lead (wm : ts.WellMarked) (h : 0 < A.len .compound i) :
    0 < A.value (typeSelectorLength ts i) ∧
        A.value (typeSelectorLength ts i) ≤ A.len .compound i ∨
      ts.isAny i partHeads = true := by
  obtain ⟨m, ht, hlen⟩ := A.exists_of_len h
  have hbody := A.value_of_tell wm rfl ht
  obtain ⟨lead, hlead, _, hend⟩ := compound_cases hbody
  have hpos := m.length_pos
  rw [A.value_orElse] at hlead
  split at hlead
  · next hz =>
    rcases Nat.eq_zero_or_pos lead with rfl | hlp
    · -- nothing leads, so the first part starts here
      have hpart : 0 < A.value (compoundPartLength ts i) := by
        refine Nat.pos_of_ne_zero fun hz => ?_
        rw [Nat.add_zero, walkWhile, A.value_walk, A.value_map] at hend
        have hgo : (Step.go (A.value (compoundPartLength ts i))).length = 0 := hz
        rw [hgo] at hend
        split at hend
        · rw [if_neg (by omega)] at hend
          omega
        · omega
      exact Or.inr (compoundPart_head wm hpart)
    · exact Or.inr (isAny_of_is (parent_head (hlead ▸ hlp)) (by decide))
  · next hn =>
    have hle := (A.trail_walkWhile ts.size (compoundPartLength ts) (i + lead)).le
    exact Or.inl ⟨Nat.pos_of_ne_zero hn, by omega⟩

/-- A compound starts with a name, a part of a compound, or one bar and a name. -/
theorem compound_head (wm : ts.WellMarked) (h : 0 < A.len .compound i) :
    ts.isAny i (nameHeads ++ partHeads) = true ∨
      ts.is i .bar = true ∧ ts.isAny (i + 1) nameHeads = true := by
  rcases compound_lead wm h with ⟨hpos, _⟩ | hpart
  · exact (typeSelector_head wm hpos).imp_left fun hh =>
      isAny_of_isAny hh fun k hk => List.mem_append_left _ hk
  · exact Or.inl (isAny_of_isAny hpart fun k hk => List.mem_append_right _ hk)

/-- A combinator starts with one of its marks, or with two bars. -/
theorem combinator_head (wm : ts.WellMarked) (h : 0 < A.len .combinator i) :
    ts.isAny i [.plus, .greater, .tilde, .slash] = true ∨
      ts.is i .bar = true ∧ ts.is (i + 1) .bar = true := by
  have he := A.len_of_sole (r := .combinator) (u := ()) wm rfl (A.lt_of_len h) rfl
  unfold combinatorLength at he
  split at he
  · next hb => exact Or.inr (Bool.and_eq_true_iff.1 hb)
  split at he
  · next ha => exact Or.inl (isAny_of_isAny ha (by decide))
  split at he
  · next hs => exact Or.inl (isAny_of_is hs (by decide))
  · rw [A.value_pure] at he
    omega

theorem spacing_of_combinator (wm : ts.WellMarked) (h : 0 < A.len .combinator i) :
    A.len .spacing i = 0 := by
  refine len_spacing_eq_zero wm ?_
  rcases combinator_head wm h with hh | ⟨hh, _⟩
  · exact not_isAny_of_isAny hh (by decide)
  · exact not_isAny_of_isAny (isAny_of_is hh (List.mem_singleton_self _)) (by decide)

theorem spacing_of_compound (wm : ts.WellMarked) (h : 0 < A.len .compound i) :
    A.len .spacing i = 0 := by
  refine len_spacing_eq_zero wm ?_
  rcases compound_head wm h with hh | ⟨hh, _⟩
  · exact not_isAny_of_isAny hh (by decide)
  · exact not_isAny_of_isAny (isAny_of_is hh (List.mem_singleton_self _)) (by decide)

theorem combinator_of_compound (wm : ts.WellMarked) (h : 0 < A.len .compound i) :
    A.len .combinator i = 0 := by
  refine Nat.eq_zero_of_not_pos fun hp => ?_
  rcases combinator_head wm hp with hc | ⟨hbar, hbar'⟩
  · rcases compound_head wm h with hh | ⟨hh, _⟩
    · rw [not_isAny_of_isAny hh (by decide)] at hc
      cases hc
    · rw [not_isAny_of_isAny (isAny_of_is hh (List.mem_singleton_self _)) (by decide)] at hc
      cases hc
  · rcases compound_head wm h with hh | ⟨_, hh⟩
    · have hb := not_isAny_of_isAny (l := [.bar]) hh (by decide)
      rw [isAny_of_is hbar (List.mem_singleton_self _)] at hb
      cases hb
    · have hb := not_isAny_of_isAny (l := [.bar]) hh (by decide)
      rw [isAny_of_is hbar' (List.mem_singleton_self _)] at hb
      cases hb

/-! ## Selectors -/

theorem combinator_cases (wm : ts.WellMarked) (h : 0 < A.len .combinator i) :
    ts.is i .bar = true ∧ ts.is (i + 1) .bar = true ∧ A.len .combinator i = 2 ∨
      ts.isAny i [.plus, .greater, .tilde] = true ∧ A.len .combinator i = 1 ∨
      ts.is i .slash = true ∧ 0 < A.len .ident (i + 1) ∧
        ts.is (i + 1 + A.len .ident (i + 1)) .slash = true ∧
        A.len .combinator i = A.len .ident (i + 1) + 2 := by
  have he := A.len_of_sole (r := .combinator) (u := ()) wm rfl (A.lt_of_len h) rfl
  unfold combinatorLength at he
  split at he
  · next hb =>
    obtain ⟨hfirst, hsecond⟩ := Bool.and_eq_true_iff.1 hb
    exact Or.inl ⟨hfirst, hsecond, he⟩
  split at he
  · next hs => exact Or.inr (Or.inl ⟨hs, he⟩)
  split at he
  · next hslash =>
    rw [A.value_bind, A.value_lengthOf, A.value_pure] at he
    split at he
    · next hn =>
      simp only [Bool.and_eq_true, decide_eq_true_eq] at hn
      exact Or.inr (Or.inr ⟨hslash, hn.1, hn.2, he⟩)
    · omega
  · rw [A.value_pure] at he
    omega

theorem combinator_balanced (wm : ts.WellMarked) (h : 0 < A.len .combinator i) :
    ts.Balanced i (i + A.len .combinator i) := by
  rcases combinator_cases wm h with ⟨h0, h1, hlen⟩ | ⟨h0, hlen⟩ | ⟨h0, hpos, h1, hlen⟩ <;> rw [hlen]
  · exact (balanced_token h0 rfl).trans (by omega) (by omega) (balanced_token h1 rfl)
  · exact balanced_isAny h0 (by decide)
  · rw [show i + (A.len .ident (i + 1) + 2) = i + 1 + A.len .ident (i + 1) + 1 by omega]
    exact (balanced_token h0 rfl).trans (by omega) (by omega)
      ((ident_balanced wm hpos).trans (by omega) (by omega) (balanced_token h1 rfl))

theorem combinatorNode_gives (wm : ts.WellMarked) (h : 0 < A.len .combinator i) :
    Gives A (combinatorNode ts) i (i + A.len .combinator i) :=
  gives_leafOf (q := lengthOf .combinator) ⟨rfl, rfl⟩ h (lengthOf_top .combinator i)
    (Or.inr fun _ => combinator_balanced wm h)

/-- One piece of a selector, as the builder takes it. -/
inductive SelectorPiece (A : Reading ts capped) : Nat → Nat → Prop
  | spacing {j : Nat} (pos : 0 < A.len .spacing j) : SelectorPiece A j (j + A.len .spacing j)
  | combinator {j : Nat} (pos : 0 < A.len .combinator j) :
    SelectorPiece A j (j + A.len .combinator j)
  | compound {j : Nat} (pos : 0 < A.len .compound j) : SelectorPiece A j (j + A.len .compound j)

theorem selectorPiece_gives (wm : ts.WellMarked) (h : SelectorPiece A i j) :
    GivesAll A (choose (starts .spacing) (spacingNodes ts)
      (choose (starts .combinator) (single (combinatorNode ts))
        (single (compoundNode ts)))) i j := by
  cases h with
  | spacing pos =>
    exact givesAll_choose_starts (fun _ => spacingNodes_gives wm A i) (fun hz => by omega)
  | combinator pos =>
    have hs := spacing_of_combinator wm pos
    refine givesAll_choose_starts (fun hp => by omega) fun _ => ?_
    refine givesAll_choose_starts (fun _ => ?_) fun hz => by omega
    exact (combinatorNode_gives wm pos).single
  | compound pos =>
    have hs := spacing_of_compound wm pos
    have hc := combinator_of_compound wm pos
    refine givesAll_choose_starts (fun hp => by omega) fun _ => ?_
    exact givesAll_choose_starts (fun hp => by omega) fun _ => (compoundNode_gives wm pos).single

theorem trail_spacing (A : Reading ts capped) (j : Nat) :
    Trail (SelectorPiece A) j (j + A.len .spacing j) := by
  rcases Nat.eq_zero_or_pos (A.len .spacing j) with hz | hp
  · rw [hz]
    exact .refl j
  · exact .single (.spacing hp) (by omega)

theorem trail_combinator (h : 0 < A.len .combinator j) :
    Trail (SelectorPiece A) j (j + A.len .combinator j) := .single (.combinator h) (by omega)

theorem trail_compound (h : 0 < A.len .compound j) :
    Trail (SelectorPiece A) j (j + A.len .compound j) := .single (.compound h) (by omega)

/-- What the lookahead takes behind a compound in one round consists of whole pieces. -/
theorem afterCompound_trail (A : Reading ts capped) (j : Nat) :
    Trail (SelectorPiece A) j (j + (A.value (afterCompound j)).length) := by
  unfold afterCompound
  rw [A.value_bind, A.value_lengthOf, A.value_bind, A.value_lengthOf]
  split
  · split
    · exact .refl j
    · rw [A.value_bind, A.value_lengthOf, A.value_pure]
      change Trail _ j (j + lengthen (A.len .compound (j + A.len .spacing j)) (A.len .spacing j))
      rcases Nat.eq_zero_or_pos (A.len .compound (j + A.len .spacing j)) with hz | hp
      · rw [hz]
        exact .refl j
      · rw [lengthen, if_neg (by omega), Nat.add_comm (A.len .compound _), ← Nat.add_assoc]
        exact (trail_spacing A j).trans (trail_compound hp)
  · next hn =>
    have hlead := (trail_spacing A j).trans (trail_combinator (Nat.pos_of_ne_zero hn))
    rw [Nat.add_assoc] at hlead
    dsimp only
    rw [A.value_bind, A.value_lengthOf, A.value_bind, A.value_lengthOf]
    split
    · exact hlead
    · next hm =>
      have hrest := (trail_spacing A _).trans (trail_compound (Nat.pos_of_ne_zero hm))
      exact (hlead.trans hrest).cast (by simp only [A.value_pure, Step.go]; omega)

theorem afterCombinator_trail (A : Reading ts capped) (j : Nat) :
    Trail (SelectorPiece A) j (j + (A.value (afterCombinator j)).length) := by
  unfold afterCombinator
  rw [A.value_bind, A.value_lengthOf, A.value_bind, A.value_lengthOf]
  split
  · exact .refl j
  · next hn =>
    have hlead := (trail_spacing A j).trans (trail_compound (Nat.pos_of_ne_zero hn))
    rw [Nat.add_assoc] at hlead
    dsimp only
    rw [A.value_bind, A.value_lengthOf, A.value_bind, A.value_lengthOf]
    split
    · exact hlead
    · next hm =>
      have hrest := (trail_spacing A _).trans (trail_combinator (Nat.pos_of_ne_zero hm))
      exact (hlead.trans hrest).cast (by simp only [A.value_pure, Step.go]; omega)

theorem selector_trail (wm : ts.WellMarked) (h : 0 < A.len .selector i) :
    Trail (SelectorPiece A) i (i + A.len .selector i) := by
  obtain ⟨m, ht, hlen⟩ := A.exists_of_len h
  have hbody : A.value (selectorMatch ts i) = some m :=
    A.value_of_tell wm rfl ht
  have hwalk : ∀ {step : Nat → Lookahead Step} {n : Nat} {lead : SelectorLead},
      (∀ j, Trail (SelectorPiece A) j (j + (A.value (step j)).length)) →
      Trail (SelectorPiece A) i (i + n) → 0 < n →
      A.value (do
        let stop ← walk ts.size step (i + n)
        return Match.of? (← tokensBetween i stop) lead) = some m →
      Trail (SelectorPiece A) i (i + m.length) := by
    intro step n lead hstep hfirst hn he
    have hrest := (A.trail_walk ts.size step (i + n)).flatten fun j l hjl => by
      rw [hjl.2.2]
      exact hstep j
    have hle := hrest.le
    rw [A.value_bind, A.value_bind, A.value_tokensBetween, A.value_pure,
      Match.of?_pos (by omega)] at he
    refine (hfirst.trans hrest).cast ?_
    rw [← Option.some.inj he]
    dsimp only
    omega
  rw [← hlen]
  unfold selectorMatch at hbody
  rw [A.value_bind, A.value_lengthOf] at hbody
  split at hbody
  · rw [A.value_bind, A.value_lengthOf] at hbody
    split at hbody
    · cases hbody
    · next hn =>
      have hp := Nat.pos_of_ne_zero hn
      exact hwalk (afterCombinator_trail A) (trail_combinator hp) hp hbody
  · next hn =>
    have hp := Nat.pos_of_ne_zero hn
    exact hwalk (afterCompound_trail A) (trail_compound hp) hp hbody

theorem selectorNode_gives (wm : ts.WellMarked) (h : 0 < A.len .selector i) :
    Gives A (selectorNode ts) i (i + A.len .selector i) := by
  refine GivesAll.branch (k := .selector) (fun E lo hc => runs_cursor.2 ?_) ⟨rfl, rfl⟩ (by omega)
  refine runs_look.2 ⟨⟨_, lengthOf_top .selector i⟩, ?_⟩
  exact givesAll_collectTo (selector_trail wm h) (fun _ _ => selectorPiece_gives wm) E lo hc

/-! ## Lists -/

theorem commaList_cases {r : Rule} (h : 0 < A.value (commaListLength ts r i)) :
    0 < A.len r i ∧ i + A.value (commaListLength ts r i) =
      A.value (walkWhile ts.size (afterComma ts r) (i + A.len r i)) := by
  unfold commaListLength at h ⊢
  rw [A.value_bind, A.value_lengthOf] at h ⊢
  split at h
  · cases h
  · next hn =>
    refine ⟨Nat.pos_of_ne_zero hn, ?_⟩
    rw [A.value_bind, A.value_tokensBetween] at h ⊢
    omega

theorem afterComma_cases {r : Rule} (h : 0 < A.value (afterComma ts r i)) :
    ∃ c e, c = i + A.len .spacing i ∧ ts.is c .comma = true ∧
      e = c + 1 + A.len .spacing (c + 1) ∧ 0 < A.len r e ∧
      i + A.value (afterComma ts r i) = e + A.len r e := by
  unfold afterComma at h ⊢
  rw [A.value_bind, A.value_lengthOf] at h ⊢
  split at h
  · next hcomma =>
    rw [if_pos hcomma]
    rw [A.value_bind, A.value_lengthOf, A.value_bind, A.value_lengthOf, A.value_pure] at h ⊢
    obtain ⟨hpos, hlen⟩ := lengthen_pos h
    exact ⟨_, _, rfl, hcomma, rfl, hpos, by omega⟩
  · cases h

theorem commaListNodes_gives (wm : ts.WellMarked) {r : Rule} {element : Builder Node}
    (hel : ∀ j, 0 < A.len r j → Gives A element j (j + A.len r j))
    (h : 0 < A.value (commaListLength ts r i)) :
    GivesAll A (commaListNodes ts (i + A.value (commaListLength ts r i)) element) i
      (i + A.value (commaListLength ts r i)) := by
  obtain ⟨hpos, hend⟩ := commaList_cases h
  have htrail := A.trail_walkWhile ts.size (afterComma ts r) (i + A.len r i)
  rw [← hend] at htrail
  intro E lo hc
  refine (hel i hpos).then hc fun first hfirst hc => ?_
  refine (givesAll_collectTo htrail fun j l hjl => ?_).then hc fun rest hrest _ =>
    ⟨rfl, hfirst.single.append hrest⟩
  obtain ⟨_, hround, rfl⟩ := hjl
  obtain ⟨c, e, rfl, hc, rfl, hep, hstop⟩ := afterComma_cases hround
  rw [hstop]
  intro E lo hs
  refine (spacingNodes_gives wm A j).then hs fun before hbefore hs => ?_
  refine (gives_mark (k := .delimiter) ⟨rfl, rfl⟩ hc rfl).then hs fun comma hcomma hc => ?_
  refine (spacingNodes_gives wm A _).then hc fun after hafter hc => ?_
  refine (hel _ hep).then hc fun elem helem _ => ?_
  exact ⟨rfl, ((hbefore.append hcomma.single).append hafter).append helem.single⟩

theorem selectorGroupNodes_gives (wm : ts.WellMarked) (h : 0 < A.len .selectorGroup i) :
    GivesAll A (selectorGroupNodes ts) i (i + A.len .selectorGroup i) := by
  have he := A.len_of_sole (r := .selectorGroup) (u := ()) wm rfl (A.lt_of_len h) rfl
  intro E lo hc
  refine runs_cursor.2 (runs_look.2 ⟨⟨_, lengthOf_top .selectorGroup i⟩, ?_⟩)
  rw [A.value_lengthOf]
  rw [he] at h ⊢
  refine (commaListNodes_gives wm (fun _ => selectorNode_gives wm) h).then hc fun ns hns _ => ?_
  exact runs_cursor.2 (runs_check.2 ⟨decide_eq_true rfl, rfl, hns⟩)

end LessCss
