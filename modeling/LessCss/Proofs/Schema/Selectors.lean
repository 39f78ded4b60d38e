import LessCss.Proofs.Build.Selectors
import LessCss.Proofs.Schema.Terms
import Mathlib.Data.List.Chain

/-! What the builders of selectors make. How the parts of a selector follow each other was settled
by the lookahead: behind a compound or a combinator it takes spacing and one more of the two, and
the builder makes nodes of the same parts. -/

namespace LessCss

open Lookahead Builder Grammar Node Node.Kind

variable {ts : Tokens} {capped : Bool} {A : Reading ts capped} {i j : Nat}

/-! ## Parts of a compound -/

theorem namespaceNodes_yields :
    Yields A (namespaceNodes ts) i (one [.namespaceName] * maybe (one [.blockComment])) := by
  have hname : Makes A (branch ts .namespaceName
      (single (choose (starts .ident) (identNode ts) (leaf ts .ident 1)))) i [.namespaceName] :=
    Yields.branch (k := .namespaceName)
      (makes_choose_starts identNode_makes (makes_leaf rfl 1)).single (by decide)
  refine hname.then fun name _ hname => ensures_cursor.2 ?_
  exact (Yields.given blockCommentNode_makes.single).then fun _ _ hcomment => hname.append hcomment

theorem namespacePartNode_makes : Makes A (namespacePartNode ts) i [.namespacePart] := by
  refine Yields.branch (k := .namespacePart) (ensures_ask.2 ?_) (by decide)
  refine (Yields.given namespaceNodes_yields).then fun lead _ hlead => ?_
  exact (makes_leaf (k := .namespaceSeparator) rfl 1).then fun _ _ hbar => hlead.append hbar

theorem starOrIdentNode_makes : Makes A (starOrIdentNode ts) i [.ident] := by
  refine ensures_cursor.2 ?_
  split
  · exact makes_leaf rfl 1
  · exact identNode_makes

theorem typeSelectorNode_makes : Makes A (typeSelectorNode ts) i [.typeSelector] := by
  refine Yields.branch (k := .typeSelector) ?_ (by decide)
  refine (Yields.optionally_starts namespacePartNode_makes.single).then fun space _ hspace => ?_
  exact starOrIdentNode_makes.then fun _ _ hname => hspace.append hname

/-- Nodes of some kinds are none, or one and others. -/
theorem listed_many_cases {ks : List Kind} {ns : List Node} (h : Listed (many ks) ns) :
    ns = [] ∨ Listed (one ks * many ks) ns := by
  cases ns with
  | nil => exact Or.inl rfl
  | cons n ns =>
    have hall := List.forall_mem_cons.1 (listed_many.1 h)
    have hone : Listed (one ks) [n] := listed_one.2 hall.1
    exact Or.inr (hone.append (listed_many.2 hall.2))

theorem parentSuffixNode_makes : Makes A (parentSuffixNode ts) i [.parentSuffix] := by
  refine makes_branch_of_empty (k := .parentSuffix) (by decide) ?_
  have hall : Yields A (collect ts.size (do
      if ← starts .number then return ⟨[← numberNode ts], true⟩
      else if ← starts .ident then return ⟨[← identNode ts], true⟩
      else return ⟨[], false⟩)) i (many [.number, .ident]) := by
    refine yields_collect fun j => ?_
    exact ensures_choose_starts (fun _ => numberNode_makes.round (by decide)) fun _ =>
      ensures_choose_starts (fun _ => identNode_makes.round (by decide)) fun _ => ensures_round_none
  exact Ensures.mono hall fun ns _ hns =>
    ⟨(listed_many_cases hns).imp_right fun h => Or.inl h.1, hns.2⟩

theorem parentNodes_yields : Yields A (parentNodes ts) i parent := by
  refine (makes_leaf (k := .parentSelector) rfl 1).then fun sign _ hsign => ?_
  exact (Yields.optionally_sees parentSuffixNode_makes.single).then fun _ _ hsuffix =>
    hsign.append hsuffix

theorem attributeNameNode_makes : Makes A (attributeNameNode ts) i [.attributeName] := by
  refine Yields.branch (k := .attributeName) (ensures_look.2 (ensures_sees.2 ?_)) (by decide)
  refine (Yields.given namespacePartNode_makes.single).then fun space _ hspace => ?_
  exact identNode_makes.then fun _ _ hname => hspace.append hname

theorem attributeValueNode_makes : Makes A (attributeValueNode ts) i [.attributeValue] :=
  Yields.branch (k := .attributeValue)
    (makes_choose_sees (stringNode_makes.mono (by decide)) (identNode_makes.mono (by decide))).single
    (by decide)

theorem comparisonNodes_yields : Yields A (comparisonNodes ts) i comparison := by
  have hmatch : Makes A (comparatorNode ts) i [.attributeMatch] :=
    ensures_cursor.2 (makes_leaf rfl _)
  have hflags : ∀ j, Yields A (attributeFlagsNodes ts) j (one [.attributeFlags] * spacing) := by
    intro j
    have hname : Makes A (branch ts .attributeFlags (single (identNode ts))) j [.attributeFlags] :=
      Yields.branch (k := .attributeFlags) identNode_makes.single (by decide)
    exact hname.then fun _ _ hname => spacingNodes_yields.then fun _ _ hafter => hname.append hafter
  refine hmatch.then fun comparator _ hcomparator => ?_
  refine spacingNodes_yields.then fun before _ hbefore => ?_
  refine attributeValueNode_makes.then fun value _ hvalue => ?_
  refine spacingNodes_yields.then fun after _ hafter => ?_
  refine (Yields.optionally_starts (hflags _)).then fun flags _ hflags => ?_
  exact ((hcomparator.append hbefore).append (hvalue.append hafter)).append hflags

theorem attributeSelectorNode_makes :
    Makes A (attributeSelectorNode ts) i [.attributeSelector] := by
  refine Yields.branch (k := .attributeSelector) (ensures_ask.2 (ensures_skip.2 ?_)) (by decide)
  refine spacingNodes_yields.then fun before _ hbefore => ?_
  refine attributeNameNode_makes.then fun name _ hname => ?_
  refine spacingNodes_yields.then fun after _ hafter => ?_
  refine (Yields.given comparisonNodes_yields).then fun rest _ hrest => ensures_skip.2 ?_
  exact (hbefore.append (hname.append hafter)).append hrest

theorem pseudoElementNode_makes : Makes A (pseudoElementNode ts) i [.pseudoElement] :=
  Yields.branch (k := .pseudoElement) (ensures_skip.2 anyNameNode_makes.single) (by decide)

theorem nthNodes_yields (close : Nat) : Yields A (nthNodes ts close) i (many argumentParts) := by
  refine yields_collectTo fun j => ensures_cursor.2 (ensures_choose_starts (fun _ => ?_) fun _ => ?_)
  · exact spacingNodes_yields.widen (by decide)
  split
  · exact (makes_leaf (k := .unary) rfl 1).many (by decide)
  split
  · exact (makes_leaf (k := .number) rfl 1).many (by decide)
  · exact (makes_leaf (k := .ident) rfl 1).many (by decide)

theorem spacedIdentNodes_yields : Yields A (spacedIdentNodes ts) i (many argumentParts) := by
  refine spacingNodes_yields.then fun before _ hbefore => ?_
  refine identNode_makes.then fun name _ hname => ?_
  refine spacingNodes_yields.then fun after _ hafter => ?_
  have hone : Listed (many argumentParts) [name] := listed_many.2 fun n hn => by
    rw [List.mem_singleton.1 hn]
    exact ⟨by rw [List.mem_singleton.1 (listed_one.1 hname).1]; decide, (listed_one.1 hname).2⟩
  have hb : Listed (many argumentParts) before := hbefore.widen (by decide)
  have ha : Listed (many argumentParts) after := hafter.widen (by decide)
  exact listed_many.2 (List.forall_mem_append.2
    ⟨List.forall_mem_append.2 ⟨listed_many.1 hb, listed_many.1 hone⟩, listed_many.1 ha⟩)

theorem pseudoArgumentsNode_makes (shape : PseudoShape) :
    Makes A (pseudoArgumentsNode ts shape) i [.arguments] := by
  refine Yields.branch (k := .arguments) (ensures_cursor.2 (ensures_skip.2 ?_)) (by decide)
  have hcontent : ∀ close j,
      Yields A (pseudoArgumentNodes ts shape close) j Kind.arguments.content := by
    intro close j
    unfold pseudoArgumentNodes
    split
    · exact Ensures.mono (yields_enter .selectors nofun) fun _ _ hns => hns.right
    · exact Ensures.mono spacedIdentNodes_yields fun _ _ hns => hns.left
    · exact Ensures.mono (nthNodes_yields close) fun _ _ hns => hns.left
  exact (hcontent _ _).then fun _ _ hns => ensures_skip.2 hns

theorem pseudoClassNode_makes : Makes A (pseudoClassNode ts) i [.pseudoClass] := by
  refine Yields.branch (k := .pseudoClass) (ensures_ask.2 (ensures_check.2 (ensures_skip.2 ?_)))
    (by decide)
  split
  · exact Ensures.mono anyNameNode_makes.single fun _ _ hns => hns.left
  · exact identNode_makes.then fun _ _ hname => (pseudoArgumentsNode_makes _).then fun _ _ hargs =>
      (hname.append hargs).right

theorem pseudoNode_makes : Makes A (pseudoNode ts) i [.pseudoElement, .pseudoClass] :=
  makes_choose_sees (pseudoElementNode_makes.mono (by decide)) (pseudoClassNode_makes.mono (by decide))

/-! ## Compounds -/

theorem compoundNode_makes : Makes A (compoundNode ts) i [.compoundSelector] := by
  refine makes_branch_of_empty (k := .compoundSelector) (by decide) ?_
  refine ensures_ask.2 (ensures_check.2 (ensures_cursor.2 ?_))
  have hlead : ∀ j, Yields A (compoundLeadNodes ts) j (one [.typeSelector] + parent) := fun j =>
    ensures_choose_sees (fun _ => Ensures.mono typeSelectorNode_makes.single fun _ _ h => h.left)
      fun _ => Ensures.mono parentNodes_yields fun _ _ h => h.right
  have hparts : ∀ j, Yields A (collect ts.size (do
      if ← starts .idSelector then return ⟨[← idNode ts], true⟩
      else if ← starts .classSelector then return ⟨[← classNode ts], true⟩
      else if ← starts .attributeSelector then return ⟨[← attributeSelectorNode ts], true⟩
      else if ← sees (pseudoLength ts) then return ⟨[← pseudoNode ts], true⟩
      else return ⟨[], false⟩)) j (many compoundParts) := by
    refine fun j => yields_collect fun j => ?_
    refine ensures_choose_starts (fun _ => idNode_makes.round (by decide)) fun _ => ?_
    refine ensures_choose_starts (fun _ => classNode_makes.round (by decide)) fun _ => ?_
    refine ensures_choose_starts (fun _ => attributeSelectorNode_makes.round (by decide)) fun _ => ?_
    exact ensures_choose_sees (fun _ => pseudoNode_makes.round (by decide)) fun _ =>
      ensures_round_none
  refine (Yields.given (hlead _)).then fun lead _ hlead => ?_
  refine (hparts _).then fun parts _ hparts => ensures_cursor.2 (ensures_check.2 ?_)
  change (lead ++ parts = [] ∨ Admits .compoundSelector ((lead ++ parts).map kind)) ∧ _
  rcases (Language.mem_add _ _ _).1 hlead.1 with hnone | hsome
  · obtain rfl : lead = [] := List.map_eq_nil_iff.1 hnone
    rw [List.nil_append]
    refine ⟨(listed_many_cases hparts).imp_right fun h => ?_, hparts.2⟩
    obtain ⟨v, hv, w, hw, he⟩ := Language.mem_mul.1 h.1
    rw [← he]
    exact Or.inl (Language.append_mem_mul ((Language.mem_add _ _ _).2 (Or.inr hv)) hw)
  · have hall : Listed Kind.compoundSelector.content (lead ++ parts) :=
      (Listed.left (p := one [.typeSelector] + parent) ⟨hsome, hlead.2⟩).append hparts
    exact ⟨Or.inr (Or.inl hall.1), hall.2⟩

/-! ## How the parts of a selector follow each other -/

/-- The rule of a part of a selector. -/
def SelectorLead.rule : SelectorLead → Rule
  | .compound => .compound
  | .combinator => .combinator

/-- The kind of a part of a selector. -/
def SelectorLead.kind : SelectorLead → Kind
  | .compound => .compoundSelector
  | .combinator => .combinator

/-- Whether `part` can follow `last` with a gap of `n` tokens between them. -/
def SelectorLead.Precedes (last part : SelectorLead) (n : Nat) : Prop :=
  ¬ (last = .combinator ∧ part = .combinator) ∧
    (n = 0 → ¬ (last = .compound ∧ part = .compound))

/-- The rest of a selector behind the part `last`. -/
inductive SelectorRest (A : Reading ts capped) : SelectorLead → Nat → Nat → Prop
  | nil (last : SelectorLead) (j : Nat) : SelectorRest A last j j
  | cons {last : SelectorLead} {j k : Nat} (part : SelectorLead)
    (precedes : last.Precedes part (A.len .spacing j))
    (pos : 0 < A.len part.rule (j + A.len .spacing j))
    (rest : SelectorRest A part (j + A.len .spacing j + A.len part.rule (j + A.len .spacing j)) k) :
    SelectorRest A last j k

theorem SelectorRest.le {last : SelectorLead} {k : Nat} (h : SelectorRest A last j k) : j ≤ k := by
  induction h with
  | nil last j => exact Nat.le_refl j
  | cons part _ _ _ ih => omega

/-- What follows a compound in one round. -/
theorem afterCompound_cases (A : Reading ts capped) (j : Nat) :
    ∃ a s, a = j + A.len .spacing j ∧ s = A.value (afterCompound j) ∧
      (s.length = 0 ∨
        0 < A.len .spacing j ∧ 0 < A.len .compound a ∧ s.more = true ∧
          j + s.length = a + A.len .compound a ∨
        0 < A.len .combinator a ∧ s.more = false ∧ j + s.length = a + A.len .combinator a ∨
        0 < A.len .combinator a ∧ ∃ b c, b = a + A.len .combinator a ∧ c = b + A.len .spacing b ∧
          0 < A.len .compound c ∧ s.more = true ∧ j + s.length = c + A.len .compound c) := by
  refine ⟨_, _, rfl, rfl, ?_⟩
  unfold afterCompound
  rw [A.value_bind, A.value_lengthOf, A.value_bind, A.value_lengthOf]
  split
  · split
    · exact Or.inl rfl
    · next hgap =>
      rw [A.value_bind, A.value_lengthOf, A.value_pure]
      by_cases hz : A.len .compound (j + A.len .spacing j) = 0
      · rw [hz]
        exact Or.inl rfl
      · refine Or.inr (Or.inl ⟨by omega, by omega, rfl, ?_⟩)
        simp only [Step.go, lengthen, if_neg hz]
        omega
  · next hsome =>
    refine Or.inr (Or.inr ?_)
    dsimp only
    rw [A.value_bind, A.value_lengthOf, A.value_bind, A.value_lengthOf]
    split
    · exact Or.inl ⟨Nat.pos_of_ne_zero hsome, rfl, (Nat.add_assoc _ _ _).symm⟩
    · next hnext =>
      rw [← Nat.add_assoc] at hnext ⊢
      refine Or.inr ⟨Nat.pos_of_ne_zero hsome, _, _, rfl, rfl, Nat.pos_of_ne_zero hnext, rfl, ?_⟩
      simp only [A.value_pure, Step.go]
      omega

/-- What follows a combinator in one round. -/
theorem afterCombinator_cases (A : Reading ts capped) (j : Nat) :
    ∃ a s, a = j + A.len .spacing j ∧ s = A.value (afterCombinator j) ∧
      (s.length = 0 ∨
        0 < A.len .compound a ∧ s.more = false ∧ j + s.length = a + A.len .compound a ∨
        0 < A.len .compound a ∧ ∃ b c, b = a + A.len .compound a ∧ c = b + A.len .spacing b ∧
          0 < A.len .combinator c ∧ s.more = true ∧ j + s.length = c + A.len .combinator c) := by
  refine ⟨_, _, rfl, rfl, ?_⟩
  unfold afterCombinator
  rw [A.value_bind, A.value_lengthOf, A.value_bind, A.value_lengthOf]
  split
  · exact Or.inl rfl
  · next hsome =>
    refine Or.inr ?_
    dsimp only
    rw [A.value_bind, A.value_lengthOf, A.value_bind, A.value_lengthOf]
    split
    · exact Or.inl ⟨Nat.pos_of_ne_zero hsome, rfl, (Nat.add_assoc _ _ _).symm⟩
    · next hnext =>
      rw [← Nat.add_assoc] at hnext ⊢
      refine Or.inr ⟨Nat.pos_of_ne_zero hsome, _, _, rfl, rfl, Nat.pos_of_ne_zero hnext, rfl, ?_⟩
      simp only [A.value_pure, Step.go]
      omega

theorem walk_afterCompound_rest (A : Reading ts capped) (stop j : Nat) :
    SelectorRest A .compound j (A.value (walk stop afterCompound j)) := by
  generalize hn : stop - j = n
  induction n using Nat.strongRecOn generalizing j with
  | ind n ih =>
    rw [A.value_walk]
    split
    · obtain ⟨a, s, rfl, hs, hcases⟩ := afterCompound_cases A j
      rw [← hs]
      rcases hcases with hz | ⟨hgap, hpos, hmore, hlen⟩ | ⟨hpos, hmore, hlen⟩ |
        ⟨hpos, b, c, hb, hc, hpos', hmore, hlen⟩
      · rw [hz, if_neg (by omega)]
        exact .nil _ j
      · rw [if_pos ⟨by omega, hmore⟩, hlen]
        exact .cons .compound ⟨by simp, by omega⟩ hpos (ih _ (by omega) _ rfl)
      · rw [if_neg (by rw [hmore]; simp), hlen]
        exact .cons .combinator ⟨by simp, by simp⟩ hpos (.nil _ _)
      · have hrest := ih _ (show stop - (c + A.len .compound c) < n by omega) _ rfl
        rw [if_pos ⟨by omega, hmore⟩, hlen]
        subst hc hb
        exact .cons .combinator ⟨by simp, by simp⟩ hpos (.cons .compound ⟨by simp, by simp⟩ hpos' hrest)
    · exact .nil _ j

theorem walk_afterCombinator_rest (A : Reading ts capped) (stop j : Nat) :
    SelectorRest A .combinator j (A.value (walk stop afterCombinator j)) := by
  generalize hn : stop - j = n
  induction n using Nat.strongRecOn generalizing j with
  | ind n ih =>
    rw [A.value_walk]
    split
    · obtain ⟨a, s, rfl, hs, hcases⟩ := afterCombinator_cases A j
      rw [← hs]
      rcases hcases with hz | ⟨hpos, hmore, hlen⟩ | ⟨hpos, b, c, hb, hc, hpos', hmore, hlen⟩
      · rw [hz, if_neg (by omega)]
        exact .nil _ j
      · rw [if_neg (by rw [hmore]; simp), hlen]
        exact .cons .compound ⟨by simp, by simp⟩ hpos (.nil _ _)
      · have hrest := ih _ (show stop - (c + A.len .combinator c) < n by omega) _ rfl
        rw [if_pos ⟨by omega, hmore⟩, hlen]
        subst hc hb
        exact .cons .compound ⟨by simp, by simp⟩ hpos (.cons .combinator ⟨by simp, by simp⟩ hpos' hrest)
    · exact .nil _ j

/-- A selector is a compound or a combinator and what follows it. -/
theorem selector_rest (wm : ts.WellMarked) (h : 0 < A.len .selector i) :
    ∃ first : SelectorLead, 0 < A.len first.rule i ∧
      SelectorRest A first (i + A.len first.rule i) (i + A.len .selector i) := by
  obtain ⟨m, ht, hlen⟩ := A.exists_of_len h
  have hbody : A.value (selectorMatch ts i) = some m := A.value_of_tell wm rfl ht
  rw [← hlen]
  unfold selectorMatch at hbody
  rw [A.value_bind, A.value_lengthOf] at hbody
  split at hbody
  · rw [A.value_bind, A.value_lengthOf] at hbody
    split at hbody
    · cases hbody
    · next hn =>
      rw [A.value_bind, A.value_bind, A.value_tokensBetween, A.value_pure] at hbody
      have hrest := walk_afterCombinator_rest A ts.size (i + A.len .combinator i)
      have hle := hrest.le
      obtain ⟨_, hl⟩ := of?_eq_some hbody
      rw [show A.value (walk ts.size afterCombinator (i + A.len .combinator i)) = i + m.length by
        omega] at hrest
      exact ⟨.combinator, Nat.pos_of_ne_zero hn, hrest⟩
  · next hn =>
    rw [A.value_bind, A.value_bind, A.value_tokensBetween, A.value_pure] at hbody
    have hrest := walk_afterCompound_rest A ts.size (i + A.len .compound i)
    have hle := hrest.le
    obtain ⟨_, hl⟩ := of?_eq_some hbody
    rw [show A.value (walk ts.size afterCompound (i + A.len .compound i)) = i + m.length by
      omega] at hrest
    exact ⟨.compound, Nat.pos_of_ne_zero hn, hrest⟩

/-! ## Selectors -/

theorem linked_single (part : SelectorLead) : Linked [part.kind] := by
  cases part <;> exact ⟨by decide, by decide, by decide, by decide, by decide, by decide⟩

theorem SelectorLead.kind_notMem (part : SelectorLead) : part.kind ∉ spacings := by
  cases part <;> decide

theorem SelectorLead.kind_inj {part : SelectorLead} :
    (part.kind = .compoundSelector ↔ part = .compound) ∧
      (part.kind = .combinator ↔ part = .combinator) := by
  cases part <;> decide

theorem not_compound_of_spacing {k : Kind} (h : k ∈ spacings) : k ≠ .compoundSelector := by
  rintro rfl
  revert h
  decide

/-- One more part of a selector, behind spacing. -/
theorem Node.Kind.Linked.append_part {ks gap : List Kind} {last part : SelectorLead}
    (h : Linked ks) (hlast : ks.getLast? = some last.kind) (hgap : ∀ k ∈ gap, k ∈ spacings)
    (hnext : last.Precedes part gap.length) : Linked (ks ++ (gap ++ [part.kind])) where
  ne_nil := List.append_ne_nil_of_left_ne_nil h.ne_nil _
  parts := by
    refine List.forall_mem_append.2 ⟨h.parts, List.forall_mem_append.2
      ⟨fun k hk => Or.inl (hgap k hk), List.forall_mem_singleton.2 ?_⟩⟩
    cases part with
    | compound => exact Or.inr (Or.inr rfl)
    | combinator => exact Or.inr (Or.inl rfl)
  head := by
    rw [List.head?_append_of_ne_nil _ h.ne_nil]
    exact h.head
  last := by
    rw [← List.append_assoc, List.getLast?_concat]
    rintro k ⟨⟩
    exact part.kind_notMem
  compounds := by
    -- in the gap there is no compound, so only its ends matter, or it is empty
    have hinner : gap.IsChain fun k l => ¬ (k = .compoundSelector ∧ l = .compoundSelector) :=
      (List.pairwise_of_forall_mem_list fun k hk _ _ => fun ⟨hk', _⟩ =>
        not_compound_of_spacing (hgap k hk) hk').isChain
    refine List.isChain_append.2 ⟨h.compounds, List.isChain_append.2 ⟨hinner, .singleton _, ?_⟩, ?_⟩
    · intro k hk _ _ h'
      exact not_compound_of_spacing (hgap k (List.mem_of_getLast? hk)) h'.1
    · rw [hlast]
      rintro k ⟨⟩ l hl ⟨hk, hl'⟩
      cases gap with
      | nil =>
        cases hl
        exact hnext.2 rfl ⟨SelectorLead.kind_inj.1.1 hk, SelectorLead.kind_inj.1.1 hl'⟩
      | cons g gap =>
        have hg : g = l := Option.some.inj hl
        exact not_compound_of_spacing (hgap g List.mem_cons_self) (hg.trans hl')
  combinators := by
    have hnone : gap.filter (· ∉ spacings) = [] :=
      List.filter_eq_nil_iff.2 fun k hk => by simpa using hgap k hk
    obtain ⟨ks', rfl⟩ := List.getLast?_eq_some_iff.1 hlast
    have hpart : (gap ++ [part.kind]).filter (· ∉ spacings) = [part.kind] := by
      rw [List.filter_append, hnone, List.nil_append, List.filter_singleton,
        decide_eq_true part.kind_notMem]
      rfl
    rw [List.filter_append, hpart]
    refine List.isChain_append.2 ⟨h.combinators, .singleton _, ?_⟩
    rw [List.filter_append, List.filter_singleton, decide_eq_true last.kind_notMem]
    intro k hk l hl h'
    change (ks'.filter _ ++ [last.kind]).getLast? = some k at hk
    rw [List.getLast?_concat] at hk
    cases hk
    cases hl
    exact hnext.1 ⟨SelectorLead.kind_inj.2.1 h'.1, SelectorLead.kind_inj.2.1 h'.2⟩

/-- One round of the builder of selectors. -/
abbrev selectorRound (ts : Tokens) : Builder (List Node) :=
  choose (starts .spacing) (spacingNodes ts)
    (choose (starts .combinator) (single (combinatorNode ts)) (single (compoundNode ts)))

/-- The round takes the part that the lookahead has found. -/
theorem selectorRound_part (wm : ts.WellMarked) (part : SelectorLead) (h : 0 < A.len part.rule j) :
    (selectorRound ts).Ensures A j fun ns k =>
      k = j + A.len part.rule j ∧ Listed (one [part.kind]) ns := by
  have hstop : ∀ {k}, Yields A (selectorRound ts) j (one [part.kind]) →
      GivesAll A (selectorRound ts) j k →
      (selectorRound ts).Ensures A j fun ns l => l = k ∧ Listed (one [part.kind]) ns :=
    fun hmakes hgives => (hgives.and_ensures hmakes).mono fun _ _ h => ⟨h.1.1, h.2⟩
  cases part with
  | compound =>
    refine hstop ?_ (selectorPiece_gives wm (.compound h))
    refine ensures_choose_starts (fun hp => ?_) fun _ => ?_
    · rw [spacing_of_compound wm h] at hp
      exact absurd hp (Nat.lt_irrefl 0)
    refine ensures_choose_starts (fun hp => ?_) fun _ => compoundNode_makes.single
    rw [combinator_of_compound wm h] at hp
    exact absurd hp (Nat.lt_irrefl 0)
  | combinator =>
    refine hstop ?_ (selectorPiece_gives wm (.combinator h))
    refine ensures_choose_starts (fun hp => ?_) fun _ => ?_
    · rw [spacing_of_combinator wm h] at hp
      exact absurd hp (Nat.lt_irrefl 0)
    refine ensures_choose_starts (fun _ => (makes_leafOf rfl _).single) fun hz => ?_
    exact absurd hz (Nat.pos_iff_ne_zero.1 h)

theorem selectorRound_spacing (wm : ts.WellMarked) (h : 0 < A.len .spacing j) :
    (selectorRound ts).Ensures A j fun ns k =>
      k = j + A.len .spacing j ∧ ns ≠ [] ∧ Listed spacing ns := by
  have hmakes : Yields A (selectorRound ts) j spacing :=
    ensures_choose_starts (fun _ => spacingNodes_yields) fun hz => absurd hz (by omega)
  refine ((selectorPiece_gives wm (.spacing h)).and_ensures hmakes).mono ?_
  rintro ns k ⟨⟨rfl, htiles⟩, hns⟩
  refine ⟨rfl, ?_, hns⟩
  rintro rfl
  have hempty := htiles.eq_of_nil
  omega

/-- The nodes of a selector up to its part `last`. -/
def LinkedUpTo (last : SelectorLead) (ns : List Node) : Prop :=
  Linked (ns.map Node.kind) ∧ (ns.map Node.kind).getLast? = some last.kind ∧ ∀ n ∈ ns, n.Drafted

theorem LinkedUpTo.append_part {last part : SelectorLead} {ns gap ms : List Node}
    (h : LinkedUpTo last ns) (hgap : Listed spacing gap) (hms : Listed (one [part.kind]) ms)
    (hnext : last.Precedes part gap.length) : LinkedUpTo part (ns ++ (gap ++ ms)) := by
  have hkinds : ms.map Node.kind = [part.kind] := by
    obtain ⟨k, hk, he⟩ := mem_one.1 hms.1
    rw [he, List.mem_singleton.1 hk]
  rw [← List.length_map (f := Node.kind)] at hnext
  refine ⟨?_, ?_, List.forall_mem_append.2 ⟨h.2.2, List.forall_mem_append.2 ⟨hgap.2, hms.2⟩⟩⟩
  · rw [List.map_append, List.map_append, hkinds]
    exact h.1.append_part h.2.1 (mem_many.1 hgap.1) hnext
  · rw [List.map_append, List.map_append, hkinds, ← List.append_assoc, List.getLast?_concat]

/-- The builder makes nodes of the rest of a selector. -/
theorem SelectorRest.collect (wm : ts.WellMarked) {last : SelectorLead} {stop : Nat}
    (h : SelectorRest A last j stop) {sofar : List Node} (hs : LinkedUpTo last sofar.reverse) :
    (collectFrom stop (do return ⟨← selectorRound ts, true⟩) sofar j).Ensures A fun r =>
      ∃ last, LinkedUpTo last r.1 := by
  induction h generalizing sofar with
  | nil last j =>
    rw [collectFrom, dif_neg (Nat.lt_irrefl j)]
    exact ⟨last, hs⟩
  | @cons last j stop part precedes pos rest ih =>
    have hle := rest.le
    -- the part behind the gap, whatever the nodes of the gap are
    have hpart : ∀ gap, Listed spacing gap → last.Precedes part gap.length →
        (collectFrom stop (do return ⟨← selectorRound ts, true⟩) (gap.reverse ++ sofar)
          (j + A.len .spacing j)).Ensures A fun r => ∃ last, LinkedUpTo last r.1 := by
      intro gap hgap hnext
      refine collectFrom_ensures_step (by omega) (ensures_bind.2 ?_)
      refine (selectorRound_part wm part pos).mono ?_
      rintro ms _ ⟨rfl, hms⟩
      change if _ ∧ true = true then (collectFrom stop _ (ms.reverse ++ _) _).Ensures A _ else _
      rw [if_pos ⟨by omega, rfl⟩]
      refine ih ?_
      rw [List.reverse_append, List.reverse_append, List.reverse_reverse, List.reverse_reverse,
        List.append_assoc]
      exact hs.append_part hgap hms hnext
    rcases Nat.eq_zero_or_pos (A.len .spacing j) with hz | hp
    · have hgo := hpart [] listed_star_nil (by rw [hz] at precedes; exact precedes)
      rw [hz, Nat.add_zero] at hgo
      exact hgo
    · refine collectFrom_ensures_step (by omega) (ensures_bind.2 ?_)
      refine (selectorRound_spacing wm hp).mono ?_
      rintro gap _ ⟨rfl, hne, hgap⟩
      change if _ ∧ true = true then (collectFrom stop _ (gap.reverse ++ _) _).Ensures A _ else _
      rw [if_pos ⟨by omega, rfl⟩]
      exact hpart gap hgap ⟨precedes.1, fun hz => absurd (List.length_eq_zero_iff.1 hz) hne⟩

theorem selectorNode_makes (wm : ts.WellMarked) : Makes A (selectorNode ts) i [.selector] := by
  refine makes_branch_of_empty (k := .selector) (by decide) (ensures_cursor.2 (ensures_look.2 ?_))
  rw [A.value_lengthOf]
  change (collectFrom _ (do return ⟨← selectorRound ts, true⟩) [] i).Ensures A _
  rcases Nat.eq_zero_or_pos (A.len .selector i) with hz | hpos
  · rw [hz, Nat.add_zero, collectFrom, dif_neg (Nat.lt_irrefl i)]
    exact ⟨Or.inl rfl, List.forall_mem_nil _⟩
  · obtain ⟨first, hfirst, hrest⟩ := selector_rest wm hpos
    refine collectFrom_ensures_step (by omega) (ensures_bind.2 ?_)
    refine (selectorRound_part wm first hfirst).mono ?_
    rintro ns _ ⟨rfl, hns⟩
    change if _ ∧ true = true then (collectFrom _ _ (ns.reverse ++ _) _).Ensures A _ else _
    rw [if_pos ⟨by omega, rfl⟩]
    have hkinds : ns.map Node.kind = [first.kind] := by
      obtain ⟨k, hk, he⟩ := mem_one.1 hns.1
      rw [he, List.mem_singleton.1 hk]
    refine Plan.Ensures.mono (hrest.collect wm ?_) fun r hr => ?_
    · rw [List.append_nil, List.reverse_reverse]
      refine ⟨?_, ?_, hns.2⟩
      · rw [hkinds]
        exact linked_single first
      · rw [hkinds]
        rfl
    · obtain ⟨_, hlinked, _, hall⟩ := hr
      exact ⟨Or.inr (Or.inr ⟨rfl, hlinked⟩), hall⟩

theorem commaListNodes_yields {element : Builder Node} (stop : Nat)
    (h : ∀ j, Makes A element j [.selector]) :
    Yields A (commaListNodes ts stop element) i selectors := by
  refine (h i).then fun first _ hfirst => ?_
  refine Yields.then (yields_collectTo_star fun j => ?_) fun rest _ hrest => hfirst.append hrest
  refine spacingNodes_yields.then fun before _ hbefore => ?_
  refine (makes_leaf (k := .delimiter) rfl 1).then fun comma _ hcomma => ?_
  refine spacingNodes_yields.then fun after _ hafter => ?_
  exact (h _).then fun elem _ helem => ((hbefore.append hcomma).append hafter).append helem

theorem selectorGroupNodes_yields (wm : ts.WellMarked) :
    Yields A (selectorGroupNodes ts) i selectors := by
  refine ensures_cursor.2 (ensures_look.2 ?_)
  exact (commaListNodes_yields _ fun _ => selectorNode_makes wm).then fun _ _ hns =>
    ensures_cursor.2 (ensures_check.2 hns)

end LessCss
