import LessCss.Proofs.Recurrence.Copies

/-! Productions that recur. One lemma for each builder of a selector or of a part of one: where
looking ahead finds its construct in both streams, it builds the same nodes in both. The walls are
those that hold back what the builder reads. In the parentheses of a pseudo-class there are selectors
again, with less before the wall, so the last step is an induction over what is left. -/

namespace LessCss

open Lookahead Builder Grammar Tokens

variable {ts ts' : Tokens} {A : Reading ts false} {B : Reading ts' false}
  {walls : List Token.Kind} {d s lo hi i j o c : Nat}

/-! ## Names and numbers -/

theorem identNode_copies_of_agrees (h : ts.Recurs walls ts' d lo hi)
    (hname : A.Agrees B d hi .ident i) (hlo : lo ≤ i) (hpos : 0 < A.len .ident i) :
    Copies A B d s (identNode ts) (identNode ts') i (i + A.len .ident i) :=
  copies_lookOf hname.len (copies_check (copies_leaf h .ident hpos hlo hname.le))

section
variable (h : ts.Recurs softWalls ts' d lo hi) (hlo : lo ≤ i) (hhi : i ≤ hi)
include h hlo hhi

theorem identNode_copies (hpos : 0 < A.len .ident i) :
    Copies A B d s (identNode ts) (identNode ts') i (i + A.len .ident i) :=
  identNode_copies_of_agrees h (h.ident hlo hhi) hlo hpos

theorem numberNode_copies (hpos : 0 < A.len .number i) :
    Copies A B d s (numberNode ts) (numberNode ts') i (i + A.len .number i) := by
  have hnumber := h.number (A := A) (B := B) hlo hhi
  exact copies_leafOfRule h .number hnumber.len hpos hlo hnumber.le

theorem interpolationNode_copies (wm : ts.WellMarked) (hpos : 0 < A.len .interpolation i) :
    Copies A B d s (interpolationNode ts) (interpolationNode ts') i
      (i + A.len .interpolation i) := by
  have hpart := (h.interpolation (A := A) (B := B) hlo hhi).le
  obtain ⟨_, _, hname, _, hlen⟩ := interpolation_cases wm hpos
  refine Copies.branch h .interpolation (copies_skip ?_) hlo (by omega)
  refine (identNode_copies h (by omega) (by omega) hname).then fun name => copies_skip ?_
  exact (copies_pure [name]).cast (by omega)

theorem nameNode_copies (wm : ts.WellMarked) {m : Match Name}
    (hm : A.value (nameMatch i) = some m) :
    Copies A B d s (nameNode ts m.shape) (nameNode ts' m.shape) i (i + m.length) := by
  have hpos := m.length_pos
  rcases name_cases hm with ⟨hs, hl⟩ | ⟨hs, hl, _⟩
  · rw [hs, hl]
    exact interpolationNode_copies h hlo hhi wm (by omega)
  · rw [hs, hl]
    exact identNode_copies h hlo hhi (by omega)

theorem anyNameNode_copies (wm : ts.WellMarked) {m : Match Name}
    (hm : A.value (nameMatch i) = some m) :
    Copies A B d s (anyNameNode ts) (anyNameNode ts') i (i + m.length) := by
  have hpos := m.length_pos
  refine copies_choose_starts (h.interpolation hlo hhi).len (fun hi => ?_) fun hz => ?_
  · rcases name_cases hm with ⟨_, hl⟩ | ⟨_, _, hz⟩
    · rw [hl]
      exact interpolationNode_copies h hlo hhi wm hi
    · omega
  · rcases name_cases hm with ⟨_, hl⟩ | ⟨_, hl, _⟩
    · omega
    · rw [hl]
      exact identNode_copies h hlo hhi (by omega)

/-- A class or an id: the mark at the cursor and a name of the form that the rule has found. -/
theorem markedName_copies (wm : ts.WellMarked) {mark : Token.Kind} (hmark : mark ∉ softWalls)
    {m : Match Name} (hm : A.value (markedNameMatch ts mark i) = some m) :
    Copies A B d s (do skip 1; single (nameNode ts m.shape))
      (do skip 1; single (nameNode ts' m.shape)) i (i + m.length) := by
  obtain ⟨his, n, hn, rfl⟩ := markedName_cases hm
  have hlt := h.lt_of_is hmark hhi his
  refine copies_skip ((nameNode_copies h (by omega) hlt wm hn).single.cast ?_)
  simp only [Match.lengthen]
  omega

theorem classNode_copies (wm : ts.WellMarked) (hpos : 0 < A.len .classSelector i) :
    Copies A B d s (classNode ts) (classNode ts') i (i + A.len .classSelector i) := by
  have hclass := h.classSelector (A := A) (B := B) hlo hhi
  have hle := hclass.le
  obtain ⟨m, ht, hlen⟩ := A.exists_of_len hpos
  refine Copies.branch h .classSelector (copies_ask hclass.tell ?_) hlo (by omega)
  rw [ht, ← hlen]
  exact markedName_copies h hlo hhi wm (by decide) (A.value_of_tell wm rfl ht)

theorem idNode_copies (wm : ts.WellMarked) (hpos : 0 < A.len .idSelector i) :
    Copies A B d s (idNode ts) (idNode ts') i (i + A.len .idSelector i) := by
  have hid := h.idSelector (A := A) (B := B) hlo hhi
  have hle := hid.le
  obtain ⟨m, ht, hlen⟩ := A.exists_of_len hpos
  refine Copies.branch h .idSelector (copies_ask hid.tell ?_) hlo (by omega)
  rw [ht, ← hlen]
  exact markedName_copies h hlo hhi wm (by decide) (A.value_of_tell wm rfl ht)

end

/-! ## Spacing -/

theorem blockCommentNode_copies (h : ts.Recurs walls ts' d lo hi) (hlo : lo ≤ i) (hhi : i < hi) :
    Copies A B d s (blockCommentNode ts) (blockCommentNode ts') i (i + 1) := by
  refine copies_cursor (copies_skip ⟨_, rfl, ?_⟩)
  change (Node.leaf .blockComment _ (ts'.position (d + i)), _) = _
  rw [h.text_eq hlo hhi, h.position_eq hlo hhi]

theorem lineCommentNode_copies (h : ts.Recurs walls ts' d lo hi) (hlo : lo ≤ i) (hhi : i < hi) :
    Copies A B d s (lineCommentNode ts) (lineCommentNode ts') i (i + 1) := by
  refine copies_cursor (copies_skip ⟨_, rfl, ?_⟩)
  change (Node.leaf .lineComment _ (ts'.position (d + i)), _) = _
  rw [h.text_eq hlo hhi, h.position_eq hlo hhi]

/-- One run of white space with no more spacing behind it. -/
theorem spacingNodes_of_space {n : Node} (wm : ts.WellMarked)
    (hpos : 0 < A.value (spaceLength ts i))
    (hend : ts.isAny (i + A.value (spaceLength ts i)) spacingKinds = false)
    (hn : (spaceNode ts i).Returns A lo (n, i + A.value (spaceLength ts i))) :
    (spacingNodes ts i).Returns A lo ([n], i + A.value (spaceLength ts i)) := by
  have hspan := value_spaceLength_eq (A := A) wm i
  have hblank : ts.isAny i blankKinds = true := isAny_of_lt_spanEnd (Nat.le_refl i) (by omega)
  have hround : (spacingChunk ts (ts.kind? i) i).Returns A lo
      (⟨[n], true⟩, i + A.value (spaceLength ts i)) := by
    rw [spacingChunk_of_blank hblank]
    exact Plan.Returns.bind hn rfl
  refine returns_collectFrom (lt_of_isAny hblank) (by omega) rfl hround
    (returns_collectFrom_end fun _ => ?_)
  rw [returns_cursor]
  change (spacingChunk ts (ts.kind? _) _).Returns A lo _
  rw [spacingChunk_of_other hend]
  rfl

section
variable (h : ts.Recurs walls ts' d lo hi) (hwalls : ∀ k ∈ blankKinds, k ∉ walls)
  (wm : ts.WellMarked) (wm' : ts'.WellMarked) (hlo : lo ≤ i) (hhi : i ≤ hi)
include h hwalls wm wm' hlo hhi

theorem spaceLength_agrees : B.value (spaceLength ts' (d + i)) = A.value (spaceLength ts i) ∧
    i + A.value (spaceLength ts i) ≤ hi := by
  obtain ⟨he, hle⟩ := h.spanEnd_eq blankKinds hwalls hlo hhi
  rw [← value_spaceLength_eq (A := A) wm, ← value_spaceLength_eq (A := B) wm'] at he
  rw [← value_spaceLength_eq (A := A) wm] at hle
  exact ⟨by omega, hle⟩

theorem spaceNode_copies (hpos : 0 < A.value (spaceLength ts i)) :
    Copies A B d s (spaceNode ts) (spaceNode ts') i (i + A.value (spaceLength ts i)) := by
  obtain ⟨hv, hle⟩ := spaceLength_agrees (A := A) (B := B) h hwalls wm wm' hlo hhi
  exact copies_leafOf h .space hv hpos hlo hle

end

section
variable (h : ts.Recurs snugWalls ts' d lo hi) (wm : ts.WellMarked) (wm' : ts'.WellMarked)
  (hlo : lo ≤ i) (hhi : i ≤ hi)
include h wm wm' hlo hhi

theorem spacingChunk_copies :
    CopiesRound A B d s (spacingChunk ts (ts.kind? i)) (spacingChunk ts' (ts'.kind? (d + i))) i
      (A.value (spacingRound ts i)) := by
  cases hany : ts.isAny i spacingKinds with
  | false =>
    have hany' : ts'.isAny (d + i) spacingKinds = false := by
      rw [h.isAny_eq (by decide) hlo hhi, hany]
    rw [value_spacingRound_other wm hany, spacingChunk_of_other hany, spacingChunk_of_other hany']
    exact copiesRound_none
  | true =>
    have hlt := h.lt_of_isAny (by decide) hhi hany
    rcases spacing_cases.1 hany with hb | hk | hk
    · have hb' : ts'.isAny (d + i) blankKinds = true := by
        rw [h.isAny_eq (by decide) hlo hhi, hb]
      have hpos := ((value_spaceLength (A := A) wm i).1 (blank_iff.2 hb)).1
      rw [value_spacingRound_blank wm hb, spacingChunk_of_blank hb, spacingChunk_of_blank hb']
      exact (spaceNode_copies h (by decide) wm wm' hlo hhi hpos).round hpos
    · rw [h.kind?_eq hlo hlt, hk, value_spacingRound_comment wm (by decide) hk]
      exact (blockCommentNode_copies h hlo hlt).round Nat.one_pos
    · rw [h.kind?_eq hlo hlt, hk, value_spacingRound_comment wm (by decide) hk]
      exact (lineCommentNode_copies h hlo hlt).round Nat.one_pos

theorem spacingNodes_copies :
    Copies A B d s (spacingNodes ts) (spacingNodes ts') i (i + A.len .spacing i) := by
  rw [len_spacing wm A i, ← walkWhile_spacingRound (A := A) wm i]
  refine copies_collectWhile (I := fun j => lo ≤ j ∧ j ≤ hi) h (fun _ hj => hj)
    (fun j hj => ⟨by omega, Nat.le_of_not_lt fun hlt => ?_⟩)
    (fun j hj => copiesRound_cursor (spacingChunk_copies h wm wm' hj.1 hj.2)) ⟨hlo, hhi⟩
  have hany : ts.isAny hi spacingKinds = true := spacingRound_isAny wm hj.2 hlt
  exact Nat.lt_irrefl hi (h.lt_of_isAny (by decide) (Nat.le_refl hi) hany)

end

/-! ## Type selectors and the parent selector -/

section
variable (h : ts.Recurs softWalls ts' d lo hi) (hlo : lo ≤ i) (hhi : i ≤ hi)
include h hlo hhi

theorem namespaceNodes_copies (hpos : 0 < A.value (nameOrStar ts i)) :
    Copies A B d s (namespaceNodes ts) (namespaceNodes ts') i (namespaceEnd A i) := by
  obtain ⟨_, hle⟩ := nameOrStar_agrees (A := A) (B := B) h hlo hhi
  rw [namespaceEnd]
  rw [nameOrStar_eq] at hpos hle ⊢
  have hname : Copies A B d s
      (single (choose (starts .ident) (identNode ts) (leaf ts .ident 1)))
      (single (choose (starts .ident) (identNode ts') (leaf ts' .ident 1))) i
      (i + A.len .ident i) :=
    (copies_choose_starts (h.ident hlo hhi).len (fun hi => identNode_copies h hlo hhi hi)
      fun hz => by omega).single
  refine (hname.branch h .namespaceName hlo (by omega)).then fun name => copies_cursor ?_
  rw [h.is_eq (by decide) (by omega) hle]
  refine (copies_given (fun hc => ?_) fun hc => ?_).then fun comment => copies_pure (name :: comment)
  · rw [hc]
    exact (blockCommentNode_copies h (by omega) (h.lt_of_is (by decide) hle hc)).single
  · rw [hc]
    rfl

theorem namespacePartNode_copies (wm : ts.WellMarked) (hspace : A.Agrees B d hi .namespacePart i)
    (hpos : 0 < A.len .namespacePart i) :
    Copies A B d s (namespacePartNode ts) (namespacePartNode ts') i
      (i + A.len .namespacePart i) := by
  have hle := hspace.le
  obtain ⟨m, ht, hlen⟩ := A.exists_of_len hpos
  refine Copies.branch h .namespacePart (copies_ask hspace.tell ?_) hlo (by omega)
  rw [ht]
  rcases namespace_cases (A.value_of_tell wm rfl ht) with ⟨hs, hname, _, hend⟩ | ⟨hs, _, hend⟩
  · simp only [Answer.shape?, Option.map_some, hs]
    change i + m.length = namespaceEnd A i + 1 at hend
    refine (namespaceNodes_copies h hlo hhi hname).then fun lead => ?_
    refine (copies_leaf h .namespaceSeparator Nat.one_pos ?_ (by omega)).then fun bar =>
      (copies_pure (lead ++ [bar])).cast (by omega)
    unfold namespaceEnd
    omega
  · simp only [Answer.shape?, Option.map_some, hs]
    refine (copies_pure []).then fun lead => ?_
    exact (copies_leaf h .namespaceSeparator Nat.one_pos hlo (by omega)).then fun bar =>
      (copies_pure (lead ++ [bar])).cast (by omega)

theorem typeSelectorNode_copies (wm : ts.WellMarked) (hspace : A.Agrees B d hi .namespacePart i)
    (hpos : 0 < A.value (typeSelectorLength ts i)) :
    Copies A B d s (typeSelectorNode ts) (typeSelectorNode ts') i
      (i + A.value (typeSelectorLength ts i)) := by
  have hend := hspace.le
  have hle := (typeSelectorLength_agrees h hspace hlo).2
  have hlead : Copies A B d s (optionally (starts .namespacePart) (single (namespacePartNode ts)))
      (optionally (starts .namespacePart) (single (namespacePartNode ts'))) i
      (i + A.len .namespacePart i) := by
    refine copies_choose_starts hspace.len (fun hn => ?_) fun hz => ?_
    · exact (namespacePartNode_copies h hlo hhi wm hspace hn).single
    · exact (copies_pure []).cast (by omega)
  refine Copies.branch h .typeSelector (hlead.then fun lead => ?_) hlo (by omega)
  have hname : Copies A B d s (starOrIdentNode ts) (starOrIdentNode ts')
      (i + A.len .namespacePart i) (i + A.value (typeSelectorLength ts i)) := by
    refine copies_cursor ?_
    rw [h.is_eq (by decide) (by omega) hend]
    rcases typeSelector_cases hpos with ⟨hs, hlen⟩ | ⟨hs, hname, hlen⟩
    · rw [hs]
      exact (copies_leaf h .ident Nat.one_pos (by omega) (by omega)).cast (by omega)
    · rw [hs]
      exact (identNode_copies h (by omega) hend hname).cast (by omega)
  exact hname.then fun name => copies_pure (lead ++ [name])

theorem parentSuffixNode_copies (hpos : 0 < A.value (parentSuffixLength ts i)) (hlt : i < hi) :
    Copies A B d s (parentSuffixNode ts) (parentSuffixNode ts') i
      (i + A.value (parentSuffixLength ts i)) := by
  refine Copies.branch h .parentSuffix ?_ hlo hlt
  rw [parentSuffix_end hpos]
  have hin : ∀ j, A.value (lengthOf .number j <|> lengthOf .ident j) =
      if A.len .number j = 0 then A.len .ident j else A.len .number j := by
    intro j
    rw [A.value_orElse, A.value_lengthOf, A.value_lengthOf]
  refine copies_collectWhile (I := fun j => lo ≤ j ∧ j ≤ hi) h (fun _ hj => hj) (fun j hj => ?_)
    (fun j hj => ?_) ⟨hlo, hhi⟩
  · rw [hin]
    split
    · exact ⟨by omega, (h.ident (A := A) (B := B) hj.1 hj.2).le⟩
    · exact ⟨by omega, (h.number (A := A) (B := B) hj.1 hj.2).le⟩
  · rw [hin]
    refine copiesRound_choose (h.number hj.1 hj.2).len
      (fun hn => (numberNode_copies h hj.1 hj.2 hn).round hn) fun _ => ?_
    exact copiesRound_starts (h.ident hj.1 hj.2).len
      fun hn => (identNode_copies h hj.1 hj.2 hn).round hn

theorem parentNodes_copies (hpos : 0 < A.value (parentLength ts i)) :
    Copies A B d s (parentNodes ts) (parentNodes ts') i (i + A.value (parentLength ts i)) := by
  obtain ⟨hv, hle⟩ := parentLength_agrees (A := A) (B := B) h hlo hhi
  have hm := parent_head hpos
  have hm' := parent_head (hv ▸ hpos)
  rw [value_parentLength hm] at hle
  rw [value_parentLength hm, value_parentLength hm', Nat.add_assoc d] at hv
  rw [value_parentLength hm, ← Nat.add_assoc]
  refine (copies_leaf h .parentSelector Nat.one_pos hlo (by omega)).then fun parent => ?_
  refine (copies_choose_sees (by omega) (fun hs => ?_) fun hz => ?_).then fun suffix =>
    copies_pure (parent :: suffix)
  · exact (parentSuffixNode_copies h (by omega) (by omega) hs (by omega)).single
  · exact (copies_pure []).cast (by omega)

end

/-! ## Attribute selectors -/

section
variable (h : ts.Recurs snugWalls ts' d lo hi) (hlo : lo ≤ i) (hhi : i ≤ hi)
include h hlo hhi

theorem attributeNameNode_copies (wm : ts.WellMarked)
    (hpos : 0 < A.value (attributeNameLength i)) :
    Copies A B d s (attributeNameNode ts) (attributeNameNode ts') i
      (i + A.value (attributeNameLength i)) := by
  have hs : ts.Recurs softWalls ts' d lo hi := h.widen (by decide)
  have hspace := h.namespacePart (A := A) (B := B) hlo hhi
  have hend := hspace.le
  have hle := (attributeNameLength_agrees (A := A) (B := B) h hlo hhi).2
  have hname := (hs.ident (A := A) (B := B) (show lo ≤ i + A.len .namespacePart i by omega) hend).len
  refine Copies.branch h .attributeName (copies_lookOf hspace.len (copies_sees ?_ ?_)) hlo
    (by omega)
  · rw [A.value_lengthOf, B.value_lengthOf, Nat.add_assoc]
    exact hname
  · rw [A.value_lengthOf]
    rw [value_attributeNameLength] at hpos ⊢
    by_cases hn : 0 < A.len .namespacePart i ∧ 0 < A.len .ident (i + A.len .namespacePart i)
    · rw [if_pos hn, decide_eq_true hn.1, decide_eq_true hn.2, ← Nat.add_assoc]
      refine (namespacePartNode_copies hs hlo hhi wm hspace hn.1).single.then fun space => ?_
      exact (identNode_copies hs (by omega) hend hn.2).then fun name =>
        copies_pure (space ++ [name])
    · rw [if_neg hn] at hpos ⊢
      have hboth : (decide (0 < A.len .namespacePart i) &&
          decide (0 < A.len .ident (i + A.len .namespacePart i))) = false := by
        rw [Bool.eq_false_iff]
        intro hb
        exact hn (by simpa using hb)
      rw [hboth]
      refine (copies_pure []).then fun space => ?_
      exact (identNode_copies hs hlo hhi hpos).then fun name => copies_pure (space ++ [name])

theorem comparatorNode_copies (hpos : 0 < comparatorLength ts i) :
    Copies A B d s (comparatorNode ts) (comparatorNode ts') i (i + comparatorLength ts i) := by
  obtain ⟨hv, hle⟩ := comparatorLength_agrees h hlo hhi
  refine copies_cursor ?_
  rw [hv]
  exact copies_leaf h .attributeMatch hpos hlo hle

theorem attributeValueNode_copies (hpos : 0 < A.value (attributeValueLength ts i)) :
    Copies A B d s (attributeValueNode ts) (attributeValueNode ts') i
      (i + A.value (attributeValueLength ts i)) := by
  have hs : ts.Recurs softWalls ts' d lo hi := h.widen (by decide)
  have hle := (attributeValueLength_agrees (A := A) (B := B) hs hlo hhi).2
  refine Copies.branch h .attributeValue (Copies.single ?_) hlo (by omega)
  rw [attributeValueLength, A.value_orElse, A.value_lengthOf] at hpos hle ⊢
  refine copies_choose_sees ?_ (fun hstring => ?_) fun hz => ?_
  · rw [stringLength, stringLength, value_tokenLength, value_tokenLength,
      hs.isAny_eq (by decide) hlo hhi]
  · have hone : A.value (stringLength ts i) = 1 := by
      rw [stringLength, value_tokenLength] at hstring ⊢
      exact Nat.le_antisymm (Bool.toNat_le _) hstring
    rw [hone, if_neg Nat.one_ne_zero] at hle ⊢
    exact copies_leaf h .string Nat.one_pos hlo hle
  · rw [if_pos hz] at hpos ⊢
    exact identNode_copies hs hlo hhi hpos

variable (wm : ts.WellMarked) (wm' : ts'.WellMarked)
include wm wm'

theorem flags_copies :
    Copies A B d s (optionally (starts .ident) (attributeFlagsNodes ts))
      (optionally (starts .ident) (attributeFlagsNodes ts')) i
      (i + A.len .ident i + A.value (flagSpacing i (A.len .ident i))) := by
  have hs : ts.Recurs softWalls ts' d lo hi := h.widen (by decide)
  have hname := hs.ident (A := A) (B := B) hlo hhi
  have hle := hname.le
  unfold flagSpacing
  refine copies_choose_starts hname.len (fun hpos => ?_) fun hz => ?_
  · rw [if_neg (by omega), A.value_lengthOf]
    refine ((identNode_copies hs hlo hhi hpos).single.branch h .attributeFlags hlo
      (by omega)).then fun flags => ?_
    exact (spacingNodes_copies h wm wm' (by omega) hle).then fun after => copies_pure (flags :: after)
  · rw [if_pos hz, hz]
    exact copies_pure []

theorem comparisonNodes_copies (hc : Comparison A i j) :
    Copies A B d s (comparisonNodes ts) (comparisonNodes ts') i j := by
  obtain ⟨hcmp, e, rfl, hval, f, g, rfl, rfl, rfl⟩ := hc
  have hcmple := (comparatorLength_agrees h hlo hhi).2
  have hbefore := (h.spacing (A := A) (B := B) wm wm' (by omega) hcmple).le
  have hvalle := (attributeValueLength_agrees (A := A) (B := B) (h.widen (by decide)) (by omega)
    hbefore).2
  have hafter := (h.spacing (A := A) (B := B) wm wm' (by omega) hvalle).le
  refine (comparatorNode_copies h hlo hhi hcmp).then fun comparator => ?_
  refine (spacingNodes_copies h wm wm' (by omega) hcmple).then fun before => ?_
  refine (attributeValueNode_copies h (by omega) hbefore hval).then fun value => ?_
  refine (spacingNodes_copies h wm wm' (by omega) hvalle).then fun after => ?_
  refine (flags_copies h (by omega) hafter wm wm').then fun flags => ?_
  exact copies_pure (comparator :: before ++ value :: after ++ flags)

end

/-- An attribute selector needs nothing behind its bracket. -/
theorem attributeSelectorNode_copies (h : ts.Recurs walls ts' d lo hi) (wm : ts.WellMarked)
    (wm' : ts'.WellMarked) (hlo : lo ≤ i) (hfound : A.Agrees B d hi .attributeSelector i)
    (hpos : 0 < A.len .attributeSelector i) :
    Copies A B d s (attributeSelectorNode ts) (attributeSelectorNode ts') i
      (i + A.len .attributeSelector i) := by
  have hle := hfound.le
  obtain ⟨m, ht, hlen⟩ := A.exists_of_len hpos
  obtain ⟨hopen, a, b, ha, hname, hb, hcases⟩ := attributeSelector_cases (A.value_of_tell wm rfl ht)
  refine Copies.branch h .attributeSelector (copies_ask hfound.tell (copies_skip ?_)) hlo (by omega)
  rw [ht]
  -- the window up to the bracket
  obtain ⟨e, hie, hclose, hend⟩ : ∃ e, i < e ∧ ts.is e .rightSquare = true ∧
      i + m.length = e + 1 := by
    rcases hcases with ⟨_, hclose, hend⟩ | ⟨_, j, _, hclose, hend⟩
    · exact ⟨_, by omega, hclose, hend⟩
    · refine ⟨j, Nat.lt_of_le_of_ne ?_ fun he => ?_, hclose, hend⟩
      · have := m.length_pos
        omega
      · rw [← he] at hclose
        cases eq_of_is hopen hclose
  have hs : ts.Recurs snugWalls ts' d (i + 1) e :=
    h.upTo (by omega) hie (by omega) hclose (by decide)
  have hbefore := (hs.spacing (A := A) (B := B) wm wm' (Nat.le_refl _) hie).le
  rw [← ha] at hbefore
  have hnamele := (attributeNameLength_agrees (A := A) (B := B) hs (by omega) hbefore).2
  rw [← hb] at hnamele
  have hafter := (hs.spacing (A := A) (B := B) wm wm' (by omega) hnamele).le
  refine (spacingNodes_copies hs wm wm' (Nat.le_refl _) hie).then fun before => ?_
  rw [← ha]
  refine (attributeNameNode_copies hs (by omega) hbefore wm hname).then fun name => ?_
  rw [← hb]
  refine (spacingNodes_copies hs wm wm' (by omega) hnamele).then fun after => ?_
  rcases hcases with ⟨hshape, _, hend'⟩ | ⟨hshape, j, hcomp, _, hend'⟩
  · simp only [Answer.shape?, Option.map_some, hshape]
    refine (copies_pure []).then fun rest => copies_skip ?_
    exact (copies_pure (before ++ name :: after ++ rest)).cast (by omega)
  · simp only [Answer.shape?, Option.map_some, hshape]
    refine (comparisonNodes_copies hs (by omega) hafter wm wm' hcomp).then fun rest =>
      copies_skip ?_
    exact (copies_pure (before ++ name :: after ++ rest)).cast (by omega)

/-! ## Pseudo-elements and pseudo-classes -/

theorem pseudoElementNode_copies (h : ts.Recurs softWalls ts' d lo hi) (wm : ts.WellMarked)
    (hlo : lo ≤ i) (hhi : i ≤ hi) (hpos : 0 < A.value (pseudoElementLength ts i)) :
    Copies A B d s (pseudoElementNode ts) (pseudoElementNode ts') i
      (i + A.value (pseudoElementLength ts i)) := by
  have hle := (pseudoElementLength_agrees (A := A) (B := B) h hlo hhi).2
  obtain ⟨_, _, m, hm, hlen⟩ := pseudoElement_cases hpos
  refine Copies.branch h .pseudoElement (copies_skip ?_) hlo (by omega)
  exact (anyNameNode_copies h (by omega) (by omega) wm hm).single.cast (by omega)

section
variable (hp : ts.Parenthesized ts' d o c) (wm : ts.WellMarked) (wm' : ts'.WellMarked)
include hp wm wm'

theorem nthNodes_copies (hc : ts.isAny c spacingKinds = false) (hform : Formula ts (o + 1) c) :
    Copies A B d s (nthNodes ts c) (nthNodes ts' (d + c)) (o + 1) c := by
  have h := hp.inside
  have hs : ts.Recurs snugWalls ts' d (o + 1) c := h.widen (by decide)
  refine copies_collectTo (formula_trail wm A hc hform hp.lt) fun k l hlo hl hround => ?_
  obtain ⟨hlt, _, hl⟩ := hround
  have hspace := hs.spacing (A := A) (B := B) wm wm' hlo (Nat.le_of_lt hlt)
  refine copies_cursor (copies_choose_starts hspace.len (fun hpos => ?_) fun hz => ?_)
  · exact (spacingNodes_copies hs wm wm' hlo (Nat.le_of_lt hlt)).cast (by omega)
  · have hleaf : ∀ kind, Copies A B d s (leaf ts kind 1) (leaf ts' kind 1) k l := fun kind =>
      (copies_leaf h kind Nat.one_pos hlo hlt).cast (by omega)
    rw [h.isAny_eq (by decide) hlo (Nat.le_of_lt hlt), h.is_eq (by decide) hlo (Nat.le_of_lt hlt)]
    split
    · exact (hleaf .unary).single
    · split
      · exact (hleaf .number).single
      · exact (hleaf .ident).single

theorem spacedIdentNodes_copies (hj : j = o + 1 + A.len .spacing (o + 1))
    (hpos : 0 < A.len .ident j) :
    Copies A B d s (spacedIdentNodes ts) (spacedIdentNodes ts') (o + 1)
      (j + A.len .ident j + A.len .spacing (j + A.len .ident j)) := by
  have hs : ts.Recurs snugWalls ts' d (o + 1) c := hp.inside.widen (by decide)
  have hsoft : ts.Recurs softWalls ts' d (o + 1) c := hp.inside.widen (by decide)
  have hbefore := (hs.spacing (A := A) (B := B) wm wm' (Nat.le_refl _) hp.lt).le
  rw [← hj] at hbefore
  have hname := (hsoft.ident (A := A) (B := B) (show o + 1 ≤ j by omega) hbefore).le
  refine (spacingNodes_copies hs wm wm' (Nat.le_refl _) hp.lt).then fun before => ?_
  rw [← hj]
  refine (identNode_copies hsoft (by omega) hbefore hpos).then fun name => ?_
  refine (spacingNodes_copies hs wm wm' (by omega) hname).then fun after => ?_
  exact copies_pure (before ++ [name] ++ after)

end

/-- What stands in the parentheses from `o` to `c` is built alike: in the same parentheses, and if
it is selectors, from the same nodes. -/
structure Reading.EntersAlike (A : Reading ts false) (ts' : Tokens) (d o c : Nat) : Prop where
  parens : ts.Parenthesized ts' d o c
  selectors : Arguments A .selectors o c → ∃ ns, Interior.selectors.meaning ts (o + 1) = .ok (ns, c) ∧
    Interior.selectors.meaning ts' (d + (o + 1)) = .ok (ns, d + c)

theorem pseudoArgumentsNode_copies (h : ts.Recurs walls ts' d lo hi) (wm : ts.WellMarked)
    (wm' : ts'.WellMarked) (hlo : lo ≤ o) (hchi : c < hi) (hso : s ≤ o)
    (hin : A.EntersAlike ts' d o c) {shape : PseudoShape} (hargs : Arguments A shape o c) :
    Copies A B d s (pseudoArgumentsNode ts shape) (pseudoArgumentsNode ts' shape) o (c + 1) := by
  have hp := hin.parens
  have hoc := hp.lt
  have hsize := h.le_size
  have hsize' := h.lt_size (show lo ≤ c by omega) hchi
  refine Copies.branch h .arguments (copies_cursor (copies_skip ?_)) hlo (by omega)
  rw [hp.closer, hp.closer']
  have hcontent : Copies A B d s (pseudoArgumentNodes ts shape c)
      (pseudoArgumentNodes ts' shape (d + c)) (o + 1) c := by
    cases shape with
    | bare => exact hargs.elim
    | formula => exact nthNodes_copies hp wm wm' hargs.1 hargs.2
    | multiple => exact nthNodes_copies hp wm wm' hargs.1 hargs.2
    | offset => exact nthNodes_copies hp wm wm' hargs.1 hargs.2
    | selectors =>
      obtain ⟨ns, hns, hns'⟩ := hin.selectors hargs
      exact copies_enter hns hns' (by omega) (by omega) (by omega)
    | ident =>
      obtain ⟨j, hj, hpos, hend⟩ := hargs
      exact (spacedIdentNodes_copies hp wm wm' hj hpos).cast hend
  exact hcontent.then fun content => copies_skip (copies_pure content)

theorem pseudoClassNode_copies (h : ts.Recurs softWalls ts' d lo hi) (wm : ts.WellMarked)
    (wm' : ts'.WellMarked) (hlo : lo ≤ i) (hsi : s ≤ i)
    (hin : ∀ o c, i < o → ts.closer? o .leftParen = some c → c < hi → A.EntersAlike ts' d o c)
    (hfound : A.Agrees B d hi .pseudoClass i) (hpos : 0 < A.len .pseudoClass i) :
    Copies A B d s (pseudoClassNode ts) (pseudoClassNode ts') i (i + A.len .pseudoClass i) := by
  have hle := hfound.le
  obtain ⟨m, ht, hlen⟩ := A.exists_of_len hpos
  have hmpos := m.length_pos
  refine Copies.branch h .pseudoClass (copies_ask hfound.tell (copies_check (copies_skip ?_))) hlo
    (by omega)
  rw [ht]
  change Copies A B d s (if m.shape = .bare then single (anyNameNode ts)
      else do return [← identNode ts, ← pseudoArgumentsNode ts m.shape])
    (if m.shape = .bare then single (anyNameNode ts')
      else do return [← identNode ts', ← pseudoArgumentsNode ts' m.shape]) (i + 1) _
  rcases (pseudoClass_cases wm ht).2 with ⟨hs, n, hn, hl⟩ | ⟨_, c, hname, rfl, hc, hend, hargs⟩
  · rw [if_pos hs, if_pos hs]
    exact (anyNameNode_copies h (by omega) (by omega) wm hn).single.cast (by omega)
  · have hbare : m.shape ≠ .bare := by
      intro hb
      rw [hb] at hargs
      exact hargs
    rw [if_neg hbare, if_neg hbare]
    refine (identNode_copies h (by omega) (by omega) hname).then fun name => ?_
    have hc' := hin _ c (by omega) hc (by omega)
    refine (pseudoArgumentsNode_copies h wm wm' (by omega) (by omega) (by omega) hc' hargs).then
      fun arguments => ?_
    exact (copies_pure [name, arguments]).cast (by omega)

theorem pseudoNode_copies (h : ts.Recurs softWalls ts' d lo hi) (wm : ts.WellMarked)
    (wm' : ts'.WellMarked) (hlo : lo ≤ i) (hhi : i ≤ hi) (hsi : s ≤ i)
    (hin : ∀ o c, i < o → ts.closer? o .leftParen = some c → c < hi → A.EntersAlike ts' d o c)
    (hfound : A.Agrees B d hi .pseudoClass i) (hpos : 0 < A.value (pseudoLength ts i)) :
    Copies A B d s (pseudoNode ts) (pseudoNode ts') i (i + A.value (pseudoLength ts i)) := by
  rw [pseudoLength, A.value_orElse, A.value_lengthOf] at hpos ⊢
  refine copies_choose_sees (pseudoElementLength_agrees h hlo hhi).1 (fun hel => ?_) fun hz => ?_
  · rw [if_neg (show ¬ A.value (pseudoElementLength ts i) = 0 by omega)]
    exact pseudoElementNode_copies h wm hlo hhi hel
  · rw [if_pos hz] at hpos ⊢
    exact pseudoClassNode_copies h wm wm' hlo hsi hin hfound hpos

end LessCss
