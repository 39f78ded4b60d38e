import LessCss.Proofs.Build.Values

/-! Building the parts of a compound selector: type selectors and namespaces, the parent selector,
attribute selectors and pseudos. The arguments of a pseudo-class are read one level further inside;
what stands there is known only if no cap has refused to look. -/

namespace LessCss

open Lookahead Builder Grammar Tokens

variable {ts : Tokens} {capped : Bool} {A : Reading ts capped} {i j k : Nat}

/-! ## Type selectors and namespaces -/

/-- A name, or an asterisk that starts none. -/
def nameOrStar (ts : Tokens) (i : Nat) : Lookahead Nat :=
  lengthOf .ident i <|> tokenLength ts [.asterisk] i

theorem namespace_cases {m : Match NamespaceShape} (h : A.value (namespaceMatch ts i) = some m) :
    m.shape = .named ∧ 0 < A.value (nameOrStar ts i) ∧
        ts.is (i + A.value (nameOrStar ts i) +
          (ts.is (i + A.value (nameOrStar ts i)) .blockComment).toNat) .bar = true ∧
        i + m.length = i + A.value (nameOrStar ts i) +
          (ts.is (i + A.value (nameOrStar ts i)) .blockComment).toNat + 1 ∨
      m.shape = .barOnly ∧ ts.is i .bar = true ∧ m.length = 1 := by
  unfold namespaceMatch at h
  have hname : A.value (lengthOf .ident i <|> tokenLength ts [.asterisk] i) =
      A.value (nameOrStar ts i) := rfl
  rw [A.value_bind, hname] at h
  dsimp only at h
  split at h
  · next hn =>
    rw [A.value_bind, A.value_tokensBetween, A.value_pure] at h
    simp only [Bool.and_eq_true, decide_eq_true_eq] at hn
    obtain ⟨hpos, hbar⟩ := hn
    rw [Match.of?_pos (by omega)] at h
    cases h
    exact Or.inl ⟨rfl, hpos, hbar, by dsimp only; omega⟩
  · split at h
    · next hb =>
      rw [A.value_pure, Match.of?_pos Nat.one_pos] at h
      cases h
      exact Or.inr ⟨rfl, hb, rfl⟩
    · cases h

theorem namespaceNodes_gives (wm : ts.WellMarked) (hpos : 0 < A.value (nameOrStar ts i)) :
    GivesAll A (namespaceNodes ts) i (i + A.value (nameOrStar ts i) +
      (ts.is (i + A.value (nameOrStar ts i)) .blockComment).toNat) := by
  have hname : GivesAll A (single (choose (starts .ident) (identNode ts) (leaf ts .ident 1))) i
      (i + A.value (nameOrStar ts i)) := by
    rw [nameOrStar, A.value_orElse, A.value_lengthOf] at hpos ⊢
    refine (gives_choose_starts (fun hi => ?_) (fun hz => ?_)).single
    · rw [if_neg (by omega)]
      exact identNode_gives wm hi
    · rw [if_pos hz] at hpos ⊢
      exact gives_token (k := .ident) ⟨rfl, rfl⟩ hpos rfl
  intro E lo hc
  refine (hname.branch (k := .namespaceName) ⟨rfl, rfl⟩ (by omega)).then hc fun n hn hc => ?_
  refine runs_cursor.2 ?_
  refine (givesAll_given (fun hb => ?_) (fun hb => ?_)).then hc fun ns hns _ =>
    ⟨rfl, hn.single.append hns⟩
  · rw [hb]
    exact (blockCommentNode_gives hb).single
  · rw [hb]
    rfl

theorem namespacePartNode_gives (wm : ts.WellMarked) (h : 0 < A.len .namespacePart i) :
    Gives A (namespacePartNode ts) i (i + A.len .namespacePart i) := by
  obtain ⟨m, ht, hlen⟩ := A.exists_of_len h
  have hbody := A.value_of_tell wm rfl ht
  rw [← hlen] at h ⊢
  refine GivesAll.branch (k := .namespacePart) (fun E lo hc => runs_ask.2 ?_) ⟨rfl, rfl⟩ (by omega)
  rw [ht]
  rcases namespace_cases hbody with ⟨hs, hpos, hbar, hend⟩ | ⟨hs, hbar, hend⟩
  · simp only [Answer.shape?, Option.map_some, hs]
    refine (namespaceNodes_gives wm hpos).then hc fun ns hns hc => ?_
    rw [hend]
    refine (gives_mark (k := .namespaceSeparator) ⟨rfl, rfl⟩ hbar rfl).then hc fun n hn _ => ?_
    exact ⟨rfl, hns.append hn.single⟩
  · simp only [Answer.shape?, Option.map_some, hs]
    rw [hend]
    refine givesAll_nil.then hc fun ns hns hc => ?_
    refine (gives_mark (k := .namespaceSeparator) ⟨rfl, rfl⟩ hbar rfl).then hc fun n hn _ => ?_
    exact ⟨rfl, hns.append hn.single⟩

theorem typeSelector_cases (h : 0 < A.value (typeSelectorLength ts i)) :
    ts.is (i + A.len .namespacePart i) .asterisk = true ∧
        A.value (typeSelectorLength ts i) = A.len .namespacePart i + 1 ∨
      ts.is (i + A.len .namespacePart i) .asterisk = false ∧
        0 < A.len .ident (i + A.len .namespacePart i) ∧
        A.value (typeSelectorLength ts i) =
          A.len .ident (i + A.len .namespacePart i) + A.len .namespacePart i := by
  unfold typeSelectorLength at h ⊢
  rw [A.value_bind, A.value_lengthOf] at h ⊢
  split at h
  · next hs =>
    rw [if_pos hs]
    exact Or.inl ⟨hs, rfl⟩
  · next hs =>
    rw [if_neg hs]
    rw [A.value_bind, A.value_lengthOf, A.value_pure] at h ⊢
    obtain ⟨hpos, hlen⟩ := lengthen_pos h
    exact Or.inr ⟨by simpa using hs, hpos, hlen⟩

theorem typeSelectorNode_gives (wm : ts.WellMarked) (h : 0 < A.value (typeSelectorLength ts i)) :
    Gives A (typeSelectorNode ts) i (i + A.value (typeSelectorLength ts i)) := by
  refine GivesAll.branch (k := .typeSelector) (fun E lo hc => ?_) ⟨rfl, rfl⟩ (by omega)
  refine (givesAll_optionally fun hn => (namespacePartNode_gives wm hn).single).then hc
    fun ns hns hc => runs_bind.2 (runs_cursor.2 ?_)
  rcases typeSelector_cases h with ⟨hs, hlen⟩ | ⟨hs, hpos, hlen⟩
  · rw [hs, hlen, ← Nat.add_assoc]
    exact runs_bind.1 ((gives_mark (k := .ident) ⟨rfl, rfl⟩ hs rfl).then hc fun n hn _ =>
      ⟨rfl, hns.append hn.single⟩)
  · rw [hs, hlen, Nat.add_comm (A.len .ident _), ← Nat.add_assoc]
    exact runs_bind.1 ((identNode_gives wm hpos).then hc fun n hn _ => ⟨rfl, hns.append hn.single⟩)

/-! ## The parent selector -/

theorem parentSuffix_end (h : 0 < A.value (parentSuffixLength ts i)) :
    i + A.value (parentSuffixLength ts i) = A.value (walkWhile ts.size
      (fun j => lengthOf .number j <|> lengthOf .ident j) i) := by
  rw [parentSuffixLength, A.value_bind, A.value_tokensBetween] at h ⊢
  omega

theorem parentSuffixNode_gives (wm : ts.WellMarked) (h : 0 < A.value (parentSuffixLength ts i)) :
    Gives A (parentSuffixNode ts) i (i + A.value (parentSuffixLength ts i)) := by
  refine GivesAll.branch (k := .parentSuffix) ?_ ⟨rfl, rfl⟩ (by omega)
  rw [parentSuffix_end h]
  refine givesAll_collectWhile fun j => ?_
  rw [A.value_orElse, A.value_lengthOf, A.value_lengthOf]
  refine givesRound_choose (fun hn => (numberNode_gives wm hn).round hn) ?_
  exact givesRound_starts fun hi => (identNode_gives wm hi).round hi

theorem value_parentLength (h : ts.is i .ampersand = true) :
    A.value (parentLength ts i) = 1 + A.value (parentSuffixLength ts (i + 1)) := by
  rw [parentLength, if_pos h, A.value_bind, A.value_pure]

theorem parent_head (h : 0 < A.value (parentLength ts i)) : ts.is i .ampersand = true := by
  unfold parentLength at h
  split at h
  · next hm => exact hm
  · cases h

theorem parentNodes_gives (wm : ts.WellMarked) (h : 0 < A.value (parentLength ts i)) :
    GivesAll A (parentNodes ts) i (i + A.value (parentLength ts i)) := by
  have hm := parent_head h
  rw [value_parentLength hm, ← Nat.add_assoc]
  intro E lo hc
  refine (gives_mark (k := .parentSelector) ⟨rfl, rfl⟩ hm rfl).then hc fun n hn hc => ?_
  refine (givesAll_choose_sees (parentSuffixLength_measures (Scope.top_open (by decide) _))
    (fun hs => (parentSuffixNode_gives wm hs).single) (fun hz => ?_)).then hc fun ns hns _ =>
    ⟨rfl, hn.single.append hns⟩
  rw [hz]
  exact givesAll_nil

/-! ## Attribute selectors -/

theorem value_attributeNameLength (i : Nat) : A.value (attributeNameLength i) =
    if 0 < A.len .namespacePart i ∧ 0 < A.len .ident (i + A.len .namespacePart i) then
      A.len .namespacePart i + A.len .ident (i + A.len .namespacePart i)
    else A.len .ident i := by
  unfold attributeNameLength
  rw [A.value_bind, A.value_lengthOf]
  split
  · next hz => rw [if_neg (by omega), A.value_lengthOf]
  · next hn =>
    rw [A.value_bind, A.value_lengthOf]
    split
    · next hz => rw [if_neg (by omega), A.value_lengthOf]
    · next hm =>
      rw [if_pos ⟨Nat.pos_of_ne_zero hn, Nat.pos_of_ne_zero hm⟩, A.value_pure]

theorem attributeNameNode_gives (wm : ts.WellMarked) (h : 0 < A.value (attributeNameLength i)) :
    Gives A (attributeNameNode ts) i (i + A.value (attributeNameLength i)) := by
  refine GivesAll.branch (k := .attributeName) (fun E lo hc => ?_) ⟨rfl, rfl⟩ (by omega)
  refine runs_look.2 ⟨⟨_, lengthOf_top .namespacePart i⟩, ?_⟩
  refine runs_sees.2 ⟨⟨_, lengthOf_top .ident _⟩, ?_⟩
  rw [value_attributeNameLength] at h ⊢
  rw [A.value_lengthOf, A.value_lengthOf]
  by_cases hn : 0 < A.len .namespacePart i ∧ 0 < A.len .ident (i + A.len .namespacePart i)
  · rw [if_pos hn, decide_eq_true hn.1, decide_eq_true hn.2, ← Nat.add_assoc]
    refine (namespacePartNode_gives wm hn.1).single.then hc fun ns hns hc => ?_
    exact (identNode_gives wm hn.2).then hc fun n hn _ => ⟨rfl, hns.append hn.single⟩
  · rw [if_neg hn] at h ⊢
    have hboth : (decide (0 < A.len .namespacePart i) &&
        decide (0 < A.len .ident (i + A.len .namespacePart i))) = false := by
      rw [Bool.eq_false_iff]
      intro hb
      exact hn (by simpa using hb)
    rw [hboth]
    refine givesAll_nil.then hc fun ns hns hc => ?_
    exact (identNode_gives wm h).then hc fun n hn _ => ⟨rfl, hns.append hn.single⟩

theorem attributeValueNode_gives (wm : ts.WellMarked) (h : 0 < A.value (attributeValueLength ts i)) :
    Gives A (attributeValueNode ts) i (i + A.value (attributeValueLength ts i)) := by
  refine GivesAll.branch (k := .attributeValue) ?_ ⟨rfl, rfl⟩ (by omega)
  rw [attributeValueLength, A.value_orElse, A.value_lengthOf] at h ⊢
  refine (gives_choose_sees (tokenLength_measures _) (fun hs => ?_) (fun hz => ?_)).single
  · have hs' : ¬ A.value (stringLength ts i) = 0 := by
      change 0 < A.value (stringLength ts i) at hs
      omega
    rw [if_neg hs']
    exact gives_token (k := .string) ⟨rfl, rfl⟩ hs rfl
  · have hz' : A.value (stringLength ts i) = 0 := hz
    rw [if_pos hz'] at h ⊢
    exact identNode_gives wm h

theorem flags_give (wm : ts.WellMarked) (A : Reading ts capped) (i : Nat) :
    GivesAll A (optionally (starts .ident) (attributeFlagsNodes ts)) i
      (i + A.len .ident i + A.value (flagSpacing i (A.len .ident i))) := by
  unfold flagSpacing
  refine givesAll_choose_starts (fun hf => ?_) (fun hz => ?_)
  · rw [if_neg (by omega), A.value_lengthOf]
    intro E lo hc
    refine ((identNode_gives wm hf).single.branch (k := .attributeFlags) ⟨rfl, rfl⟩ (by omega)).then hc
      fun n hn hc => ?_
    exact (spacingNodes_gives wm A _).then hc fun ns hns _ => ⟨rfl, hn.single.append hns⟩
  · rw [if_pos hz, hz]
    exact givesAll_nil

theorem comparator_balanced (ts : Tokens) (i : Nat) : ts.Balanced i (i + comparatorLength ts i) := by
  unfold comparatorLength
  split
  · next h =>
    obtain ⟨hfirst, hequals⟩ := Bool.and_eq_true_iff.1 h
    exact (balanced_isAny hfirst (by decide)).trans (by omega) (by omega) (balanced_token hequals rfl)
  · cases h : ts.is i .equals with
    | true => exact balanced_token h rfl
    | false => exact balanced_self ts i

/-- The token behind the comparator of an attribute selector, the value it compares with and the
flags, with the spacing between and behind them. -/
structure Comparison (A : Reading ts capped) (i j : Nat) : Prop where
  comparator : 0 < comparatorLength ts i
  value : ∃ e, e = i + comparatorLength ts i + A.len .spacing (i + comparatorLength ts i) ∧
    0 < A.value (attributeValueLength ts e) ∧
    ∃ f g, f = e + A.value (attributeValueLength ts e) ∧ g = f + A.len .spacing f ∧
      j = g + A.len .ident g + A.value (flagSpacing g (A.len .ident g))

theorem comparisonNodes_gives (wm : ts.WellMarked) (h : Comparison A i j) :
    GivesAll A (comparisonNodes ts) i j := by
  obtain ⟨hcmp, e, rfl, hval, f, g, rfl, rfl, rfl⟩ := h
  intro E lo hc
  refine runs_bind.2 (runs_cursor.2 (runs_bind.1 ?_))
  refine (gives_leaf (k := .attributeMatch) ⟨rfl, rfl⟩ hcmp
    (Or.inr fun _ => comparator_balanced ts i)).then hc fun cmp hcmp hc => ?_
  refine (spacingNodes_gives wm A _).then hc fun before hbefore hc => ?_
  refine (attributeValueNode_gives wm hval).then hc fun value hvalue hc => ?_
  refine (spacingNodes_gives wm A _).then hc fun after hafter hc => ?_
  refine (flags_give wm A _).then hc fun flags hflags _ => ?_
  have hvalue' := hvalue.single.append (hafter.append hflags)
  exact ⟨rfl, by simpa using hcmp.single.append (hbefore.append hvalue')⟩

theorem attributeSelector_cases {m : Match AttributeShape}
    (h : A.value (attributeSelectorMatch ts i) = some m) :
    ts.is i .leftSquare = true ∧ ∃ a b, a = i + 1 + A.len .spacing (i + 1) ∧
      0 < A.value (attributeNameLength a) ∧ b = a + A.value (attributeNameLength a) ∧
      (m.shape = .nameOnly ∧ ts.is (b + A.len .spacing b) .rightSquare = true ∧
          i + m.length = b + A.len .spacing b + 1 ∨
        m.shape = .compared ∧ ∃ j, Comparison A (b + A.len .spacing b) j ∧
          ts.is j .rightSquare = true ∧ i + m.length = j + 1) := by
  unfold attributeSelectorMatch at h
  split at h
  · cases h
  next hm =>
  rw [A.value_bind, A.value_lengthOf, A.value_bind] at h
  dsimp only at h
  split at h
  · cases h
  next hname =>
  refine ⟨by simpa using hm, _, _, rfl, by omega, rfl, ?_⟩
  rw [A.value_bind, A.value_lengthOf] at h
  split at h
  · next hr =>
    rw [A.value_bind, A.value_tokensBetween, A.value_pure, Match.of?_pos (by omega)] at h
    cases h
    exact Or.inl ⟨rfl, hr, by dsimp only; omega⟩
  split at h
  · cases h
  next hcmp =>
  rw [A.value_bind, A.value_lengthOf, A.value_bind] at h
  split at h
  · cases h
  next hval =>
  rw [A.value_bind, A.value_lengthOf, A.value_bind, A.value_lengthOf, A.value_bind] at h
  split at h
  · next hr =>
    rw [A.value_bind, A.value_tokensBetween, A.value_pure, Match.of?_pos (by omega)] at h
    cases h
    refine Or.inr ⟨rfl, _, ⟨by omega, _, rfl, by omega, _, _, rfl, rfl, rfl⟩, hr, ?_⟩
    dsimp only
    omega
  · cases h

theorem attributeSelectorNode_gives (wm : ts.WellMarked) (h : 0 < A.len .attributeSelector i) :
    Gives A (attributeSelectorNode ts) i (i + A.len .attributeSelector i) := by
  obtain ⟨m, ht, hlen⟩ := A.exists_of_len h
  have hbody := A.value_of_tell wm rfl ht
  obtain ⟨hopen, a, b, rfl, hname, rfl, hcases⟩ := attributeSelector_cases hbody
  have hpos := m.length_pos
  rw [← hlen]
  refine gives_branch (by omega) fun E lo hc => runs_ask.2 (runs_skip.2 ?_)
  rw [ht]
  refine (spacingNodes_gives wm A (i + 1)).then (hc.mono (by omega)) fun before hbefore hc => ?_
  refine (attributeNameNode_gives wm hname).then hc fun name hn hc => ?_
  refine (spacingNodes_gives wm A _).then hc fun after hafter hc => ?_
  have hlead := hbefore.append (hn.single.append hafter)
  rcases hcases with ⟨hs, hclose, hend⟩ | ⟨hs, j, hcomp, hclose, hend⟩
  · simp only [Answer.shape?, Option.map_some, hs]
    refine givesAll_nil.then hc fun rest hrest _ => runs_skip.2 ?_
    exact ⟨hend.symm, i + 1, _, ⟨hopen, rfl, hclose, hend⟩, by simpa using hlead.append hrest⟩
  · simp only [Answer.shape?, Option.map_some, hs]
    refine (comparisonNodes_gives wm hcomp).then hc fun rest hrest _ => runs_skip.2 ?_
    exact ⟨hend.symm, i + 1, j, ⟨hopen, rfl, hclose, hend⟩, by simpa using hlead.append hrest⟩

/-! ## Pseudo-elements and pseudo-classes -/

theorem pseudoElement_cases (h : 0 < A.value (pseudoElementLength ts i)) :
    ts.is i .colon = true ∧ ts.is (i + 1) .colon = true ∧
      ∃ m, A.value (nameMatch (i + 2)) = some m ∧
        A.value (pseudoElementLength ts i) = m.length + 2 := by
  unfold pseudoElementLength at h ⊢
  split at h
  · next hm =>
    rw [if_pos hm]
    rw [A.value_bind, A.value_pure] at h ⊢
    cases hn : A.value (nameMatch (i + 2)) with
    | none =>
      rw [hn] at h
      cases h
    | some m =>
      obtain ⟨hfirst, hsecond⟩ := Bool.and_eq_true_iff.1 hm
      exact ⟨hfirst, hsecond, m, rfl, rfl⟩
  · cases h

theorem pseudoElementNode_gives (wm : ts.WellMarked) (h : 0 < A.value (pseudoElementLength ts i)) :
    Gives A (pseudoElementNode ts) i (i + A.value (pseudoElementLength ts i)) := by
  obtain ⟨hfirst, hsecond, m, hm, hlen⟩ := pseudoElement_cases h
  have hpos := m.length_pos
  refine gives_branch (by omega) fun E lo hc => runs_skip.2 ?_
  refine ((anyNameNode_gives wm hm).single E lo (hc.mono (by omega))).mono fun ns l hns => ?_
  obtain ⟨rfl, htiles⟩ := hns
  exact ⟨by omega, i + 2, _, ⟨hfirst, ⟨hsecond, rfl, by omega⟩, by omega⟩, htiles⟩

theorem closedAt_cases {tell inner : Answers} (h : 0 < (closedAt ts i j).result tell inner) :
    ts.closer? i .leftParen = some j := by
  unfold closedAt at h
  split at h
  · next c hc =>
    split at h
    · next he => rw [hc, he]
    · cases h
  · cases h

/-- The tokens from `i` up to `j` are those of a formula: spacing, signs, digits and the letter. -/
def Formula (ts : Tokens) (i j : Nat) : Prop :=
  ∀ m, i ≤ m → m < j → ts.isAny m (spacingKinds ++ [.plus, .minus, .digits]) = true ∨ ts.text m = "n"

theorem Formula.trans (h : Formula ts i j) (h' : Formula ts j k) : Formula ts i k := by
  intro m him hmk
  rcases Nat.lt_or_ge m j with hm | hm
  · exact h m him hm
  · exact h' m hm hmk

theorem formula_spacing (wm : ts.WellMarked) (A : Reading ts capped) (i : Nat) :
    Formula ts i (i + A.len .spacing i) := by
  intro m him hm
  rw [len_spacing wm A i] at hm
  obtain ⟨k, hk, he⟩ := isAny_iff.1 (isAny_of_lt_spanEnd him hm)
  exact Or.inl (isAny_iff.2 ⟨k, List.mem_append_left _ hk, he⟩)

theorem formula_token (ks : List Token.Kind) (hks : ks ⊆ [.plus, .minus, .digits])
    (h : ts.isAny i ks = true) : Formula ts i (i + 1) := by
  intro m him hm
  obtain ⟨k, hk, he⟩ := isAny_iff.1 h
  have hmi : m = i := by omega
  exact Or.inl (isAny_iff.2 ⟨k, List.mem_append_right _ (hks hk), hmi ▸ he⟩)

theorem formula_digits (h : ts.is i .digits = true) : Formula ts i (i + 1) :=
  formula_token [.digits] (by decide) (isAny_iff.2 ⟨_, List.mem_singleton_self _, is_iff.1 h⟩)

/-- A sign, if there is one. -/
theorem formula_toNat (ks : List Token.Kind) (hks : ks ⊆ [.plus, .minus, .digits]) (i : Nat) :
    Formula ts i (i + (ts.isAny i ks).toNat) := by
  cases h : ts.isAny i ks with
  | false => exact fun m him hm => absurd hm (Nat.not_lt_of_le him)
  | true => exact formula_token ks hks h

/-- A formula holds no brackets. -/
theorem Formula.balanced (h : Formula ts i j) (hk : i ≤ k) (hkj : k < j) (hs : ts.Spelled) :
    ts.Balanced k (k + 1) := by
  rcases h k hk hkj with hkind | htext
  · exact balanced_isAny hkind (by decide)
  · exact hs.balanced htext (by decide) (by decide)

theorem formula_letter (h : ts.text i = "n") : Formula ts i (i + 1) := by
  intro m him hm
  have hmi : m = i := by omega
  exact Or.inr (hmi ▸ h)

/-- What is known of the arguments of a pseudo-class between an opener and its closer. -/
def Arguments (A : Reading ts capped) (shape : PseudoShape) (opener close : Nat) : Prop :=
  match shape with
  | .selectors =>
    0 < A.len .selectorGroup (opener + 1) ∧
      opener + 1 + A.len .selectorGroup (opener + 1) = close
  | .ident => ∃ j, j = opener + 1 + A.len .spacing (opener + 1) ∧ 0 < A.len .ident j ∧
      j + A.len .ident j + A.len .spacing (j + A.len .ident j) = close
  | .formula | .multiple | .offset =>
    ts.isAny close spacingKinds = false ∧ Formula ts (opener + 1) close
  | .bare => False

/-- A closer that is found behind spacing is not spacing itself, and what stands before it has been
read. -/
theorem formula_of_closedAt (wm : ts.WellMarked) {inner : Answers}
    (hc : ts.closer? i .leftParen = some j) (hk : Formula ts (i + 1) k)
    (h : 0 < (closedAt ts i (k + A.len .spacing k)).result A.tell inner) :
    ts.isAny j spacingKinds = false ∧ Formula ts (i + 1) j := by
  have hj := Option.some.inj ((closedAt_cases h).symm.trans hc)
  rw [← hj]
  exact ⟨not_spacing_end wm A k, hk.trans (formula_spacing wm A k)⟩

theorem nthMultiplier_cases (wm : ts.WellMarked) {inner : Answers}
    (h : (nthMultiplier ts i).result A.tell inner = some j) : Formula ts i j := by
  unfold nthMultiplier at h
  rw [result_bind, result_lengthOf, A.len_eq, result_pure] at h
  split at h
  · next ht =>
    cases h
    have hsign := (formula_spacing wm A i).trans (formula_toNat [.minus, .plus] (by decide) _)
    have hletter := formula_letter (by simpa using ht)
    cases hd : ts.is (i + A.len .spacing i +
        (ts.isAny (i + A.len .spacing i) [.minus, .plus]).toNat) .digits with
    | true =>
      rw [hd] at hletter
      exact (hsign.trans (formula_digits hd)).trans hletter
    | false =>
      rw [hd] at hletter
      exact hsign.trans hletter
  · cases h

theorem nthFormula_arguments (wm : ts.WellMarked) {inner : Answers}
    (hc : ts.closer? i .leftParen = some j)
    (h : 0 < (nthFormulaLength ts i).result A.tell inner) : Arguments A .formula i j := by
  unfold nthFormulaLength at h
  rw [result_bind] at h
  split at h
  · cases h
  next k hk =>
  have hmultiple := nthMultiplier_cases wm hk
  rw [result_bind, result_lengthOf, A.len_eq] at h
  dsimp only at h
  split at h
  · cases h
  next hsign =>
  rw [result_bind, result_lengthOf, A.len_eq] at h
  split at h
  · cases h
  next hdigits =>
  rw [result_bind, result_lengthOf, A.len_eq] at h
  have hsign' := formula_token [.plus, .minus] (by decide) (by simpa using hsign)
  have hdigits' := formula_digits (by simpa using hdigits)
  refine formula_of_closedAt wm hc ?_ h
  exact (((hmultiple.trans (formula_spacing wm A k)).trans hsign').trans
    (formula_spacing wm A _)).trans hdigits'

theorem nthMultiple_arguments (wm : ts.WellMarked) {inner : Answers}
    (hc : ts.closer? i .leftParen = some j)
    (h : 0 < (nthMultipleLength ts i).result A.tell inner) : Arguments A .multiple i j := by
  unfold nthMultipleLength at h
  rw [result_bind] at h
  split at h
  · cases h
  next k hk =>
  rw [result_bind, result_lengthOf, A.len_eq] at h
  exact formula_of_closedAt wm hc (nthMultiplier_cases wm hk) h

theorem nthOffset_arguments (wm : ts.WellMarked) {inner : Answers}
    (hc : ts.closer? i .leftParen = some j)
    (h : 0 < (nthOffsetLength ts i).result A.tell inner) : Arguments A .offset i j := by
  unfold nthOffsetLength at h
  rw [result_bind, result_lengthOf, A.len_eq] at h
  dsimp only at h
  split at h
  · next hdigits =>
    rw [result_bind, result_lengthOf, A.len_eq] at h
    refine formula_of_closedAt wm hc ?_ h
    exact ((formula_spacing wm A _).trans (formula_toNat _ (by decide) _)).trans
      (formula_digits hdigits)
  · cases h

theorem pseudoSelectors_arguments {inner : Answers} (hinner : Inner capped A.tell inner)
    (hc : ts.closer? i .leftParen = some j)
    (h : 0 < (pseudoSelectorsLength ts i).result A.tell inner) : Arguments A .selectors i j := by
  unfold pseudoSelectorsLength at h
  rw [result_bind, result_lengthInside] at h
  rcases hinner with rfl | ⟨_, rfl⟩
  · rw [A.len_eq] at h
    split at h
    · cases h
    · next hn =>
      have hj := (closedAt_cases h).symm.trans hc
      exact ⟨Nat.pos_of_ne_zero hn, Option.some.inj hj⟩
  · cases h

theorem pseudoIdent_arguments {inner : Answers} (hc : ts.closer? i .leftParen = some j)
    (h : 0 < (pseudoIdentLength ts i).result A.tell inner) : Arguments A .ident i j := by
  unfold pseudoIdentLength at h
  rw [result_bind, result_lengthOf, result_bind, result_lengthOf, A.len_eq, A.len_eq] at h
  split at h
  · cases h
  · next hn =>
    rw [result_bind, result_lengthOf, A.len_eq] at h
    have hj := (closedAt_cases h).symm.trans hc
    exact ⟨_, rfl, Nat.pos_of_ne_zero hn, Option.some.inj hj⟩

theorem exists_of_pseudoForm {tell inner : Answers}
    {forms : List (PseudoShape × (Nat → Lookahead Nat))} {shape : PseudoShape}
    (h : (pseudoForm i j forms).result tell inner = some shape) :
    ∃ f ∈ forms, f.1 = shape ∧ (f.2 i).result tell inner = j + 1 - i := by
  induction forms with
  | nil => cases h
  | cons f rest ih =>
    obtain ⟨s, scan⟩ := f
    unfold pseudoForm at h
    rw [result_bind, result_bind, result_tokensBetween] at h
    split at h
    · next hs =>
      rw [result_pure] at h
      exact ⟨_, List.mem_cons_self .., Option.some.inj h, hs⟩
    · obtain ⟨f, hf, he⟩ := ih h
      exact ⟨f, List.mem_cons_of_mem _ hf, he⟩

theorem pseudoForm_arguments (wm : ts.WellMarked) {inner : Answers}
    (hinner : Inner capped A.tell inner) {shape : PseudoShape}
    (hc : ts.closer? i .leftParen = some j)
    (h : (pseudoForm i j (pseudoForms ts)).result A.tell inner = some shape) :
    Arguments A shape i j := by
  have hlt := wm.closer_lt hc
  obtain ⟨f, hf, rfl, hlen⟩ := exists_of_pseudoForm h
  have hpos : 0 < (f.2 i).result A.tell inner := by omega
  simp only [pseudoForms, List.mem_cons, List.not_mem_nil, or_false] at hf
  rcases hf with rfl | rfl | rfl | rfl | rfl
  · exact nthFormula_arguments wm hc hpos
  · exact nthMultiple_arguments wm hc hpos
  · exact nthOffset_arguments wm hc hpos
  · exact pseudoSelectors_arguments hinner hc hpos
  · exact pseudoIdent_arguments hc hpos

/-- A pseudo-class is a name alone, or a name and arguments. -/
def PseudoClass (A : Reading ts capped) (i : Nat) (m : Match PseudoShape) : Prop :=
  m.shape = .bare ∧ (∃ n, A.value (nameMatch (i + 1)) = some n ∧ m.length = n.length + 1) ∨
    ∃ opener close, 0 < A.len .ident (i + 1) ∧ opener = i + 1 + A.len .ident (i + 1) ∧
      ts.closer? opener .leftParen = some close ∧ i + m.length = close + 1 ∧
      Arguments A m.shape opener close

theorem pseudoBare_cases {inner : Answers} {m : Match PseudoShape}
    (h : (pseudoBareMatch i).result A.tell inner = some m) : PseudoClass A i m := by
  have hname : (nameMatch (i + 1)).result A.tell inner = A.value (nameMatch (i + 1)) :=
    A.result_eq_value (nameMatch_matches (s := .top) (Scope.top_open (by decide) _)) rfl inner
  unfold pseudoBareMatch at h
  rw [result_bind, result_pure, hname] at h
  obtain ⟨n, hn, he⟩ := Option.bind_eq_some_iff.1 h
  rw [Match.of?_pos (Nat.succ_pos _)] at he
  cases he
  exact Or.inl ⟨rfl, n, hn, rfl⟩

theorem pseudoClass_cases (wm : ts.WellMarked) {m : Match PseudoShape}
    (h : A.tell .pseudoClass i = some m) : ts.is i .colon = true ∧ PseudoClass A i m := by
  have hlt := A.lt_of_tell h
  obtain ⟨inner, hinner, he⟩ := A.explains .pseudoClass i hlt
  rw [h] at he
  change some m = (pseudoClassMatch ts i).result A.tell inner at he
  unfold pseudoClassMatch at he
  split at he
  · cases he
  next hm =>
  refine ⟨by simpa using hm, ?_⟩
  rw [result_bind, result_lengthOf, A.len_eq] at he
  dsimp only at he
  split at he
  · exact pseudoBare_cases he.symm
  next close hc =>
  split at hc
  · next hn =>
    rw [result_bind] at he
    split at he
    · next shape hs =>
      have hcl := wm.closer_lt hc
      rw [result_bind, result_tokensBetween, result_pure, Match.of?_pos (by omega)] at he
      cases he
      refine Or.inr ⟨_, close, hn, rfl, hc, ?_, pseudoForm_arguments wm hinner hc hs⟩
      dsimp only
      omega
    · exact pseudoBare_cases he.symm
  · cases hc

/-- Spacing and single tokens lead through a formula. -/
theorem formula_trail (wm : ts.WellMarked) (A : Reading ts capped)
    (hj : ts.isAny j spacingKinds = false) (hform : Formula ts i j) (hij : i ≤ j) :
    Trail (fun k l => k < j ∧ Formula ts k j ∧
      (0 < A.len .spacing k ∧ l = k + A.len .spacing k ∨ A.len .spacing k = 0 ∧ l = k + 1)) i j := by
  generalize hn : j - i = n
  induction n using Nat.strongRecOn generalizing i with
  | ind n ih =>
    rcases Nat.eq_or_lt_of_le hij with rfl | hlt
    · exact .refl i
    · have hrest : ∀ l, i ≤ l → Formula ts l j := fun l hl m hm => hform m (by omega)
      rcases Nat.eq_zero_or_pos (A.len .spacing i) with hz | hpos
      · exact .step ⟨hlt, hform, Or.inr ⟨hz, rfl⟩⟩ (by omega)
          (ih _ (by omega) (hrest _ (by omega)) (by omega) rfl)
      · have hle := spacing_le wm A hij hj
        exact .step ⟨hlt, hform, Or.inl ⟨hpos, rfl⟩⟩ (by omega)
          (ih _ (by omega) (hrest _ (by omega)) hle rfl)

/-- Every token before a closer is spacing or one of the parts of a formula. -/
theorem nthNodes_gives (wm : ts.WellMarked) (hj : ts.isAny j spacingKinds = false)
    (hform : Formula ts i j) (hij : i ≤ j) : GivesAll A (nthNodes ts j) i j := by
  refine givesAll_collectTo (formula_trail wm A hj hform hij) fun k l hk E lo hc => ?_
  refine runs_cursor.2 (runs_starts.2 ?_)
  rcases hk with ⟨hkj, hform, ⟨hpos, rfl⟩ | ⟨hz, rfl⟩⟩
  · rw [decide_eq_true hpos]
    exact spacingNodes_gives wm A k E lo hc
  · have htext : ∀ {n : Node.Kind}, Textual ts n k (k + 1) :=
      Or.inr (hform.balanced (Nat.le_refl k) hkj)
    rw [hz]
    change Runs A E lo (if ts.isAny k [.plus, .minus] then single (unaryNode ts)
      else if ts.is k .digits then single (leaf ts .number 1) else single (leaf ts .ident 1)) k _
    split
    · exact (gives_leaf (k := .unary) ⟨rfl, rfl⟩ Nat.one_pos htext).single E lo hc
    · split
      · exact (gives_leaf (k := .number) ⟨rfl, rfl⟩ Nat.one_pos htext).single E lo hc
      · exact (gives_leaf (k := .ident) ⟨rfl, rfl⟩ Nat.one_pos htext).single E lo hc

theorem spacedIdentNodes_gives (wm : ts.WellMarked) (hi : j = i + A.len .spacing i)
    (hpos : 0 < A.len .ident j) : GivesAll A (spacedIdentNodes ts) i
      (j + A.len .ident j + A.len .spacing (j + A.len .ident j)) := by
  subst hi
  intro E lo hc
  refine (spacingNodes_gives wm A i).then hc fun before hbefore hc => ?_
  refine (identNode_gives wm hpos).then hc fun name hname hc => ?_
  refine (spacingNodes_gives wm A _).then hc fun after hafter _ => ?_
  exact ⟨rfl, (hbefore.append hname.single).append hafter⟩

theorem pseudoArgumentsNode_gives (wm : ts.WellMarked) {shape : PseudoShape}
    (hc : ts.closer? i .leftParen = some j) (h : Arguments A shape i j) :
    Gives A (pseudoArgumentsNode ts shape) i (j + 1) := by
  have hlt := wm.closer_lt hc
  refine gives_branch (by omega) fun E lo hs => runs_cursor.2 (runs_skip.2 ?_)
  have hlo := hs.le
  rw [hc]
  have hcontent : Runs A E lo (pseudoArgumentNodes ts shape j) (i + 1) fun ns k =>
      k = j ∧ Tiles ts (i + 1) j ns := by
    have hs := hs.mono (Nat.le_succ i)
    match shape, h with
    | .formula, ⟨hj, hform⟩ => exact nthNodes_gives wm hj hform hlt.1 E lo hs
    | .multiple, ⟨hj, hform⟩ => exact nthNodes_gives wm hj hform hlt.1 E lo hs
    | .offset, ⟨hj, hform⟩ => exact nthNodes_gives wm hj hform hlt.1 E lo hs
    | .selectors, ⟨hpos, hend⟩ =>
      refine ⟨⟨by omega, by omega, hpos⟩, fun x hx => ?_⟩
      obtain ⟨htiles, hends⟩ := hx
      have hj : x.2 = j := Eq.trans hends hend
      exact ⟨hj, hj ▸ htiles⟩
    | .ident, ⟨k, hk, hpos, hend⟩ =>
      rw [← hend]
      exact spacedIdentNodes_gives wm hk hpos E lo hs
  refine runs_bind.2 (hcontent.mono fun ns k hns => ?_)
  obtain ⟨rfl, htiles⟩ := hns
  exact runs_skip.2 ⟨rfl, i + 1, k, ⟨hc, rfl, rfl⟩, htiles⟩

theorem pseudoClassNode_gives (wm : ts.WellMarked) (h : 0 < A.len .pseudoClass i) :
    Gives A (pseudoClassNode ts) i (i + A.len .pseudoClass i) := by
  obtain ⟨m, ht, hlen⟩ := A.exists_of_len h
  obtain ⟨hcolon, hcases⟩ := pseudoClass_cases wm ht
  have hpos := m.length_pos
  rw [← hlen]
  refine gives_branch (by omega) fun E lo hc => runs_ask.2 ?_
  rw [ht]
  refine runs_check.2 ⟨decide_eq_true hpos, runs_skip.2 ?_⟩
  change Runs A E lo (if m.shape = .bare then single (anyNameNode ts)
    else do return [← identNode ts, ← pseudoArgumentsNode ts m.shape]) (i + 1) _
  rcases hcases with ⟨hs, n, hn, hl⟩ | ⟨opener, close, hname, rfl, hcl, hend, hargs⟩
  · have hnpos := n.length_pos
    rw [if_pos hs]
    refine ((anyNameNode_gives wm hn).single E lo (hc.mono (by omega))).mono fun ns l hns => ?_
    obtain ⟨rfl, htiles⟩ := hns
    exact ⟨by omega, i + 1, _, ⟨⟨hcolon, rfl, by omega⟩, by omega⟩, htiles⟩
  · have hbare : m.shape ≠ .bare := by
      intro hb
      rw [hb] at hargs
      exact hargs
    have hlt := wm.closer_lt hcl
    rw [if_neg hbare]
    refine (identNode_gives wm hname).then (hc.mono (by omega)) fun name hnode hc => ?_
    refine (pseudoArgumentsNode_gives wm hcl hargs).then hc fun args hargs _ => ?_
    refine ⟨by omega, i + 1, _, ⟨⟨hcolon, rfl, hend.symm⟩, by omega⟩, ?_⟩
    exact hnode.single.append hargs.single

theorem pseudoNode_gives (wm : ts.WellMarked) (h : 0 < A.value (pseudoLength ts i)) :
    Gives A (pseudoNode ts) i (i + A.value (pseudoLength ts i)) := by
  rw [pseudoLength, A.value_orElse, A.value_lengthOf] at h ⊢
  refine gives_choose_sees (pseudoElementLength_measures (Nat.zero_le i)) (fun hp => ?_)
    (fun hz => ?_)
  · rw [if_neg (show ¬ A.value (pseudoElementLength ts i) = 0 by omega)]
    exact pseudoElementNode_gives wm hp
  · rw [if_pos hz] at h ⊢
    exact pseudoClassNode_gives wm h

end LessCss
