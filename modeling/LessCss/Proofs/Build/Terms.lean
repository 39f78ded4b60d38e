import LessCss.Proofs.Build.Spacing

/-! Building names, literals, groups and values: where the lookahead found one of them, its builder
moves as far as the lookahead did, and its nodes stand for the tokens passed. For each rule a lemma
takes its equation apart, and the lemma about its builder follows the parts. -/

namespace LessCss

open Lookahead Builder Grammar Tokens

variable {ts : Tokens} {capped : Bool} {A : Reading ts capped} {i j k : Nat}

theorem lengthen_pos {n m : Nat} (h : 0 < lengthen n m) : 0 < n ∧ lengthen n m = n + m := by
  unfold lengthen at h ⊢
  split at h
  · omega
  · next hn => exact ⟨by omega, if_neg hn⟩

theorem of?_eq_some {σ : Type} {n : Nat} {s : σ} {m : Match σ} (h : Match.of? n s = some m) :
    m.shape = s ∧ m.length = n := by
  have hn : 0 < n := by
    refine Nat.pos_of_ne_zero ?_
    rintro rfl
    cases h
  rw [Match.of?_pos hn] at h
  cases h
  exact ⟨rfl, rfl⟩

/-! ## Names -/

theorem interpolation_cases (wm : ts.WellMarked) (h : 0 < A.len .interpolation i) :
    ts.is i .atSign = true ∧ ts.is (i + 1) .leftCurly = true ∧ 0 < A.len .ident (i + 2) ∧
      ts.is (i + 2 + A.len .ident (i + 2)) .rightCurly = true ∧
      A.len .interpolation i = A.len .ident (i + 2) + 3 := by
  have he := A.len_of_sole (r := .interpolation) (u := ()) wm rfl (A.lt_of_len h) rfl
  unfold interpolationLength at he
  split at he
  · next hm =>
    rw [A.value_bind, A.value_lengthOf, A.value_pure] at he
    split at he
    · next hn =>
      simp only [Bool.and_eq_true, decide_eq_true_eq] at hm hn
      exact ⟨hm.1, hm.2, hn.1, hn.2, he⟩
    · omega
  · rw [A.value_pure] at he
    omega

/-- A name starts with an underscore and is the run behind it, or it goes on as far as `identEnd`
says. -/
theorem ident_cases (wm : ts.WellMarked) (h : 0 < A.len .ident i) :
    ts.is i .underscore = true ∧ i + A.len .ident i =
        ts.spanEnd [.minus, .digits, .underscore, .identifier] (i + 1) ∨
      ∃ k ∈ [Token.Kind.minus, .identifier, .dollar, .asterisk], ts.is i k = true ∧
        ((A.value (identEnd ts (k == .identifier) (i + 1))).1 || k == .asterisk) = true ∧
        A.len .ident i = (A.value (identEnd ts (k == .identifier) (i + 1))).2 - i := by
  have he := A.len_of_sole (r := .ident) (u := ()) wm rfl (A.lt_of_len h) rfl
  unfold identLength at he
  split at he
  · next hk =>
    have hle := le_spanEnd ts [.minus, .digits, .underscore, .identifier] (i + 1)
    rw [A.value_tokensBetween] at he
    exact Or.inl ⟨is_iff.2 hk, by omega⟩
  · next k _ hk =>
    split at he
    · next hmem =>
      rw [A.value_bind] at he
      split at he
      next named stop hv =>
      split at he
      · next hn => exact Or.inr ⟨k, hmem, is_iff.2 hk, by rw [hv]; exact hn, by rw [hv]; exact he⟩
      · rw [A.value_pure] at he
        omega
    · rw [A.value_pure] at he
      omega
  · rw [A.value_pure] at he
    omega

theorem value_identEnd (named : Bool) (j : Nat) : A.value (identEnd ts named j) =
    if j < ts.size then
      match ts.kind? (j + A.len .interpolation j) with
      | some .minus | some .underscore =>
        A.value (identEnd ts named (j + A.len .interpolation j + 1))
      | some .identifier => A.value (identEnd ts true (j + A.len .interpolation j + 1))
      | some .digits =>
        if named then A.value (identEnd ts named (j + A.len .interpolation j + 1))
        else (named, j + A.len .interpolation j)
      | _ => (named, j + A.len .interpolation j)
    else (named, j) := by
  rw [identEnd]
  split
  · change A.value (lengthOf .interpolation j >>= _) = _
    rw [A.value_bind, A.value_lengthOf]
    cases ts.kind? (j + A.len .interpolation j) with
    | none => rfl
    | some k => cases k <;> cases named <;> rfl
  · rfl

/-- The rounds of a name: an interpolated part, if there is one, and a token without brackets. -/
theorem identEnd_balanced (named : Bool)
    (hi : ∀ l, i ≤ l → 0 < A.len .interpolation l → ts.Balanced l (l + A.len .interpolation l))
    (hij : i ≤ j) : j ≤ (A.value (identEnd ts named j)).2 ∧
      ts.Balanced j (A.value (identEnd ts named j)).2 := by
  have hpart : ∀ l, i ≤ l → ts.Balanced l (l + A.len .interpolation l) := by
    intro l hl
    rcases Nat.eq_zero_or_pos (A.len .interpolation l) with hz | hpos
    · rw [hz]
      exact balanced_self ts l
    · exact hi l hl hpos
  have hround : ∀ {l e : Nat} {k : Token.Kind}, i ≤ l → ts.kind? (l + A.len .interpolation l) = some k →
      k.isPlain = true → l + A.len .interpolation l + 1 ≤ e ∧
        ts.Balanced (l + A.len .interpolation l + 1) e → l ≤ e ∧ ts.Balanced l e := by
    intro l e k hl hk hkb ⟨hle, hrest⟩
    refine ⟨by omega, (hpart l hl).trans (by omega) (by omega) ?_⟩
    exact (balanced_token (is_iff.2 hk) hkb).trans (by omega) hle hrest
  generalize hn : ts.size - j = n
  induction n using Nat.strongRecOn generalizing named j with
  | ind n ih =>
    rw [value_identEnd]
    split
    · split
      · next hk => exact hround hij hk rfl (ih _ (by omega) named (by omega) rfl)
      · next hk => exact hround hij hk rfl (ih _ (by omega) named (by omega) rfl)
      · next hk => exact hround hij hk rfl (ih _ (by omega) true (by omega) rfl)
      · next hk =>
        split
        · exact hround hij hk rfl (ih _ (by omega) named (by omega) rfl)
        · exact ⟨Nat.le_add_right j _, hpart j hij⟩
      · exact ⟨Nat.le_add_right j _, hpart j hij⟩
    · exact ⟨Nat.le_refl j, balanced_self ts j⟩

/-- The brackets in a name are those of its interpolated parts. -/
theorem ident_balanced (wm : ts.WellMarked) (h : 0 < A.len .ident i) :
    ts.Balanced i (i + A.len .ident i) := by
  generalize hn : ts.size - i = n
  induction n using Nat.strongRecOn generalizing i with
  | ind n ih =>
    have hlt := A.lt_of_len h
    have hinner : ∀ l, i + 1 ≤ l → 0 < A.len .interpolation l →
        ts.Balanced l (l + A.len .interpolation l) := by
      intro l hl hpos
      obtain ⟨hat, hcurly, hname, hclose, hlen⟩ := interpolation_cases wm hpos
      have hlast := A.len_le hpos
      have hbraces := (ih _ (by omega) hname rfl).enclose (by omega) hcurly rfl hclose rfl
      rw [show l + A.len .interpolation l = l + 2 + A.len .ident (l + 2) + 1 by omega]
      exact (balanced_token hat rfl).trans (by omega) (by omega) hbraces
    rcases ident_cases wm h with ⟨hk, hlen⟩ | ⟨k, hmem, hk, _, hlen⟩
    · have hle := le_spanEnd ts [.minus, .digits, .underscore, .identifier] (i + 1)
      rw [hlen]
      exact (balanced_token hk rfl).trans (by omega) hle
        (balanced_run hle (by decide) fun m him hm => isAny_of_lt_spanEnd him hm)
    · have hkinds : ∀ k ∈ [Token.Kind.minus, .identifier, .dollar, .asterisk],
          k.isPlain = true := by decide
      obtain ⟨hle, hrest⟩ := identEnd_balanced (k == .identifier) hinner (Nat.le_refl (i + 1))
      rw [show i + A.len .ident i = (A.value (identEnd ts (k == .identifier) (i + 1))).2 by omega]
      exact (balanced_token hk (hkinds k hmem)).trans (by omega) hle hrest

theorem identNode_gives (wm : ts.WellMarked) (h : 0 < A.len .ident i) :
    Gives A (identNode ts) i (i + A.len .ident i) := by
  intro E lo hc
  refine runs_look.2 ⟨⟨_, lengthOf_top .ident i⟩, runs_check.2 ⟨decide_eq_true h, ?_⟩⟩
  exact gives_leaf (k := .ident) ⟨rfl, rfl⟩ h (Or.inr fun _ => ident_balanced wm h) E lo hc

theorem interpolationNode_gives (wm : ts.WellMarked) (h : 0 < A.len .interpolation i) :
    Gives A (interpolationNode ts) i (i + A.len .interpolation i) := by
  obtain ⟨hat, hcurly, hpos, hclose, hlen⟩ := interpolation_cases wm h
  refine gives_branch (by omega) fun E lo hc => runs_skip.2 ?_
  refine (identNode_gives wm hpos).then (hc.mono (by omega)) fun n hn _ => runs_skip.2 ?_
  refine ⟨by omega, i + 2, i + 2 + A.len .ident (i + 2), ?_, hn.single⟩
  exact ⟨hat, hcurly, rfl, hclose, by omega⟩

theorem var_cases (wm : ts.WellMarked) (h : 0 < A.len .var i) :
    ts.is i .atSign = true ∧
      (0 < A.len .var (i + 1) ∧ A.len .var i = A.len .var (i + 1) + 1 ∨
        A.len .var (i + 1) = 0 ∧ 0 < A.len .ident (i + 1) ∧
          A.len .var i = A.len .ident (i + 1) + 1) := by
  have he := A.len_of_sole (r := .var) (u := ()) wm rfl (A.lt_of_len h) rfl
  unfold varLength at he
  split at he
  · rw [A.value_pure] at he
    omega
  · next hm =>
    rw [A.value_bind, A.value_pure, A.value_orElse, A.value_lengthOf, A.value_lengthOf] at he
    obtain ⟨hpos, hlen⟩ := lengthen_pos (he ▸ h)
    simp only [Bool.or_eq_true, not_or, Bool.not_eq_true', Bool.not_eq_false] at hm
    refine ⟨hm.1, ?_⟩
    split at hpos
    · next hv =>
      rw [if_pos hv] at hlen he
      exact Or.inr ⟨hv, hpos, he.trans hlen⟩
    · next hv =>
      rw [if_neg hv] at hlen he
      exact Or.inl ⟨hpos, he.trans hlen⟩

theorem varNode_gives (wm : ts.WellMarked) (h : 0 < A.len .var i) :
    Gives A (varNode ts) i (i + A.len .var i) := by
  obtain ⟨hat, hcases⟩ := var_cases wm h
  have hlt := A.lt_of_len h
  refine gives_branch (by omega) fun E lo hc => runs_skip.2 (runs_starts.2 ?_)
  have hlo := hc.le
  rcases hcases with ⟨hv, hlen⟩ | ⟨hv, hpos, hlen⟩
  · rw [decide_eq_true hv]
    refine ⟨⟨by omega, by omega, hv⟩, fun x hx => ?_⟩
    obtain ⟨htiles, hends⟩ := hx
    have hend : x.2 = i + 1 + A.len .var (i + 1) := hends
    exact ⟨by omega, i + 1, x.2, ⟨⟨hat, rfl, by omega⟩, by omega⟩, htiles⟩
  · rw [decide_eq_false (by omega)]
    refine ((identNode_gives wm hpos).single E lo (hc.mono (by omega))).mono fun ns l hns => ?_
    obtain ⟨rfl, htiles⟩ := hns
    exact ⟨by omega, i + 1, _, ⟨⟨hat, rfl, by omega⟩, by omega⟩, htiles⟩

theorem varList_cases (h : 0 < A.value (varListLength ts i)) :
    0 < A.len .var i ∧ ts.spanEnd [.dot] (i + A.len .var i) = i + A.len .var i + 3 ∧
      A.value (varListLength ts i) = A.len .var i + 3 := by
  unfold varListLength at h ⊢
  rw [A.value_bind, A.value_lengthOf, A.value_pure] at h ⊢
  split at h
  · next hn =>
    rw [if_pos hn]
    simp only [Bool.and_eq_true, decide_eq_true_eq, beq_iff_eq] at hn
    exact ⟨hn.1, hn.2, rfl⟩
  · omega

theorem varListNode_gives (wm : ts.WellMarked) (h : 0 < A.value (varListLength ts i)) :
    Gives A (varListNode ts) i (i + A.value (varListLength ts i)) := by
  obtain ⟨hpos, hdots, hlen⟩ := varList_cases h
  refine gives_branch (by omega) fun E lo hc => ?_
  refine (varNode_gives wm hpos).then hc fun n hn _ => runs_skip.2 ?_
  refine ⟨by omega, i, i + A.len .var i, ⟨rfl, fun m hm hm' => ?_, by omega⟩, hn.single⟩
  have hm'' : m < ts.spanEnd [.dot] (i + A.len .var i) := by omega
  obtain ⟨d, hd, hk⟩ := isAny_iff.1 (isAny_of_lt_spanEnd hm hm'')
  rw [List.mem_singleton.1 hd] at hk
  exact is_iff.2 hk

theorem atKeyword_cases (h : 0 < A.value (atKeywordLength ts i)) :
    ts.is i .atSign = true ∧ 0 < A.len .ident (i + 1) ∧
      A.value (atKeywordLength ts i) = A.len .ident (i + 1) + 1 := by
  unfold atKeywordLength at h ⊢
  split at h
  · next hm =>
    rw [if_pos hm]
    rw [A.value_bind, A.value_lengthOf, A.value_pure] at h ⊢
    obtain ⟨hpos, hlen⟩ := lengthen_pos h
    exact ⟨hm, hpos, hlen⟩
  · cases h

theorem atKeywordNode_gives (wm : ts.WellMarked) (h : 0 < A.value (atKeywordLength ts i)) :
    Gives A (atKeywordNode ts) i (i + A.value (atKeywordLength ts i)) := by
  obtain ⟨hat, hpos, hlen⟩ := atKeyword_cases h
  rw [hlen, show i + (A.len .ident (i + 1) + 1) = i + 1 + A.len .ident (i + 1) by omega]
  exact (identNode_gives wm hpos).single.marked ⟨⟨hat, rfl, rfl⟩, by omega⟩ (by omega)

theorem name_cases {m : Match Name} (h : A.value (nameMatch i) = some m) :
    m.shape = .interpolation ∧ m.length = A.len .interpolation i ∨
      m.shape = .ident ∧ m.length = A.len .ident i ∧ A.len .interpolation i = 0 := by
  rw [nameMatch, A.value_firstOf_cons, A.value_lengthOf] at h
  by_cases hn : 0 < A.len .interpolation i
  · rw [Match.of?_pos hn] at h
    cases h
    exact Or.inl ⟨rfl, rfl⟩
  · have hz : A.len .interpolation i = 0 := by omega
    rw [hz, Match.of?_zero, Option.none_or] at h
    obtain ⟨a, ha, hshape, hlen⟩ := exists_of_firstOf h
    rw [List.mem_singleton.1 ha] at hshape hlen
    exact Or.inr ⟨hshape, hlen, hz⟩

theorem nameNode_gives (wm : ts.WellMarked) {m : Match Name} (h : A.value (nameMatch i) = some m) :
    Gives A (nameNode ts m.shape) i (i + m.length) := by
  have hpos := m.length_pos
  rcases name_cases h with ⟨hs, hl⟩ | ⟨hs, hl, _⟩
  · rw [hs, hl]
    exact interpolationNode_gives wm (by omega)
  · rw [hs, hl]
    exact identNode_gives wm (by omega)

theorem anyNameNode_gives (wm : ts.WellMarked) {m : Match Name}
    (h : A.value (nameMatch i) = some m) : Gives A (anyNameNode ts) i (i + m.length) := by
  have hpos := m.length_pos
  refine gives_choose_starts (fun hi => ?_) (fun hz => ?_)
  · rcases name_cases h with ⟨_, hl⟩ | ⟨_, _, hz⟩
    · rw [hl]
      exact interpolationNode_gives wm hi
    · omega
  · rcases name_cases h with ⟨_, hl⟩ | ⟨_, hl, _⟩
    · omega
    · rw [hl]
      exact identNode_gives wm (by omega)

theorem markedName_cases {mark : Token.Kind} {m : Match Name}
    (h : A.value (markedNameMatch ts mark i) = some m) :
    ts.is i mark = true ∧ ∃ n, A.value (nameMatch (i + 1)) = some n ∧ m = n.lengthen 1 := by
  unfold markedNameMatch at h
  split at h
  · next hm =>
    rw [A.value_bind, A.value_pure] at h
    obtain ⟨n, hn, he⟩ := Option.map_eq_some_iff.1 h
    exact ⟨hm, n, hn, he.symm⟩
  · cases h

/-- A class or an id: the mark at the cursor and a name of the form that the rule has found. -/
theorem markedNameNode_gives (wm : ts.WellMarked) {mark : Token.Kind} {k : Node.Kind}
    {m : Match Name} (h : A.value (markedNameMatch ts mark i) = some m)
    (hk : ∀ j, ts.is i mark = true → i + 1 < j → Framed ts k i (i + 1) j j) :
    Gives A (branch ts k (do skip 1; single (nameNode ts m.shape))) i (i + m.length) := by
  obtain ⟨hm, n, hn, rfl⟩ := markedName_cases h
  have hpos := n.length_pos
  have hlen : i + (n.lengthen 1).length = i + 1 + n.length := by
    simp only [Match.lengthen]
    omega
  rw [hlen]
  exact (nameNode_gives wm hn).single.marked (hk _ hm (by omega)) (by omega)

theorem classNode_gives (wm : ts.WellMarked) (h : 0 < A.len .classSelector i) :
    Gives A (classNode ts) i (i + A.len .classSelector i) := by
  obtain ⟨m, ht, hlen⟩ := A.exists_of_len h
  have hbody := A.value_of_tell wm rfl ht
  have hgives := markedNameNode_gives (k := .classSelector) wm hbody fun j hm hj =>
    ⟨⟨hm, rfl, rfl⟩, hj⟩
  rw [← hlen]
  intro E lo hc
  refine runs_cursor.2 (runs_ask.2 ?_)
  rw [ht]
  exact hgives E lo hc

theorem idNode_gives (wm : ts.WellMarked) (h : 0 < A.len .idSelector i) :
    Gives A (idNode ts) i (i + A.len .idSelector i) := by
  obtain ⟨m, ht, hlen⟩ := A.exists_of_len h
  have hbody := A.value_of_tell wm rfl ht
  have hgives := markedNameNode_gives (k := .idSelector) wm hbody fun j hm hj =>
    ⟨⟨hm, rfl, rfl⟩, hj⟩
  rw [← hlen]
  intro E lo hc
  refine runs_cursor.2 (runs_ask.2 ?_)
  rw [ht]
  exact hgives E lo hc

theorem classOrIdNode_gives (wm : ts.WellMarked) (h : 0 < A.value (classOrIdLength i)) :
    Gives A (classOrIdNode ts) i (i + A.value (classOrIdLength i)) := by
  rw [classOrIdLength, A.value_orElse, A.value_lengthOf, A.value_lengthOf] at h ⊢
  refine gives_choose_starts (fun hc => ?_) (fun hz => ?_)
  · rw [if_neg (by omega)]
    exact classNode_gives wm hc
  · rw [if_pos hz] at h ⊢
    exact idNode_gives wm h

/-! ## Literals -/

/-- A leaf of one token that is no bracket. -/
theorem gives_mark {k : Node.Kind} {c : Token.Kind} (hk : Framed ts k i i (i + 1) (i + 1))
    (h : ts.is i c = true) (hc : c.isPlain = true) : Gives A (leaf ts k 1) i (i + 1) :=
  gives_leaf hk Nat.one_pos (Or.inr fun _ => balanced_token h hc)

theorem gives_token {k : Node.Kind} {ks : List Token.Kind} (hk : Framed ts k i i (i + 1) (i + 1))
    (h : 0 < A.value (tokenLength ts ks i)) (hks : ks.all Token.Kind.isPlain = true) :
    Gives A (leaf ts k 1) i (i + A.value (tokenLength ts ks i)) := by
  have hplain : ∀ c ∈ ks, c.isPlain = true := List.all_eq_true.1 hks
  rw [value_tokenLength] at h ⊢
  rw [toNat_pos.1 h]
  exact gives_leaf hk Nat.one_pos (Or.inr fun _ => balanced_isAny (toNat_pos.1 h) hplain)

theorem number_cases (wm : ts.WellMarked) (h : 0 < A.len .number i) :
    ts.is i .digits = true ∧ (ts.is (i + 1) .dot = false ∧ A.len .number i = 1 ∨
        ts.is (i + 1) .dot = true ∧ (ts.is (i + 2) .digits = false ∧ A.len .number i = 2 ∨
          ts.is (i + 2) .digits = true ∧ A.len .number i = 3)) ∨
      ts.is i .dot = true ∧ ts.is (i + 1) .digits = true ∧ A.len .number i = 2 := by
  have he := A.len_of_sole (r := .number) (u := ()) wm rfl (A.lt_of_len h) rfl
  rw [numberLength, A.value_pure] at he
  grind

theorem number_balanced (wm : ts.WellMarked) (h : 0 < A.len .number i) :
    ts.Balanced i (i + A.len .number i) := by
  rcases number_cases wm h with ⟨h0, ⟨_, hl⟩ | ⟨h1, ⟨_, hl⟩ | ⟨h2, hl⟩⟩⟩ | ⟨h0, h1, hl⟩ <;> rw [hl]
  · exact balanced_token h0 rfl
  · exact (balanced_token h0 rfl).trans (by omega) (by omega) (balanced_token h1 rfl)
  · exact (balanced_token h0 rfl).trans (by omega) (by omega)
      ((balanced_token h1 rfl).trans (by omega) (by omega) (balanced_token h2 rfl))
  · exact (balanced_token h0 rfl).trans (by omega) (by omega) (balanced_token h1 rfl)

theorem numberNode_gives (wm : ts.WellMarked) (h : 0 < A.len .number i) :
    Gives A (numberNode ts) i (i + A.len .number i) :=
  gives_leafOf (q := lengthOf .number) ⟨rfl, rfl⟩ h (lengthOf_top .number i)
    (Or.inr fun _ => number_balanced wm h)

theorem important_cases (wm : ts.WellMarked) (h : 0 < A.len .important i) :
    ts.is i .exclamation = true ∧ ts.text (i + 1 + A.len .spacing (i + 1)) = "important" ∧
      A.len .important i = A.len .spacing (i + 1) + 2 := by
  have he := A.len_of_sole (r := .important) (u := ()) wm rfl (A.lt_of_len h) rfl
  unfold importantLength at he
  split at he
  · next hm =>
    rw [A.value_bind, A.value_lengthOf, A.value_pure] at he
    split at he
    · next ht => exact ⟨hm, by simpa using ht, he⟩
    · omega
  · rw [A.value_pure] at he
    omega

theorem importantNode_gives (wm : ts.WellMarked) (h : 0 < A.len .important i) :
    Gives A (importantNode ts) i (i + A.len .important i) := by
  refine gives_leafOf (q := lengthOf .important) ⟨rfl, rfl⟩ h (lengthOf_top .important i)
    (Or.inr fun hs => ?_)
  obtain ⟨hm, ht, hlen⟩ := important_cases wm h
  have hword := hs.balanced ht (by decide) (by decide)
  rw [A.value_lengthOf, hlen,
    show i + (A.len .spacing (i + 1) + 2) = i + 1 + A.len .spacing (i + 1) + 1 by omega]
  exact (balanced_token hm rfl).trans (by omega) (by omega)
    ((spacing_balanced wm A (i + 1)).trans (by omega) (by omega) hword)

theorem unit_balanced (ts : Tokens) (i : Nat) : ts.Balanced i (i + unitLength ts i) := by
  unfold unitLength
  split
  · next hk => exact balanced_token (is_iff.2 hk) rfl
  · next hk =>
    split
    · next hn => exact (balanced_token (is_iff.2 hk) rfl).trans (by omega) (by omega) (balanced_token hn rfl)
    · exact balanced_token (is_iff.2 hk) rfl
  · exact balanced_self ts i

theorem dimensionNode_gives (wm : ts.WellMarked) (h : 0 < A.value (dimensionLength ts i)) :
    Gives A (dimensionNode ts) i (i + A.value (dimensionLength ts i)) := by
  rw [dimensionLength, A.value_bind, A.value_lengthOf, A.value_pure] at h ⊢
  split at h
  · omega
  · next hn =>
    obtain ⟨hpos, hlen⟩ := lengthen_pos h
    rw [if_neg hn, hlen, show i + (unitLength ts (i + A.len .number i) + A.len .number i) =
      i + A.len .number i + unitLength ts (i + A.len .number i) by omega]
    refine GivesAll.branch (k := .dimension) (fun E lo hc => ?_) ⟨rfl, rfl⟩ (by omega)
    refine (numberNode_gives wm (by omega)).then hc fun n hn hc => runs_cursor.2 ?_
    refine (gives_leaf (k := .ident) ⟨rfl, rfl⟩ hpos (Or.inr fun _ => unit_balanced ts _)).then hc
      fun u hu _ => ?_
    exact ⟨rfl, hn.single.append hu.single⟩

theorem percentageNode_gives (wm : ts.WellMarked) (h : 0 < A.value (percentageLength ts i)) :
    Gives A (percentageNode ts) i (i + A.value (percentageLength ts i)) := by
  rw [percentageLength, A.value_bind, A.value_lengthOf, A.value_pure] at h ⊢
  split at h
  · next hn =>
    rw [if_pos hn]
    simp only [Bool.and_eq_true, decide_eq_true_eq] at hn
    refine gives_branch (by omega) fun E lo hc => ?_
    refine (numberNode_gives wm hn.1).then hc fun n hnode _ => runs_skip.2 ?_
    exact ⟨by omega, i, i + A.len .number i, ⟨rfl, hn.2, by omega⟩, hnode.single⟩
  · omega

theorem escapedStringNode_gives (h : 0 < A.value (escapedStringLength ts i)) :
    Gives A (escapedStringNode ts) i (i + A.value (escapedStringLength ts i)) := by
  rw [escapedStringLength, A.value_pure] at h ⊢
  split at h
  · next hm =>
    rw [if_pos hm]
    intro E lo hc
    refine runs_cursor.2 (runs_skip.2 (runs_make ?_))
    rw [← join_succ]
    obtain ⟨htilde, hstring⟩ := Bool.and_eq_true_iff.1 hm
    exact .leaf (k := .escapedString) ⟨htilde, rfl, rfl⟩ (by omega) (Or.inl (by omega)) rfl
      (Or.inr fun _ => balanced_isAny hstring (by decide))
  · omega

theorem colorNode_gives (h : 0 < A.value (colorLength ts i)) :
    Gives A (colorNode ts) i (i + A.value (colorLength ts i)) := by
  rw [colorLength, A.value_pure] at h ⊢
  split at h
  · next hm =>
    obtain ⟨hpos, hlen⟩ := lengthen_pos h
    rw [if_pos hm, hlen]
    intro E lo hc
    refine runs_cursor.2 (runs_skip.2 (runs_make ?_))
    exact .leaf (k := .color) ⟨hm, rfl, by omega⟩ (by omega) (Or.inl (by omega)) rfl
      (Or.inr fun _ => unit_balanced ts (i + 1))
  · omega

/-! ## Groups -/

theorem throughCloser_cases (wm : ts.WellMarked) {k : Token.Kind}
    (h : 0 < A.value (throughCloser ts k i j)) :
    ∃ c, ts.closer? j k = some c ∧ A.value (throughCloser ts k i j) = c + 1 - i ∧ j < c ∧
      c < ts.size := by
  unfold throughCloser at h ⊢
  split at h
  · next c hc =>
    rw [hc]
    exact ⟨c, rfl, rfl, wm.closer_lt hc⟩
  · cases h

/-- A group whose inside is read only now has to end at its closer, and fails behind the opener if
it does not. -/
theorem runs_filling {part : Nat → Interior} {c : Nat} {E : Nat → Prop} {lo : Nat}
    {Q : List Node → Nat → Prop} (hlo : lo < i) (hc : Site ts E lo i) (hi : i ≤ ts.size)
    (hd : ts.Deferred i) (hready : (part c).Ready A i)
    (h : ∀ ns, Tiles ts i c ns → Q ns c) : (filling part c).Runs A E lo i Q := by
  refine runs_enter hlo hi hready fun ns k hfill => runs_bind.2 (runs_cursor.2 ?_)
  split
  · exact hc.deferred _ (hd.mono hfill.1.le)
  · next hk =>
    have hkc : k = c := Decidable.byContradiction hk
    subst hkc
    exact h ns hfill.1

theorem enclosed_gives (wm : ts.WellMarked) {k : Token.Kind} {n : Node.Kind}
    {closer? : Nat → Option Nat} {part : Nat → Interior} {c : Nat} (hc : ts.closer? i k = some c)
    (hcloser : closer? i = some c) (hframe : Framed ts n i (i + 1) c (c + 1))
    (hk : k.opens?.isSome = true) (hready : ts.Entered (i + 1) → (part c).Ready A (i + 1)) :
    Gives A (branch ts n (enclosed closer? (filling part))) i (c + 1) := by
  have hlt := wm.closer_lt hc
  have hd : ts.Entered (i + 1) := ⟨i, k, c, rfl, hk, hc⟩
  refine gives_branch (by omega) fun E lo hs => runs_cursor.2 ?_
  have hlo := hs.le
  rw [hcloser]
  refine runs_skip.2 (runs_bind.2 ?_)
  refine runs_filling (by omega) (hs.mono (by omega)) (by omega) hd.deferred (hready hd) fun ns hns => ?_
  exact ⟨rfl, i + 1, c, hframe, hns⟩

theorem parenthesesNode_gives (wm : ts.WellMarked) (h : 0 < A.value (parenthesesLength ts i)) :
    Gives A (parenthesesNode ts) i (i + A.value (parenthesesLength ts i)) := by
  obtain ⟨c, hc, hlen, hlt⟩ := throughCloser_cases wm h
  rw [parenthesesLength, hlen, show i + (c + 1 - i) = c + 1 by omega]
  exact enclosed_gives wm hc (closer_of_closer? hc) ⟨hc, rfl, rfl⟩ rfl fun hd => hd

theorem bracketsNode_gives (wm : ts.WellMarked) (h : 0 < A.value (bracketsLength ts i)) :
    Gives A (bracketsNode ts) i (i + A.value (bracketsLength ts i)) := by
  obtain ⟨c, hc, hlen, hlt⟩ := throughCloser_cases wm h
  rw [bracketsLength, hlen, show i + (c + 1 - i) = c + 1 by omega]
  exact enclosed_gives wm hc (closer_of_closer? hc) ⟨hc, rfl, rfl⟩ rfl fun hd => hd

theorem blockNode_gives (wm : ts.WellMarked) (h : 0 < A.value (blockLength ts i)) :
    Gives A (blockNode ts) i (i + A.value (blockLength ts i)) := by
  obtain ⟨c, hc, hlen, hlt⟩ := throughCloser_cases wm h
  rw [blockLength, hlen, show i + (c + 1 - i) = c + 1 by omega]
  exact enclosed_gives wm hc hc ⟨hc, rfl, rfl⟩ rfl fun hd => hd

/-- An argument list, whether the lookahead has read it or not. -/
theorem argumentsNode_gives (wm : ts.WellMarked) {c : Nat} (hc : ts.closer? i .leftParen = some c) :
    Gives A (argumentsNode ts) i (c + 1) :=
  enclosed_gives wm hc hc ⟨hc, rfl, rfl⟩ rfl fun hd => hd

/-! ## Addresses, script expressions and filters -/

theorem lastToken_stays {q : Nat → Lookahead Nat} {s : Scope}
    (h : (q i).Stays ts s fun n => 1 ≤ i + n) : (lastToken q i).Stays ts s fun _ => True :=
  Stays.bind h fun _ hn => ⟨hn, trivial⟩

theorem value_lastToken (q : Nat → Lookahead Nat) (i : Nat) :
    A.value (lastToken q i) = i + A.value (q i) - 1 := by
  rw [lastToken, A.value_bind, A.value_tokensBetween]

theorem throughCloser_stays {k : Token.Kind} {c : Nat} {s : Scope} (hc : ts.closer? j k = some c)
    (hlt : i ≤ c + 1) : (throughCloser ts k i j).Stays ts s fun n => 1 ≤ i + n := by
  unfold throughCloser
  rw [hc]
  exact ⟨hlt, show 1 ≤ i + (c + 1 - i) by omega⟩

theorem uri_cases (wm : ts.WellMarked) (h : 0 < A.value (uriLength ts i)) :
    ts.text i = "url" ∧ ∃ c, ts.closer? (i + 1) .leftParen = some c ∧
      A.value (uriLength ts i) = c + 1 - i ∧ i + 1 < c ∧ c < ts.size ∧
      (uriLength ts i).Stays ts .top fun n => 1 ≤ i + n := by
  unfold uriLength at h ⊢
  split at h
  · next hm =>
    obtain ⟨c, hc, hlen, hlt⟩ := throughCloser_cases wm h
    rw [if_pos hm]
    exact ⟨by simpa using (Bool.and_eq_true_iff.1 hm).2, c, hc, hlen, hlt.1, hlt.2,
      throughCloser_stays hc (by omega)⟩
  · cases h

theorem rawEnd_le (close j : Nat) : j ≤ rawEnd ts close j := by
  fun_induction rawEnd ts close j <;> omega

theorem rawEnd_le_close {close j : Nat} (h : j < rawEnd ts close j) : rawEnd ts close j ≤ close := by
  fun_induction rawEnd ts close j with
  | case1 j hlt hk => omega
  | case2 j hlt hk ih =>
    have hle : j + 1 ≤ rawEnd ts close (j + 1) := rawEnd_le close (j + 1)
    rcases Nat.eq_or_lt_of_le hle with he | hlt'
    · omega
    · exact ih hlt'
  | case3 j hge => omega

theorem uriNode_gives (wm : ts.WellMarked) (h : 0 < A.value (uriLength ts i)) :
    Gives A (uriNode ts) i (i + A.value (uriLength ts i)) := by
  obtain ⟨htext, c, hc, hlen, hlt, hsize, hstays⟩ := uri_cases wm h
  have hclose : A.value (lastToken (uriLength ts) i) = c := by
    rw [value_lastToken]
    omega
  rw [show i + A.value (uriLength ts i) = c + 1 by omega]
  refine gives_branch (by omega) fun E lo hs => ?_
  refine runs_look.2 ⟨⟨_, lastToken_stays hstays⟩, runs_skip.2 ?_⟩
  rw [hclose]
  refine (spacingNodes_gives wm A (i + 2)).then (hs.mono (by omega)) fun before hbefore hs => ?_
  -- the body is a string or reaches up to some token; the closer is checked behind it
  have hbody : ∀ {l : Nat} {body : Node}, Covers ts (i + 2 + A.len .spacing (i + 2)) l body →
      Site ts E lo l → Runs A E lo (do
        let after ← spacingNodes ts
        expectAt c
        skip 1
        return before ++ [body] ++ after) l fun ns m => m = c + 1 ∧
          ∃ a b, Framed ts .uri i a b (c + 1) ∧ Tiles ts a b ns := by
    intro l body hbody hs
    refine (spacingNodes_gives wm A l).then hs fun after hafter hs => runs_bind.2 (runs_cursor.2 ?_)
    have hall := (hbefore.append hbody.single).append hafter
    split
    · exact hs.deferred _ (deferred_of_closer? hc (by have := hall.le; omega))
    · next hk =>
      have hkc : l + A.len .spacing l = c := Decidable.byContradiction hk
      rw [hkc] at hall ⊢
      exact ⟨rfl, i + 2, c, ⟨htext, hc, rfl, rfl⟩, hall⟩
  refine runs_bind.2 (runs_sees.2 ⟨⟨_, tokenLength_measures (s := .top) _⟩, ?_⟩)
  split
  · next hstring =>
    have htext := balanced_isAny (toNat_pos.1 (of_decide_eq_true hstring)) (by decide)
    refine runs_bind.1 ((gives_leaf (k := .string) ⟨rfl, rfl⟩ Nat.one_pos
      (Or.inr fun _ => htext)).then hs ?_)
    intro body hb hs
    exact hbody hb hs
  · refine runs_cursor.2 (runs_moveTo.2 ?_)
    have hle : _ ≤ rawEnd ts c _ := rawEnd_le c (i + 2 + A.len .spacing (i + 2))
    have hseal : ts.Sealed (i + 2 + A.len .spacing (i + 2)) (rawEnd ts c _) := fun m hm hm' _ => by
      have := rawEnd_le_close (Nat.lt_of_le_of_lt hm hm')
      omega
    refine (runs_make (.leaf (k := .raw) ⟨rfl, rfl⟩ hle (Or.inr ⟨rfl, hle⟩) rfl
      (Or.inl ⟨rfl, fun _ => hseal⟩))).mono fun body l hb => ?_
    obtain ⟨rfl, hcovers⟩ := hb
    exact hbody hcovers (hs.mono hle)

theorem expressionNode_gives (wm : ts.WellMarked) (h : 0 < A.value (expressionLength ts i)) :
    Gives A (expressionNode ts) i (i + A.value (expressionLength ts i)) := by
  have hcases : ts.text i = "expression" ∧ ∃ c, ts.closer? (i + 1) .leftParen = some c ∧
      A.value (expressionLength ts i) = c + 1 - i ∧ i + 1 < c ∧ c < ts.size ∧
      (expressionLength ts i).Stays ts .top fun n => 1 ≤ i + n := by
    unfold expressionLength at h ⊢
    split at h
    · next hm =>
      obtain ⟨c, hc, hlen, hlt⟩ := throughCloser_cases wm h
      rw [if_pos hm]
      exact ⟨by simpa using hm, c, hc, hlen, hlt.1, hlt.2, throughCloser_stays hc (by omega)⟩
    · cases h
  obtain ⟨htext, c, hc, hlen, hlt, hsize, hstays⟩ := hcases
  have hclose : A.value (lastToken (expressionLength ts) i) = c := by
    rw [value_lastToken]
    omega
  intro E lo hs
  refine runs_cursor.2 (runs_look.2 ⟨⟨_, lastToken_stays hstays⟩, runs_moveTo.2 ?_⟩)
  rw [hclose, show i + A.value (expressionLength ts i) = c + 1 by omega]
  exact runs_make (.leaf (k := .expression) ⟨htext, hc, rfl, rfl⟩ (by omega) (Or.inl (by omega)) rfl
    (Or.inl ⟨rfl, fun _ => sealed_of_lt hsize⟩))

/-- A filter call ends with the closer of its parentheses. -/
theorem progid_cases (wm : ts.WellMarked) (h : 0 < A.len .progid i) :
    ∃ j c, ts.closer? j .leftParen = some c ∧ i + A.len .progid i = c + 1 := by
  have he := A.len_of_sole (r := .progid) (u := ()) wm rfl (A.lt_of_len h) rfl
  have hpos : 0 < A.value (progidLength ts i) := he ▸ h
  unfold progidLength at he hpos
  split at hpos
  · cases hpos
  next hm =>
  rw [if_neg hm] at he
  rw [A.value_bind, A.value_bind] at he hpos
  obtain ⟨c, hc, hlen, hlt⟩ := throughCloser_cases wm hpos
  have hall : A.len .progid i = c + 1 - i := he.trans hlen
  exact ⟨_, c, hc, by omega⟩

theorem progidNode_gives (wm : ts.WellMarked) (h : 0 < A.len .progid i) :
    Gives A (progidNode ts) i (i + A.len .progid i) := by
  obtain ⟨j, c, hc, hend⟩ := progid_cases wm h
  refine gives_leafOf (q := lengthOf .progid) ⟨rfl, rfl⟩ h (lengthOf_top .progid i)
    (Or.inl ⟨rfl, fun hs m _ hm hg => ?_⟩)
  have hlt := wm.closer_lt hc
  have hne : m ≠ c := by
    rintro rfl
    rw [hs.closer _ _ _ hc rfl] at hg
    cases hg
  change m < i + A.len .progid i at hm
  omega

end LessCss
