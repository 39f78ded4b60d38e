import LessCss.Proofs.Build

/-! Spacing. The lookahead covers the whole run of white space and comments from a token on, so none
is left behind it, and what the builder makes of the run stands for the same tokens. -/

namespace LessCss

open Lookahead Builder Grammar Tokens

/-- The kinds of which spacing consists. -/
def spacingKinds : List Token.Kind := [.space, .tab, .newline, .blockComment, .lineComment]

variable {ts : Tokens} {capped : Bool} {A : Reading ts capped} {i j k : Nat}

/-! ## How far spacing reaches -/

theorem Tokens.Blank.isAny (h : ts.Blank i) : ts.isAny i spacingKinds = true := by
  obtain ⟨t, ht, hw⟩ := h
  refine isAny_iff.2 ⟨t.kind, ?_, by rw [kind?, ht]; rfl⟩
  revert hw
  cases t.kind <;> decide

/-- The kinds of white space. -/
def blankKinds : List Token.Kind := [.space, .tab, .newline]

theorem Tokens.blank_iff : ts.Blank i ↔ ts.isAny i blankKinds = true := by
  constructor
  · rintro ⟨t, ht, hw⟩
    refine isAny_iff.2 ⟨t.kind, ?_, by rw [kind?, ht]; rfl⟩
    revert hw
    cases t.kind <;> decide
  · intro hany
    obtain ⟨k, hk, he⟩ := isAny_iff.1 hany
    obtain ⟨t, ht, rfl⟩ := Option.map_eq_some_iff.1 he
    refine ⟨t, ht, ?_⟩
    revert hk
    cases t.kind <;> decide

/-- The links lead from white space to the end of its run. -/
theorem spaceLength_eq (wm : ts.WellMarked) (i : Nat) : spaceLength ts i =
    if ts.isAny i blankKinds = true then tokensBetween i (ts.spanEnd blankKinds i)
    else return 0 := by
  by_cases hany : ts.isAny i blankKinds = true
  · obtain ⟨t, ht, hw⟩ := blank_iff.2 hany
    obtain ⟨e, he, hle, _, hblank, hend⟩ := wm.runEnd_eq i t ht hw
    have hspan : ts.spanEnd blankKinds i = e + 1 :=
      spanEnd_eq (by omega) (fun m hm hm' => blank_iff.1 (hblank m hm (by omega)))
        (Bool.eq_false_iff.2 fun hany => hend (blank_iff.2 hany))
    rw [if_pos hany, hspan, spaceLength, ht]
    simp only [hw, he, if_true]
  · rw [if_neg hany, spaceLength]
    split
    · next t ht => exact if_neg fun hw => hany (blank_iff.1 ⟨t, ht, hw⟩)
    · rfl

/-- White space covers the run of its tokens. -/
theorem value_spaceLength_eq (wm : ts.WellMarked) (i : Nat) :
    i + A.value (spaceLength ts i) = ts.spanEnd blankKinds i := by
  rw [spaceLength_eq wm i]
  split
  · next hany =>
    have hle := le_spanEnd ts blankKinds i
    rw [A.value_tokensBetween]
    omega
  · next hany => exact (spanEnd_eq_self (Bool.eq_false_iff.2 hany)).symm

theorem value_spaceLength (wm : ts.WellMarked) (i : Nat) :
    (ts.Blank i → 0 < A.value (spaceLength ts i) ∧
      ∀ m, i ≤ m → m < i + A.value (spaceLength ts i) → ts.Blank m) ∧
    (¬ ts.Blank i → A.value (spaceLength ts i) = 0) := by
  have hspan := value_spaceLength_eq (A := A) wm i
  constructor
  · intro hb
    have hlt := lt_spanEnd (blank_iff.1 hb)
    exact ⟨by omega, fun m hm hm' => blank_iff.2 (isAny_of_lt_spanEnd hm (by omega))⟩
  · intro hb
    rw [spaceLength_eq wm, if_neg fun hany => hb (blank_iff.2 hany), A.value_pure]

/-- One round of spacing: a run of white space, or a comment. -/
def spacingRound (ts : Tokens) (j : Nat) : Lookahead Nat :=
  spaceLength ts j <|> tokenLength ts [.blockComment, .lineComment] j

theorem value_tokenLength (ks : List Token.Kind) (i : Nat) :
    A.value (tokenLength ts ks i) = (ts.isAny i ks).toNat := rfl

/-- What spacing consists of: white space and the two sorts of comments. -/
theorem spacing_cases : ts.isAny i spacingKinds = true ↔ ts.isAny i blankKinds = true ∨
    ts.kind? i = some .blockComment ∨ ts.kind? i = some .lineComment := by
  unfold isAny
  cases ts.kind? i with
  | none => decide
  | some k => cases k <;> decide

theorem value_spacingRound_blank (wm : ts.WellMarked) (h : ts.isAny i blankKinds = true) :
    A.value (spacingRound ts i) = A.value (spaceLength ts i) := by
  have hpos := ((value_spaceLength (A := A) wm i).1 (blank_iff.2 h)).1
  rw [spacingRound, A.value_orElse, if_neg (by omega)]

theorem value_spacingRound_comment (wm : ts.WellMarked) {c : Token.Kind}
    (hc : c ∈ [Token.Kind.blockComment, .lineComment]) (h : ts.kind? i = some c) :
    A.value (spacingRound ts i) = 1 := by
  have hnb : ¬ ts.Blank i := by
    rintro ⟨t, ht, hw⟩
    rw [kind?, ht] at h
    cases h
    revert hc hw
    cases t.kind <;> decide
  rw [spacingRound, A.value_orElse, (value_spaceLength wm i).2 hnb, if_pos rfl, value_tokenLength,
    isAny_iff.2 ⟨c, hc, h⟩]
  rfl

theorem value_spacingRound_other (wm : ts.WellMarked) (h : ts.isAny i spacingKinds = false) :
    A.value (spacingRound ts i) = 0 := by
  have hno : ¬ (ts.isAny i blankKinds = true ∨ ts.kind? i = some .blockComment ∨
      ts.kind? i = some .lineComment) := fun hs => by
    rw [spacing_cases.2 hs] at h
    cases h
  have hnc : ts.isAny i [.blockComment, .lineComment] = false := Bool.eq_false_iff.2 fun hc => by
    obtain ⟨k, hk, he⟩ := isAny_iff.1 hc
    simp only [List.mem_cons, List.not_mem_nil, or_false] at hk
    rcases hk with rfl | rfl
    · exact hno (Or.inr (Or.inl he))
    · exact hno (Or.inr (Or.inr he))
  rw [spacingRound, A.value_orElse,
    (value_spaceLength wm i).2 fun hb => hno (Or.inl (blank_iff.1 hb)), if_pos rfl,
    value_tokenLength, hnc]
  rfl

theorem spacingRound_isAny (wm : ts.WellMarked) {m : Nat} (hm : j ≤ m)
    (h : m < j + A.value (spacingRound ts j)) : ts.isAny m spacingKinds = true := by
  cases hany : ts.isAny j spacingKinds with
  | false =>
    rw [value_spacingRound_other wm hany] at h
    omega
  | true =>
    rcases spacing_cases.1 hany with hb | hc | hc
    · rw [value_spacingRound_blank wm hb] at h
      exact (((value_spaceLength wm j).1 (blank_iff.2 hb)).2 m hm h).isAny
    · rw [value_spacingRound_comment wm (by decide) hc] at h
      rwa [show m = j by omega]
    · rw [value_spacingRound_comment wm (by decide) hc] at h
      rwa [show m = j by omega]

theorem spacingRound_pos (wm : ts.WellMarked) (h : ts.isAny j spacingKinds = true) :
    0 < A.value (spacingRound ts j) := by
  rcases spacing_cases.1 h with hb | hc | hc
  · rw [value_spacingRound_blank wm hb]
    exact ((value_spaceLength wm j).1 (blank_iff.2 hb)).1
  · rw [value_spacingRound_comment wm (by decide) hc]
    exact Nat.one_pos
  · rw [value_spacingRound_comment wm (by decide) hc]
    exact Nat.one_pos

theorem walkWhile_spacingRound (wm : ts.WellMarked) (i : Nat) :
    A.value (walkWhile ts.size (spacingRound ts) i) = ts.spanEnd spacingKinds i := by
  have ht := A.trail_walkWhile ts.size (spacingRound ts) i
  have hin : ∀ {i k}, Trail (fun j l => j < ts.size ∧ 0 < A.value (spacingRound ts j) ∧
      l = j + A.value (spacingRound ts j)) i k → ∀ m, i ≤ m → m < k →
      ts.isAny m spacingKinds = true := by
    intro i k h
    induction h with
    | refl i =>
      intro m him hm
      omega
    | @step i j k round lt rest ih =>
      intro m him hm
      obtain ⟨_, _, rfl⟩ := round
      rcases Nat.lt_or_ge m (i + A.value (spacingRound ts i)) with h | h
      · exact spacingRound_isAny wm him h
      · exact ih m h hm
  refine (spanEnd_eq ht.le (hin ht) ?_).symm
  rcases A.walkWhile_end (rfl : A.value (walkWhile ts.size (spacingRound ts) i) = _) with h | h
  · rw [Bool.eq_false_iff]
    intro hs
    have := lt_of_isAny hs
    omega
  · refine Bool.eq_false_iff.2 fun hs => ?_
    have := spacingRound_pos (A := A) wm hs
    omega

/-- Spacing covers the run of its tokens. -/
theorem len_spacing (wm : ts.WellMarked) (A : Reading ts capped) (i : Nat) :
    i + A.len .spacing i = ts.spanEnd spacingKinds i := by
  have hle := le_spanEnd ts spacingKinds i
  rcases Nat.lt_or_ge i ts.size with hi | hi
  · have hlen : A.len .spacing i = ts.spanEnd spacingKinds i - i := by
      rw [← walkWhile_spacingRound (A := A) wm i]
      exact (A.len_of_sole (r := .spacing) (u := ()) wm rfl hi rfl).trans (A.value_bind _ _)
    omega
  · rw [Reading.len, A.past_end _ _ hi, spanEnd, if_neg (by omega)]
    rfl

theorem spacing_pos (wm : ts.WellMarked) :
    0 < A.len .spacing i ↔ ts.isAny i spacingKinds = true := by
  have hlen := len_spacing wm A i
  constructor
  · intro h
    exact isAny_of_lt_spanEnd (Nat.le_refl i) (by omega)
  · intro h
    have hlt := lt_of_isAny h
    have hle := le_spanEnd ts spacingKinds (i + 1)
    rw [spanEnd, if_pos hlt, if_pos h] at hlen
    omega

/-- No spacing is left behind spacing. -/
theorem not_spacing_end (wm : ts.WellMarked) (A : Reading ts capped) (i : Nat) :
    ts.isAny (i + A.len .spacing i) spacingKinds = false := by
  rw [len_spacing wm A i]
  exact not_isAny_spanEnd

theorem len_spacing_eq_zero (wm : ts.WellMarked) (h : ts.isAny i spacingKinds = false) :
    A.len .spacing i = 0 := by
  refine Nat.eq_zero_of_not_pos fun hp => ?_
  rw [(spacing_pos wm).1 hp] at h
  cases h

/-- Spacing does not reach over a token of another kind. -/
theorem spacing_le (wm : ts.WellMarked) (A : Reading ts capped) (hik : i ≤ k)
    (hk : ts.isAny k spacingKinds = false) : i + A.len .spacing i ≤ k := by
  rw [len_spacing wm A i]
  rcases Nat.lt_or_ge k (ts.spanEnd spacingKinds i) with h | h
  · rw [isAny_of_lt_spanEnd hik h] at hk
    cases hk
  · exact h

theorem spacing_balanced (wm : ts.WellMarked) (A : Reading ts capped) (i : Nat) :
    ts.Balanced i (i + A.len .spacing i) := by
  have hlen := len_spacing wm A i
  have hks : ∀ k ∈ spacingKinds, k.isPlain = true := by decide
  exact balanced_run (Nat.le_add_right i _) hks fun m him hm =>
    isAny_of_lt_spanEnd him (by omega)

/-! ## What is built -/

/-- One round of spacing, as the builder takes it before a token of kind `k`. -/
def spacingChunk (ts : Tokens) (k : Option Token.Kind) : Builder Chunk :=
  match k with
  | some .space | some .tab | some .newline => do return ⟨[← spaceNode ts], true⟩
  | some .blockComment => do return ⟨[← blockCommentNode ts], true⟩
  | some .lineComment => do return ⟨[← lineCommentNode ts], true⟩
  | _ => return ⟨[], false⟩

theorem spacingChunk_of_other (h : ts.isAny i spacingKinds = false) :
    spacingChunk ts (ts.kind? i) = return ⟨[], false⟩ := by
  have hno : ∀ k ∈ spacingKinds, ts.kind? i ≠ some k := by
    intro k hk he
    rw [isAny_iff.2 ⟨k, hk, he⟩] at h
    cases h
  unfold spacingChunk
  split
  · next hk => exact absurd hk (hno _ (by decide))
  · next hk => exact absurd hk (hno _ (by decide))
  · next hk => exact absurd hk (hno _ (by decide))
  · next hk => exact absurd hk (hno _ (by decide))
  · next hk => exact absurd hk (hno _ (by decide))
  · rfl

theorem spacingChunk_of_blank (h : ts.isAny i blankKinds = true) :
    spacingChunk ts (ts.kind? i) = do return ⟨[← spaceNode ts], true⟩ := by
  obtain ⟨k, hk, he⟩ := isAny_iff.1 h
  simp only [blankKinds, List.mem_cons, List.not_mem_nil, or_false] at hk
  rw [he]
  rcases hk with rfl | rfl | rfl <;> rfl

theorem spaceNode_gives (wm : ts.WellMarked) (h : 0 < A.value (spaceLength ts i)) :
    Gives A (spaceNode ts) i (i + A.value (spaceLength ts i)) := by
  obtain ⟨hblank, hnot⟩ := value_spaceLength (A := A) wm i
  have hb : ts.Blank i := Classical.byContradiction fun hn => absurd (hnot hn) (by omega)
  refine gives_leafOf ⟨rfl, rfl⟩ h (spaceLength_measures (s := .top) wm) (Or.inr fun _ => ?_)
  have hks : ∀ k ∈ spacingKinds, k.isPlain = true := by decide
  exact balanced_run (Nat.le_add_right i _) hks fun m him hm =>
    ((hblank hb).2 m him hm).isAny

theorem blockCommentNode_gives (h : ts.is i .blockComment = true) :
    Gives A (blockCommentNode ts) i (i + 1) :=
  fun _ _ _ => runs_cursor.2 (runs_skip.2 (runs_make (.blockComment h)))

theorem lineCommentNode_gives (h : ts.is i .lineComment = true) :
    Gives A (lineCommentNode ts) i (i + 1) :=
  fun _ _ _ => runs_cursor.2 (runs_skip.2 (runs_make (.lineComment h)))

/-- The builder of spacing makes nodes of the whole run. -/
theorem spacingNodes_gives (wm : ts.WellMarked) (A : Reading ts capped) (i : Nat) :
    GivesAll A (spacingNodes ts) i (i + A.len .spacing i) := by
  rw [len_spacing wm A i, ← walkWhile_spacingRound (A := A) wm i]
  refine givesAll_collectWhile fun j E lo hc => runs_cursor.2 ?_
  change (spacingChunk ts (ts.kind? j)).Runs A E lo j _
  cases hany : ts.isAny j spacingKinds with
  | false =>
    rw [spacingChunk_of_other hany, value_spacingRound_other wm hany]
    exact givesRound_none E lo hc
  | true =>
    rcases spacing_cases.1 hany with hb | hk | hk
    · have hpos := ((value_spaceLength (A := A) wm j).1 (blank_iff.2 hb)).1
      rw [spacingChunk_of_blank hb, value_spacingRound_blank wm hb]
      exact (spaceNode_gives wm hpos).round hpos E lo hc
    · rw [value_spacingRound_comment wm (by decide) hk, hk]
      exact (blockCommentNode_gives (is_iff.2 hk)).round Nat.one_pos E lo hc
    · rw [value_spacingRound_comment wm (by decide) hk, hk]
      exact (lineCommentNode_gives (is_iff.2 hk)).round Nat.one_pos E lo hc

end LessCss
