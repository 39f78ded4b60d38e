import LessCss.Proofs.Head

/-! Names, literals and values where a stream ends. What ends in the shorter stream is the same there.
A name that goes on in the longer one breaks off: it ends where the shorter stream does, at the mark
of an interpolation that is not closed there, or it is none. -/

namespace LessCss

open Lookahead Grammar Tokens

/-- Here the stream ends, or the mark of a variable stands. -/
def Tokens.Broken (ts : Tokens) (e : Nat) : Prop := ts.size ≤ e ∨ ts.is e .atSign = true

/-- What covers `a` tokens from token `i` is nothing or breaks off. -/
def Tokens.BreaksOff (ts : Tokens) (i a : Nat) : Prop := a = 0 ∨ ts.Broken (i + a)

variable {ts ts' : Tokens} {A : Reading ts false} {B : Reading ts' false} {i j : Nat}
  {k : Token.Kind} {ks : List Token.Kind}

namespace Tokens.Broken

variable {e : Nat} (hb : ts.Broken e)
include hb

theorem is_eq (hk : k ≠ .atSign) : ts.is e k = false := by
  refine Bool.eq_false_iff.2 fun h => ?_
  rcases hb with he | he
  · exact Nat.not_lt.2 he (lt_of_is h)
  · exact hk (eq_of_is h he)

theorem isAny_eq (hks : .atSign ∉ ks) : ts.isAny e ks = false := by
  refine Bool.eq_false_iff.2 fun h => ?_
  obtain ⟨k, hk, he⟩ := isAny_iff.1 h
  have := hb.is_eq fun hat : k = .atSign => hks (hat ▸ hk)
  rw [is_iff.2 he] at this
  cases this

theorem spacing_eq (wm : ts.WellMarked) : A.len .spacing e = 0 :=
  len_spacing_eq_zero wm (hb.isAny_eq (by decide))

theorem closer?_eq (hk : k ≠ .atSign) : ts.closer? e k = none :=
  closer?_eq_none (hb.is_eq hk)

theorem ident_eq (wm : ts.WellMarked) : A.len .ident e = 0 := by
  refine Nat.eq_zero_of_not_pos fun hpos => ?_
  have hhead := ident_head wm hpos
  rw [hb.isAny_eq (by decide)] at hhead
  cases hhead

end Tokens.Broken

/-! ## Rules put together -/

theorem len_interpolation (wm : ts.WellMarked) (hat : ts.is i .atSign = true)
    (hcurly : ts.is (i + 1) .leftCurly = true) (hpos : 0 < A.len .ident (i + 2))
    (hclose : ts.is (i + 2 + A.len .ident (i + 2)) .rightCurly = true) :
    A.len .interpolation i = A.len .ident (i + 2) + 3 := by
  rw [A.len_of_sole (r := .interpolation) (u := ()) wm rfl (lt_of_is hat) rfl]
  simp [interpolationLength, hat, hcurly, hpos, hclose]

/-- A name starts with no other token. -/
theorem len_ident_of_is (wm : ts.WellMarked) (his : ts.is i k = true) (hk : k ∉ nameHeads) :
    A.len .ident i = 0 := by
  refine Nat.eq_zero_of_not_pos fun hpos => ?_
  obtain ⟨l, hl, he⟩ := isAny_iff.1 (ident_head wm hpos)
  rw [is_iff, he] at his
  exact hk (Option.some.inj his ▸ hl)

theorem unitLength_eq (ts : Tokens) (i : Nat) : unitLength ts i =
    if ts.is i .identifier then 1
    else if ts.is i .digits then if ts.is (i + 1) .identifier then 2 else 1 else 0 := by
  have his : ∀ k, ts.is i k = true ↔ ts.kind? i = some k := fun _ => is_iff
  unfold unitLength
  grind

theorem value_dimensionLength (A : Reading ts false) (i : Nat) : A.value (dimensionLength ts i) =
    if A.len .number i = 0 then 0
    else lengthen (unitLength ts (i + A.len .number i)) (A.len .number i) := rfl

theorem value_percentageLength (A : Reading ts false) (i : Nat) : A.value (percentageLength ts i) =
    if 0 < A.len .number i && ts.is (i + A.len .number i) .percent then A.len .number i + 1
    else 0 := rfl

/-- If the shorter stream ends behind three dots that follow a variable at token `i`, there are no
further ones. -/
def Reading.DotsEnd (B : Reading ts' false) (ts : Tokens) (i : Nat) : Prop :=
  0 < B.len .var i → ts.size = i + B.len .var i + 3 →
    ts'.spanEnd [.dot] (i + B.len .var i) ≤ ts.size

section
variable (h : ts.Head ts')
include h

/-! ## Spacing -/

theorem spacing_eq_min (hi : i ≤ ts.size) :
    i + A.len .spacing i = min (i + B.len .spacing i) ts.size := by
  rw [len_spacing h.left.wm A i, len_spacing h.right.wm B i, h.spanEnd_eq spacingKinds hi]

theorem spacing_keeps (i : Nat) : A.Keeps B .spacing i := by
  refine Reading.keeps_of_sole (r := .spacing) (u := ()) h rfl rfl fun hi hle => ?_
  have hlen := A.len_of_sole (r := .spacing) (u := ()) h.left.wm rfl hi rfl
  have hlen' := B.len_of_sole (r := .spacing) (u := ()) h.right.wm rfl (h.lt_size hi) rfl
  have := spacing_eq_min (A := A) (B := B) h (Nat.le_of_lt hi)
  omega

/-- Spacing that goes on in the longer stream ends where the shorter one does. -/
theorem spacing_broken (hi : i ≤ ts.size) (hlt : ts.size < i + B.len .spacing i) :
    ts.Broken (i + A.len .spacing i) := by
  have := spacing_eq_min (A := A) (B := B) h hi
  exact Or.inl (by omega)

/-- What a rule says behind spacing, if it ends in the shorter stream where it covers something. -/
theorem tell_after_spacing {r : Rule} (hi : i ≤ ts.size)
    (hk : i + B.len .spacing i ≤ ts.size → A.Keeps B r (i + B.len .spacing i))
    (hle : 0 < B.len r (i + B.len .spacing i) →
      i + B.len .spacing i + B.len r (i + B.len .spacing i) ≤ ts.size) :
    A.tell r (i + A.len .spacing i) = B.tell r (i + B.len .spacing i) := by
  have hend := spacing_eq_min (A := A) (B := B) h hi
  rcases Nat.lt_or_ge ts.size (i + B.len .spacing i) with hover | hfits
  · rw [A.past_end r _ (by omega), B.tell_eq_none (by omega)]
  · rw [(spacing_keeps (A := A) (B := B) h i).len hfits]
    exact hk hfits (by omega)

theorem len_after_spacing {r : Rule} (hi : i ≤ ts.size)
    (hk : i + B.len .spacing i ≤ ts.size → A.Keeps B r (i + B.len .spacing i))
    (hle : 0 < B.len r (i + B.len .spacing i) →
      i + B.len .spacing i + B.len r (i + B.len .spacing i) ≤ ts.size) :
    A.len r (i + A.len .spacing i) = B.len r (i + B.len .spacing i) :=
  congrArg Answer.length (tell_after_spacing h hi hk hle)

theorem space_kept (i : Nat) :
    ts.Kept i (A.value (spaceLength ts i)) (B.value (spaceLength ts' i)) := by
  intro hle
  have hspan := value_spaceLength_eq (A := A) h.left.wm i
  have hspan' := value_spaceLength_eq (A := B) h.right.wm i
  have := h.spanEnd_eq blankKinds (show i ≤ ts.size by omega)
  omega

/-! ## Names -/

/-- What holds of an interpolated name at token `i`: it is kept, and there is none in the shorter
stream that is not the same in the longer one. -/
structure InterpolationKept (A : Reading ts false) (B : Reading ts' false) (i : Nat) : Prop where
  keeps : A.Keeps B .interpolation i
  found : 0 < A.len .interpolation i → A.len .interpolation i = B.len .interpolation i

/-- What holds of a name at token `i`: it is kept, or breaks off. -/
structure IdentKept (A : Reading ts false) (B : Reading ts' false) (i : Nat) : Prop where
  keeps : A.Keeps B .ident i
  broken : ts.size < i + B.len .ident i → ts.BreaksOff i (A.len .ident i)

omit h in
theorem identEnd_of_named (B : Reading ts' false) (j : Nat) :
    (B.value (identEnd ts' true j)).1 = true := by
  generalize hn : ts'.size - j = n
  induction n using Nat.strongRecOn generalizing j with
  | ind n ih =>
    rcases identEnd_cases B true j with ⟨k, _, his, _, he⟩ | ⟨_, he⟩
    · have hlt := lt_of_is his
      rw [he, Bool.or_true]
      exact ih _ (by omega) _ rfl
    · rw [he]

omit h in
theorem le_identEnd (A : Reading ts false) (named : Bool) (j : Nat) :
    j + A.len .interpolation j ≤ (A.value (identEnd ts named j)).2 := by
  generalize hn : ts.size - j = n
  induction n using Nat.strongRecOn generalizing named j with
  | ind n ih =>
    rcases identEnd_cases A named j with ⟨k, _, his, _, he⟩ | ⟨_, he⟩
    · have hlt := lt_of_is his
      rw [he]
      have := ih (ts.size - (j + A.len .interpolation j + 1)) (by omega) (k == .identifier || named)
        (j + A.len .interpolation j + 1) rfl
      omega
    · rw [he]

omit h in
/-- A name that breaks off stops there. -/
theorem identEnd_of_broken (hb : ts.Broken (j + A.len .interpolation j)) (named : Bool) :
    A.value (identEnd ts named j) = (named, j + A.len .interpolation j) := by
  have hplain : ∀ k ∈ Ident.plain, k ≠ .atSign := by decide
  rcases identEnd_cases A named j with ⟨k, hk, his, _⟩ | ⟨_, he⟩
  · rw [hb.is_eq (hplain k hk)] at his
    cases his
  · exact he

omit h in
/-- Where the same token follows what is interpolated, both names go on with it, or both stop. -/
theorem identEnd_both (named : Bool)
    (his : ∀ k, ts'.is (j + B.len .interpolation j) k = ts.is (j + A.len .interpolation j) k) :
    (∃ k : Token.Kind, A.value (identEnd ts named j) =
        A.value (identEnd ts (k == .identifier || named) (j + A.len .interpolation j + 1)) ∧
      B.value (identEnd ts' named j) =
        B.value (identEnd ts' (k == .identifier || named) (j + B.len .interpolation j + 1))) ∨
    A.value (identEnd ts named j) = (named, j + A.len .interpolation j) ∧
      B.value (identEnd ts' named j) = (named, j + B.len .interpolation j) := by
  rcases identEnd_cases B named j with ⟨k, hk, hki, hd, he⟩ | ⟨hno, he⟩
  · rcases identEnd_cases A named j with ⟨k', hk', hki', _, he'⟩ | ⟨hno', _⟩
    · obtain rfl := eq_of_is hki ((his k').trans hki')
      exact Or.inl ⟨k, he', he⟩
    · obtain ⟨hdigits, hnot⟩ := hno' k hk ((his k).symm.trans hki)
      rw [hd hdigits] at hnot
      cases hnot
  · rcases identEnd_cases A named j with ⟨k', hk', hki', hd', _⟩ | ⟨_, he'⟩
    · obtain ⟨hdigits, hnot⟩ := hno k' hk' ((his k').trans hki')
      rw [hd' hdigits] at hnot
      cases hnot
    · exact Or.inr ⟨he', he⟩

/-- The rest of a name is kept, or it breaks off and then has an identifier only if the name goes on
with one. -/
theorem identEnd_kept (named : Bool) (hin : ∀ l, j ≤ l → InterpolationKept A B l)
    (hj : j ≤ ts.size) :
    ((B.value (identEnd ts' named j)).2 ≤ ts.size →
      A.value (identEnd ts named j) = B.value (identEnd ts' named j)) ∧
    (ts.size < (B.value (identEnd ts' named j)).2 →
      ((A.value (identEnd ts named j)).1 = true → (B.value (identEnd ts' named j)).1 = true) ∧
        ts.Broken (A.value (identEnd ts named j)).2) := by
  generalize hn : ts.size - j = n
  induction n using Nat.strongRecOn generalizing named j with
  | ind n ih =>
    obtain ⟨hkeeps, hfound⟩ := hin j (Nat.le_refl j)
    have hend := le_identEnd B named j
    have hlate : ts.Broken (j + A.len .interpolation j) →
        ((A.value (identEnd ts named j)).1 = true → (B.value (identEnd ts' named j)).1 = true) ∧
          ts.Broken (A.value (identEnd ts named j)).2 := by
      intro hb
      rw [identEnd_of_broken hb]
      refine ⟨?_, hb⟩
      rintro rfl
      exact identEnd_of_named B j
    rcases Nat.lt_or_ge ts.size (j + B.len .interpolation j) with hover | hfits
    · -- the interpolated part goes on behind the shorter stream
      have hz : A.len .interpolation j = 0 := Nat.eq_zero_of_not_pos fun hpos => by
        have hle := A.len_le hpos
        rw [hfound hpos] at hle
        omega
      have hat := (interpolation_cases h.right.wm (show 0 < B.len .interpolation j by omega)).1
      have hbroken : ts.Broken (j + A.len .interpolation j) := by
        rw [hz]
        rcases Nat.eq_or_lt_of_le hj with rfl | hlt
        · exact Or.inl (Nat.le_refl _)
        · exact Or.inr ((h.is_eq hlt _).symm.trans hat)
      exact ⟨fun hle => by omega, fun _ => hlate hbroken⟩
    · have hlen := (Reading.Keeps.len hkeeps) hfits
      rcases Nat.eq_or_lt_of_le hfits with hsize | hlt
      · -- the shorter stream ends here
        have hbroken : ts.Broken (j + A.len .interpolation j) := Or.inl (by omega)
        refine ⟨fun hle => ?_, fun _ => hlate hbroken⟩
        rcases identEnd_cases B named j with ⟨k, _, _, _, he⟩ | ⟨_, he⟩
        · have := le_identEnd B (k == .identifier || named) (j + B.len .interpolation j + 1)
          rw [he] at hle
          omega
        · rw [identEnd_of_broken hbroken, he, hlen]
      · have his : ∀ k, ts'.is (j + B.len .interpolation j) k =
            ts.is (j + A.len .interpolation j) k := fun k => by rw [hlen, h.is_eq hlt]
        rcases identEnd_both named his with ⟨k, he, he'⟩ | ⟨he, he'⟩
        · rw [he, he', hlen]
          exact ih _ (by omega) _ (fun l hl => hin l (by omega)) hlt rfl
        · rw [he, he', hlen]
          exact ⟨fun _ => rfl, fun hover => by dsimp only at hover; omega⟩

theorem identLength_kept (hi : i < ts.size) (hin : ∀ l, i < l → InterpolationKept A B l) :
    ts.Kept i (A.value (identLength ts i)) (B.value (identLength ts' i)) ∧
      (ts.size < i + B.value (identLength ts' i) → ts.BreaksOff i (A.value (identLength ts i))) := by
  unfold identLength
  rw [h.kind?_eq hi]
  split
  · have he := h.spanEnd_eq [.minus, .digits, .underscore, .identifier] (show i + 1 ≤ ts.size from hi)
    have hle := le_spanEnd ts' [.minus, .digits, .underscore, .identifier] (i + 1)
    rw [A.value_tokensBetween, B.value_tokensBetween]
    exact ⟨fun _ => by omega, fun _ => Or.inr (Or.inl (by omega))⟩
  · next k _ hk =>
    split
    · obtain ⟨hkept, hbroken⟩ := identEnd_kept h (k == .identifier) (fun l hl => hin l hl) hi
      have hle := le_identEnd A (k == .identifier) (i + 1)
      have hle' := le_identEnd B (k == .identifier) (i + 1)
      rw [A.value_bind, B.value_bind]
      generalize A.value (identEnd ts (k == .identifier) (i + 1)) = x at *
      generalize B.value (identEnd ts' (k == .identifier) (i + 1)) = x' at *
      obtain ⟨named, stop⟩ := x
      obtain ⟨named', stop'⟩ := x'
      dsimp only at hkept hbroken hle hle' ⊢
      rcases Nat.lt_or_ge ts.size stop' with hover | hfits
      · -- the name goes on, and has an identifier if the part of it has one
        obtain ⟨hnamed, hb⟩ := hbroken hover
        split
        · next hn =>
          have hn' : (named' || k == .asterisk) = true := by
            rw [Bool.or_eq_true] at hn ⊢
            exact hn.imp_left hnamed
          rw [if_pos hn', A.value_tokensBetween, B.value_tokensBetween]
          refine ⟨fun hle => by omega, fun _ => Or.inr ?_⟩
          rwa [show i + (stop - i) = stop by omega]
        · refine ⟨fun hle => ?_, fun _ => Or.inl rfl⟩
          split at hle
          · rw [B.value_tokensBetween] at hle
            omega
          · next hn' => rw [if_neg hn']
                        rfl
      · obtain ⟨rfl, rfl⟩ := Prod.mk.inj (hkept hfits)
        split
        · rw [A.value_tokensBetween, B.value_tokensBetween]
          exact ⟨fun _ => rfl, fun hover => by omega⟩
        · exact ⟨fun _ => rfl, fun hover => Or.inl rfl⟩
    · exact ⟨fun _ => rfl, fun _ => Or.inl rfl⟩
  · exact ⟨fun _ => rfl, fun _ => Or.inl rfl⟩

theorem interpolation_kept (hname : IdentKept A B (i + 2)) : InterpolationKept A B i := by
  have hfound : 0 < A.len .interpolation i → A.len .interpolation i = B.len .interpolation i := by
    intro hpos
    obtain ⟨hat, hcurly, hn, hclose, hlen⟩ := interpolation_cases h.left.wm hpos
    have hlt := lt_of_is hclose
    have hfits : i + 2 + B.len .ident (i + 2) ≤ ts.size := Nat.le_of_not_lt fun hover => by
      rcases hname.broken hover with hz | hb
      · omega
      · rw [hb.is_eq (by decide)] at hclose
        cases hclose
    have hname' := hname.keeps.len hfits
    rw [hname'] at hn hclose hlen
    rw [hlen, len_interpolation h.right.wm (h.is_of_is hat) (h.is_of_is hcurly) hn
      (h.is_of_is hclose)]
  refine ⟨Reading.keeps_of_len (kept_of_pos (fun hpos => hfound hpos ▸ hpos) fun hpos hle => ?_),
    hfound⟩
  obtain ⟨hat, hcurly, hn, hclose, hlen⟩ := interpolation_cases h.right.wm hpos
  have hname' := hname.keeps.len (show i + 2 + B.len .ident (i + 2) ≤ ts.size by omega)
  rw [h.is_eq (by omega)] at hat hcurly hclose
  rw [← hname'] at hn hclose hlen
  rw [hlen, len_interpolation h.left.wm hat hcurly hn hclose]

theorem names_kept (i : Nat) : IdentKept A B i ∧ InterpolationKept A B i := by
  generalize hn : ts.size - i = n
  induction n using Nat.strongRecOn generalizing i with
  | ind n ih =>
    have hname : IdentKept A B i := by
      refine ⟨Reading.keeps_of_sole (r := .ident) (u := ()) h rfl rfl fun hi => ?_, fun hover => ?_⟩
      · exact (identLength_kept h hi fun l hl => (ih _ (by omega) l rfl).2).1
      · rcases Nat.lt_or_ge i ts.size with hi | hi
        · have hlen := A.len_of_sole (r := .ident) (u := ()) h.left.wm rfl hi rfl
          have hlen' := B.len_of_sole (r := .ident) (u := ()) h.right.wm rfl (h.lt_size hi) rfl
          rw [hlen]
          rw [hlen'] at hover
          exact (identLength_kept h hi fun l hl => (ih _ (by omega) l rfl).2).2 hover
        · exact Or.inl (A.len_past_end hi)
    refine ⟨hname, ?_⟩
    rcases Nat.lt_or_ge i ts.size with hi | hi
    · exact interpolation_kept h (ih _ (by omega) (i + 2) rfl).1
    · have hz : A.len .interpolation i = 0 := A.len_past_end hi
      refine ⟨Reading.keeps_of_body h fun hi' => absurd hi' (Nat.not_lt.2 hi), fun hpos => ?_⟩
      omega

theorem ident_keeps (i : Nat) : A.Keeps B .ident i := (names_kept h i).1.keeps

theorem ident_breaksOff (hover : ts.size < i + B.len .ident i) :
    ts.BreaksOff i (A.len .ident i) := (names_kept h i).1.broken hover

theorem interpolation_keeps (i : Nat) : A.Keeps B .interpolation i := (names_kept h i).2.keeps

/-! ## Numbers -/

theorem number_keeps (i : Nat) : A.Keeps B .number i := by
  refine Reading.keeps_of_sole (r := .number) (u := ()) h rfl rfl fun hi hle => ?_
  simp only [numberLength, A.value_pure, B.value_pure, h.is_cut] at hle ⊢
  grind

theorem number_breaksOff (hover : ts.size < i + B.len .number i) :
    ts.BreaksOff i (A.len .number i) := by
  rcases Nat.eq_zero_or_pos (A.len .number i) with hz | hpos
  · exact Or.inl hz
  refine Or.inr (Or.inl (Nat.le_of_not_lt fun hlt => ?_))
  have hcases := number_cases h.left.wm hpos
  have hcases' := number_cases (A := B) (i := i) h.right.wm (by omega)
  simp only [h.is_cut] at hcases
  grind

theorem unitLength_kept (i : Nat) : ts.Kept i (unitLength ts i) (unitLength ts' i) := by
  intro hle
  rw [unitLength_eq] at hle
  rw [unitLength_eq, unitLength_eq]
  simp only [h.is_cut]
  grind

theorem dimension_kept (i : Nat) :
    ts.Kept i (A.value (dimensionLength ts i)) (B.value (dimensionLength ts' i)) := by
  intro hle
  rw [value_dimensionLength] at hle
  rw [value_dimensionLength, value_dimensionLength]
  rcases Nat.lt_or_ge ts.size (i + B.len .number i) with hover | hfits
  · have hno : A.len .number i = 0 ∨ unitLength ts (i + A.len .number i) = 0 :=
      (number_breaksOff h hover).imp_right fun hb => by
        rw [unitLength_eq, hb.is_eq (by decide), hb.is_eq (by decide)]
        rfl
    unfold lengthen at *
    grind
  · have hnumber := (number_keeps (A := A) (B := B) h i).len hfits
    have hunit := unitLength_kept h (i + B.len .number i)
    rw [hnumber]
    unfold lengthen Kept at *
    grind

theorem percentage_kept (i : Nat) :
    ts.Kept i (A.value (percentageLength ts i)) (B.value (percentageLength ts' i)) := by
  intro hle
  rw [value_percentageLength] at hle
  rw [value_percentageLength, value_percentageLength]
  rcases Nat.lt_or_ge ts.size (i + B.len .number i) with hover | hfits
  · have hno : A.len .number i = 0 ∨ ts.is (i + A.len .number i) .percent = false :=
      (number_breaksOff h hover).imp_right fun hb => hb.is_eq (by decide)
    grind
  · have hnumber := (number_keeps (A := A) (B := B) h i).len hfits
    rw [hnumber, h.is_cut]
    grind

theorem color_kept (i : Nat) :
    ts.Kept i (A.value (colorLength ts i)) (B.value (colorLength ts' i)) := by
  intro hle
  have hunit := unitLength_kept h (i + 1)
  simp only [colorLength, A.value_pure, B.value_pure, h.is_cut] at hle ⊢
  unfold lengthen Kept at *
  grind

/-! ## Tokens -/

theorem token_kept (ks : List Token.Kind) (i : Nat) :
    ts.Kept i (A.value (tokenLength ts ks i)) (B.value (tokenLength ts' ks i)) := by
  intro hle
  rw [value_tokenLength] at hle
  rw [value_tokenLength, value_tokenLength, h.isAny_cut]
  unfold Bool.toNat at *
  grind

theorem escapedString_kept (i : Nat) :
    ts.Kept i (A.value (escapedStringLength ts i)) (B.value (escapedStringLength ts' i)) := by
  intro hle
  simp only [escapedStringLength, A.value_pure, B.value_pure, h.is_cut, h.isAny_cut] at hle ⊢
  grind

theorem important_keeps (i : Nat) : A.Keeps B .important i := by
  refine Reading.keeps_of_sole (r := .important) (u := ()) h rfl rfl fun hi hle => ?_
  have hspacing := spacing_eq_min (A := A) (B := B) h (i := i + 1) hi
  simp only [importantLength, A.value_bind, B.value_bind, A.value_pure, B.value_pure, h.is_cut,
    h.text_cut, apply_ite A.value, apply_ite B.value, A.value_lengthOf, B.value_lengthOf] at hle ⊢
  have hword : ("" == "important") = false := by decide
  grind

/-! ## Variables and what stands behind a mark -/

omit h in
theorem value_varLength (A : Reading ts false) (i : Nat) : A.value (varLength ts i) =
    if (!ts.is i .atSign || (2 ≤ i && ts.is (i - 1) .atSign && ts.is (i - 2) .atSign)) = true then 0
    else lengthen (if A.len .var (i + 1) = 0 then A.len .ident (i + 1) else A.len .var (i + 1)) 1 := by
  unfold varLength
  split
  · rfl
  · rw [A.value_bind, A.value_orElse]
    rfl

/-- The mark of a variable at token `i` breaks off what comes to it. -/
theorem broken_of_is (hat : ts'.is i .atSign = true) : ts.Broken i := by
  rcases Nat.lt_or_ge i ts.size with hi | hi
  · exact Or.inr (h.is_eq hi _ ▸ hat)
  · exact Or.inl hi

theorem var_kept (i : Nat) : ts.Kept i (A.len .var i) (B.len .var i) ∧
    (ts.size < i + B.len .var i → ts.BreaksOff i (A.len .var i)) := by
  generalize hn : ts.size - i = n
  induction n using Nat.strongRecOn generalizing i with
  | ind n ih =>
    rcases Nat.lt_or_ge i ts.size with hi | hi
    · have hnext := ih _ (by omega) (i + 1) rfl
      have hname := (ident_keeps (A := A) (B := B) h (i + 1)).len
      have hname' := ident_breaksOff (A := A) (B := B) h (i := i + 1)
      have hmark : 0 < B.len .var (i + 1) → A.len .ident (i + 1) = 0 := fun hpos =>
        (broken_of_is h (var_cases h.right.wm hpos).1).ident_eq h.left.wm
      have hlen := A.len_of_sole (r := .var) (u := ()) h.left.wm rfl hi rfl
      have hlen' := B.len_of_sole (r := .var) (u := ()) h.right.wm rfl (h.lt_size hi) rfl
      rw [value_varLength] at hlen hlen'
      simp only [h.is_cut] at hlen
      unfold lengthen Kept BreaksOff at *
      grind
    · have hz : A.len .var i = 0 := A.len_past_end hi
      exact ⟨fun hle => by omega, fun _ => Or.inl hz⟩

theorem var_keeps (i : Nat) : A.Keeps B .var i := Reading.keeps_of_len (var_kept h i).1

theorem var_breaksOff (hover : ts.size < i + B.len .var i) : ts.BreaksOff i (A.len .var i) :=
  (var_kept h i).2 hover

/-- A list of variables is kept, unless further dots follow behind the shorter stream. -/
theorem varList_kept (hdots : B.DotsEnd ts i) :
    ts.Kept i (A.value (varListLength ts i)) (B.value (varListLength ts' i)) := by
  intro hle
  have hvar := (var_keeps (A := A) (B := B) h i).len
  have hge := le_spanEnd ts' [.dot] (i + B.len .var i)
  have hspan := h.spanEnd_eq [.dot] (i := i + B.len .var i)
  have hover : ts.size < i + B.len .var i →
      A.len .var i = 0 ∨ ts.spanEnd [.dot] (i + A.len .var i) = i + A.len .var i := fun hover =>
    (var_breaksOff h hover).imp_right fun hb => spanEnd_eq_self (hb.isAny_eq (by decide))
  unfold Reading.DotsEnd at hdots
  simp only [varListLength, A.value_bind, B.value_bind, A.value_lengthOf, B.value_lengthOf,
    A.value_pure, B.value_pure] at hle ⊢
  unfold Kept at *
  grind

theorem atKeyword_kept (i : Nat) :
    ts.Kept i (A.value (atKeywordLength ts i)) (B.value (atKeywordLength ts' i)) := by
  intro hle
  have hname := (ident_keeps (A := A) (B := B) h (i + 1)).len
  simp only [atKeywordLength, A.value_bind, B.value_bind, A.value_pure, B.value_pure, h.is_cut,
    apply_ite A.value, apply_ite B.value, A.value_lengthOf, B.value_lengthOf] at hle ⊢
  unfold lengthen Kept at *
  grind

theorem atKeyword_breaksOff (hover : ts.size < i + B.value (atKeywordLength ts' i)) :
    ts.BreaksOff i (A.value (atKeywordLength ts i)) := by
  have hname := ident_breaksOff (A := A) (B := B) h (i := i + 1)
  simp only [atKeywordLength, A.value_bind, B.value_bind, A.value_pure, B.value_pure, h.is_cut,
    apply_ite A.value, apply_ite B.value, A.value_lengthOf, B.value_lengthOf] at hover ⊢
  unfold lengthen BreaksOff at *
  grind

theorem name_kept (hi : i ≤ ts.size)
    (hle : ∀ m, B.value (nameMatch i) = some m → i + m.length ≤ ts.size) :
    A.value (nameMatch i) = B.value (nameMatch i) :=
  kept_firstOf hi (.cons ⟨rfl, (interpolation_keeps h i).len⟩
    (.cons ⟨rfl, (ident_keeps h i).len⟩ .nil)) hle

theorem markedName_kept {mark : Token.Kind} (hi : i < ts.size)
    (hle : ∀ m, B.value (markedNameMatch ts' mark i) = some m → i + m.length ≤ ts.size) :
    A.value (markedNameMatch ts mark i) = B.value (markedNameMatch ts' mark i) := by
  unfold markedNameMatch at *
  rw [h.is_eq hi] at *
  split
  · next his =>
    have hname : A.value (nameMatch (i + 1)) = B.value (nameMatch (i + 1)) :=
      name_kept h hi fun m hm => by
        have := hle (m.lengthen 1) (by rw [if_pos his, B.value_bind, hm]; rfl)
        simp only [Match.lengthen] at this
        omega
    rw [A.value_bind, A.value_pure, B.value_bind, B.value_pure, hname]
  · rfl

theorem classSelector_keeps (i : Nat) : A.Keeps B .classSelector i :=
  Reading.keeps_of_body h fun hi hle => markedName_kept h hi hle

theorem idSelector_keeps (i : Nat) : A.Keeps B .idSelector i :=
  Reading.keeps_of_body h fun hi hle => markedName_kept h hi hle

theorem classOrId_kept (i : Nat) :
    ts.Kept i (A.value (classOrIdLength i)) (B.value (classOrIdLength i)) :=
  kept_orElse (classSelector_keeps h i).len (idSelector_keeps h i).len

/-! ## Groups -/

/-- Where a name goes on behind the shorter stream, nothing but a name is there, or where it breaks
off. -/
theorem ident_over (hover : ts.size < i + B.len .ident i) (hks : ∀ k ∈ ks, k ∉ .atSign :: nameHeads) :
    ts.isAny (i + A.len .ident i) ks = false := by
  rcases ident_breaksOff h hover with hz | hb
  · rw [hz, Nat.add_zero, h.isAny_cut, Bool.and_eq_false_imp, decide_eq_true_iff]
    exact fun hi => not_isAny_of_isAny (ident_head (A := B) h.right.wm (by omega))
      fun k hk hk' => hks k hk' (List.mem_cons_of_mem _ hk)
  · exact hb.isAny_eq fun hat => hks _ hat List.mem_cons_self

omit h in
theorem is_of_not_isAny (hks : ts.isAny i ks = false) (hk : k ∈ ks) : ts.is i k = false :=
  Bool.eq_false_iff.2 fun his => Bool.false_ne_true (hks.symm.trans (isAny_of_is his hk))

omit h in
theorem closer?_of_not_isAny (hks : ts.isAny i ks = false) (hk : k ∈ ks) : ts.closer? i k = none :=
  closer?_eq_none (is_of_not_isAny hks hk)

/-- The opener `k` at token `j` of the shorter stream has the closer that it has at token `j'` of
the longer one, if that is not left out. -/
def SameCloser (ts ts' : Tokens) (k : Token.Kind) (j j' : Nat) : Prop :=
  ∀ c, ts.closer? j k = some c ↔ ts'.closer? j' k = some c ∧ c < ts.size

theorem sameCloser (hk : k.opens?.isSome = true) (j : Nat) : SameCloser ts ts' k j j :=
  fun _ => h.closer?_iff hk

/-- Behind the shorter stream there are no closers. -/
theorem sameCloser_over (hj : ts.size ≤ j) (hno : ts.closer? i k = none) :
    SameCloser ts ts' k i j := by
  intro c
  rw [hno]
  refine ⟨fun hc => (Option.noConfusion rfl (heq_of_eq hc)), fun ⟨hc, hlt⟩ => ?_⟩
  have := (h.right.wm.closer_lt hc).1
  omega

theorem sameCloser_spacing (hk : k.opens?.isSome = true) (hi : i ≤ ts.size) :
    SameCloser ts ts' k (i + A.len .spacing i) (i + B.len .spacing i) := by
  rcases Nat.lt_or_ge ts.size (i + B.len .spacing i) with hover | hfits
  · refine sameCloser_over h (Nat.le_of_lt hover) ((spacing_broken h hi hover).closer?_eq ?_)
    rintro rfl
    cases hk
  · rw [(spacing_keeps (A := A) (B := B) h i).len hfits]
    exact sameCloser h hk _

theorem closer?_over_name (hk : k ∉ nameHeads) (hopens : k.opens?.isSome = true)
    (hover : ts.size < i + B.len .ident i) : ts.closer? (i + A.len .ident i) k = none := by
  have hno : ts.isAny (i + A.len .ident i) [k] = false := ident_over h hover fun l hl hmem => ?_
  · exact closer?_of_not_isAny hno List.mem_cons_self
  obtain rfl := List.mem_singleton.1 hl
  rcases List.mem_cons.1 hmem with rfl | hmem
  · cases hopens
  · exact hk hmem

theorem sameCloser_name (hk : k ∉ nameHeads) (hopens : k.opens?.isSome = true) :
    SameCloser ts ts' k (i + A.len .ident i) (i + B.len .ident i) := by
  rcases Nat.lt_or_ge ts.size (i + B.len .ident i) with hover | hfits
  · exact sameCloser_over h (Nat.le_of_lt hover) (closer?_over_name h hk hopens hover)
  · rw [(ident_keeps (A := A) (B := B) h i).len hfits]
    exact sameCloser h hopens _

theorem sameCloser_nameSpacing (hk : k ∉ nameHeads) (hopens : k.opens?.isSome = true) :
    SameCloser ts ts' k (i + A.len .ident i + A.len .spacing (i + A.len .ident i))
      (i + B.len .ident i + B.len .spacing (i + B.len .ident i)) := by
  rcases Nat.lt_or_ge ts.size (i + B.len .ident i) with hover | hfits
  · refine sameCloser_over h (Nat.le_of_lt (Nat.lt_add_right _ hover)) ?_
    rw [len_spacing_eq_zero h.left.wm (ident_over h hover (by decide))]
    exact closer?_over_name h hk hopens hover
  · rw [(ident_keeps (A := A) (B := B) h i).len hfits]
    exact sameCloser_spacing h hopens hfits

omit h in
theorem lt_throughCloser (wm : ts.WellMarked) (hpos : 0 < A.value (throughCloser ts k i j)) :
    j < i + A.value (throughCloser ts k i j) := by
  obtain ⟨c, _, he, hlt, _⟩ := throughCloser_cases wm hpos
  omega

theorem throughCloser_kept {l : Nat} (hc : SameCloser ts ts' k j l) (hij : i ≤ l) :
    ts.Kept i (A.value (throughCloser ts k i j)) (B.value (throughCloser ts' k i l)) := by
  intro hle
  unfold throughCloser at *
  cases hc' : ts'.closer? l k with
  | none =>
    have hno : ts.closer? j k = none := Option.eq_none_iff_forall_ne_some.2 fun c he => by
      have := ((hc c).1 he).1
      rw [hc'] at this
      cases this
    rw [hno]
    rfl
  | some c =>
    rw [hc'] at hle
    have hlt := (h.right.wm.closer_lt hc').1
    change i + (c + 1 - i) ≤ ts.size at hle
    rw [(hc c).2 ⟨hc', by omega⟩]
    rfl

theorem parentheses_kept (i : Nat) :
    ts.Kept i (A.value (parenthesesLength ts i)) (B.value (parenthesesLength ts' i)) :=
  throughCloser_kept h (sameCloser h rfl i) (Nat.le_refl i)

theorem brackets_kept (i : Nat) :
    ts.Kept i (A.value (bracketsLength ts i)) (B.value (bracketsLength ts' i)) :=
  throughCloser_kept h (sameCloser h rfl i) (Nat.le_refl i)

theorem block_kept (i : Nat) :
    ts.Kept i (A.value (blockLength ts i)) (B.value (blockLength ts' i)) :=
  throughCloser_kept h (sameCloser h rfl i) (Nat.le_refl i)

omit h in
theorem block_past_end (hi : ts.size ≤ i) : A.value (blockLength ts i) = 0 := by
  rw [blockLength, throughCloser, closer?_eq_none (Bool.eq_false_iff.2 fun his =>
    Nat.not_lt.2 hi (lt_of_is his))]
  rfl

theorem uri_kept (i : Nat) :
    ts.Kept i (A.value (uriLength ts i)) (B.value (uriLength ts' i)) := by
  intro hle
  have hgroup := throughCloser_kept (A := A) (B := B) h (sameCloser (k := .leftParen) h rfl (i + 1))
    (Nat.le_succ i)
  have hword : ("" == "url") = false := by decide
  simp only [uriLength, h.is_cut, h.text_cut, apply_ite A.value, apply_ite B.value, A.value_pure,
    B.value_pure] at hle ⊢
  unfold Kept at *
  grind

theorem expression_kept (i : Nat) :
    ts.Kept i (A.value (expressionLength ts i)) (B.value (expressionLength ts' i)) := by
  intro hle
  have hgroup := throughCloser_kept (A := A) (B := B) h (sameCloser (k := .leftParen) h rfl (i + 1))
    (Nat.le_succ i)
  have hword : ("" == "expression") = false := by decide
  simp only [expressionLength, h.text_cut, apply_ite A.value, apply_ite B.value, A.value_pure,
    B.value_pure] at hle ⊢
  unfold Kept at *
  grind

omit h in
theorem value_functionLength (A : Reading ts false) (i : Nat) : A.value (functionLength ts i) =
    if A.len .ident i = 0 then 0
    else A.value (throughCloser ts .leftParen i (i + A.len .ident i)) := by
  unfold functionLength
  rw [A.value_bind, A.value_lengthOf]
  cases A.len .ident i <;> rfl

theorem function_kept (i : Nat) :
    ts.Kept i (A.value (functionLength ts i)) (B.value (functionLength ts' i)) := by
  intro hle
  have hname := (ident_keeps (A := A) (B := B) h i).len
  have hclose := sameCloser_name (A := A) (B := B) (k := .leftParen) h (by decide) rfl (i := i)
  have hgroup := throughCloser_kept (A := A) (B := B) h hclose (Nat.le_add_right i _)
  have hlt := lt_throughCloser (A := B) (k := .leftParen) (i := i) (j := i + B.len .ident i) h.right.wm
  rw [value_functionLength] at *
  rw [value_functionLength]
  unfold Kept at *
  grind

omit h in
theorem value_progidLength (A : Reading ts false) (i : Nat) : A.value (progidLength ts i) =
    if (ts.size < i + 6 || ts.join i (i + 6) != progidMark) = true then 0
    else A.value (throughCloser ts .leftParen i (i + 6 + A.len .ident (i + 6) +
      A.len .spacing (i + 6 + A.len .ident (i + 6)))) := by
  unfold progidLength
  split
  · rfl
  · rw [A.value_bind, A.value_lengthOf, A.value_bind, A.value_lengthOf]

theorem progid_keeps (i : Nat) : A.Keeps B .progid i := by
  refine Reading.keeps_of_sole (r := .progid) (u := ()) h rfl rfl fun hi hle => ?_
  have hclose := sameCloser_nameSpacing (A := A) (B := B) (k := .leftParen) (i := i + 6) h
    (by decide) rfl
  have hgroup := throughCloser_kept (A := A) (B := B) (i := i) h hclose (by omega)
  have hjoin := fun hlong => h.join_eq (i := i) (j := i + 6) (by omega) hlong
  have hlt := lt_throughCloser (A := B) (k := .leftParen) (i := i) (j := i + 6 + B.len .ident (i + 6) +
    B.len .spacing (i + 6 + B.len .ident (i + 6))) h.right.wm
  have hsize := h.le_size
  rw [value_progidLength] at *
  rw [value_progidLength]
  unfold Kept at *
  grind

/-! ## Combinators -/

omit h in
theorem value_combinatorLength (A : Reading ts false) (i : Nat) : A.value (combinatorLength ts i) =
    if (ts.is i .bar && ts.is (i + 1) .bar) = true then 2
    else if ts.isAny i [.plus, .greater, .tilde] = true then 1
    else if ts.is i .slash = true then
      if (0 < A.len .ident (i + 1) && ts.is (i + 1 + A.len .ident (i + 1)) .slash) = true then
        A.len .ident (i + 1) + 2 else 0
    else 0 := by
  simp only [combinatorLength, apply_ite A.value, A.value_bind, A.value_lengthOf, A.value_pure]
  rfl

theorem combinator_keeps (i : Nat) : A.Keeps B .combinator i := by
  refine Reading.keeps_of_sole (r := .combinator) (u := ()) h rfl rfl fun hi hle => ?_
  have hname := (ident_keeps (A := A) (B := B) h (i + 1)).len
  have hover : ts.size < i + 1 + B.len .ident (i + 1) →
      ts.isAny (i + 1 + A.len .ident (i + 1)) [.slash] = false := fun hover =>
    ident_over h hover (by decide)
  have hslash : ∀ j, ts.is j .slash = true → ts.isAny j [.slash] = true := fun _ => isAny_single
  rw [value_combinatorLength] at *
  rw [value_combinatorLength]
  simp only [h.is_cut, h.isAny_cut] at *
  unfold Kept at *
  grind

end

end LessCss
