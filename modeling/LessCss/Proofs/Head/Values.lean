import LessCss.Proofs.Head.Terms

/-! Values, declarations and the elements of groups where a stream ends. -/

namespace LessCss

open Lookahead Grammar Tokens

variable {ts ts' : Tokens} {A : Reading ts false} {B : Reading ts' false} {i j : Nat}

section
variable (h : ts.Head ts')
include h

/-! ## Values -/

/-- A fragment is kept, unless it is a list of variables and further dots follow behind the shorter
stream. -/
theorem fragment_keeps (hdots : B.DotsEnd ts i) : A.Keeps B .fragment i := by
  refine Reading.keeps_of_body h fun hi hle => kept_firstOf (Nat.le_of_lt hi) ?_ hle
  simp only [List.forall₂_cons, true_and, List.Forall₂.nil, and_true]
  exact ⟨brackets_kept h i, parentheses_kept h i, token_kept h _ i, varList_kept h hdots,
    (var_keeps h i).len, percentage_kept h i, dimension_kept h i, (number_keeps h i).len,
    uri_kept h i, expression_kept h i, function_kept h i, (ident_keeps h i).len,
    (classSelector_keeps h i).len, token_kept h _ i⟩

theorem valuePart_keeps (i : Nat) : A.Keeps B .valuePart i := by
  refine Reading.keeps_of_body h fun hi hle => ?_
  have hi' := Nat.le_of_lt hi
  refine kept_firstOf_cons hi' (escapedString_kept h i) (fun _ hle => ?_) hle
  refine kept_firstOf_cons hi' (interpolation_keeps h i).len (fun _ hle => ?_) hle
  refine kept_firstOf_cons hi' (var_keeps h i).len (fun hvar hle => ?_) hle
  have hfragment : A.Keeps B .fragment i :=
    fragment_keeps h fun hpos => absurd hvar (Nat.ne_of_gt hpos)
  refine kept_firstOf hi' ?_ hle
  simp only [List.forall₂_cons, true_and, List.Forall₂.nil, and_true]
  exact ⟨color_kept h i, block_kept h i, (progid_keeps h i).len, hfragment.len,
    atKeyword_kept h i, token_kept h _ i, (important_keeps h i).len⟩

omit h in
theorem length_valueRound (B : Reading ts' false) (j : Nat) : (B.value (valueRound j)).length =
    if B.len .valuePart (j + B.len .spacing j) = 0 then 0
    else B.len .spacing j + B.len .valuePart (j + B.len .spacing j) := by
  rw [value_valueRound, Reading.len.eq_def B .valuePart]
  cases B.tell .valuePart (j + B.len .spacing j) with
  | none => rfl
  | some m => exact (if_neg (Nat.ne_of_gt m.length_pos)).symm

/-- The part of a value that comes next, behind spacing. -/
theorem valuePart_after_spacing (hj : j ≤ ts.size)
    (hle : j + (B.value (valueRound j)).length ≤ ts.size) :
    A.tell .valuePart (j + A.len .spacing j) = B.tell .valuePart (j + B.len .spacing j) := by
  refine tell_after_spacing h hj (fun _ => valuePart_keeps h _) fun hpos => ?_
  rw [length_valueRound, if_neg (Nat.ne_of_gt hpos)] at hle
  omega

theorem valueRound_kept (hj : j ≤ ts.size)
    (hle : j + (B.value (valueRound j)).length ≤ ts.size) :
    A.value (valueRound j) = B.value (valueRound j) := by
  rw [value_valueRound, value_valueRound, valuePart_after_spacing h hj hle]
  rw [value_valueRound] at hle
  cases hm : B.tell .valuePart (j + B.len .spacing j) with
  | none => rfl
  | some m =>
    rw [hm] at hle
    change j + (B.len .spacing j + m.length) ≤ ts.size at hle
    rw [(spacing_keeps (A := A) (B := B) h j).len (by omega)]

theorem value_keeps (i : Nat) : A.Keeps B .value i := by
  refine Reading.keeps_of_sole (r := .value) (u := ()) h rfl rfl fun hi hle => ?_
  have hge := (B.trail_walk ts'.size valueRound i).le
  have hv : A.value (valueLength ts i) = A.value (walk ts.size valueRound i) - i := A.value_bind _ _
  have hv' : B.value (valueLength ts' i) = B.value (walk ts'.size valueRound i) - i :=
    B.value_bind _ _
  have hwalk : A.value (walk ts.size valueRound i) = B.value (walk ts'.size valueRound i) :=
    walk_kept (I := fun _ => True) h (fun _ _ => trivial)
      (fun j _ hj _ hle => valueRound_kept h (Nat.le_of_lt hj) hle) (by omega) trivial rfl
  rw [hv, hv', hwalk]

/-! ## Declarations -/

theorem property_kept (i : Nat) :
    ts.Kept i (A.value (propertyLength i)) (B.value (propertyLength i)) :=
  kept_orElse (var_keeps h i).len (ident_keeps h i).len

theorem property_breaksOff (hover : ts.size < i + B.value (propertyLength i)) :
    ts.BreaksOff i (A.value (propertyLength i)) := by
  have hvar := var_breaksOff (A := A) (B := B) h (i := i)
  have hname := ident_breaksOff (A := A) (B := B) h (i := i)
  have hmark : 0 < B.len .var i → A.len .ident i = 0 := fun hpos =>
    (broken_of_is h (var_cases h.right.wm hpos).1).ident_eq h.left.wm
  have hvar' := (var_keeps (A := A) (B := B) h i).len
  simp only [propertyLength, A.value_orElse, B.value_orElse, A.value_lengthOf,
    B.value_lengthOf] at hover ⊢
  unfold Kept BreaksOff at *
  grind

omit h in
theorem value_declarationLength {p a b : Nat} (hp : p = i + A.value (propertyLength i))
    (ha : a = p + A.len .spacing p) (hb : b = a + 1 + A.len .spacing (a + 1)) :
    A.value (declarationLength ts i) =
      if 0 < A.value (propertyLength i) ∧ ts.is a .colon = true ∧ 0 < A.len .value b then
        b + A.len .value b - i else 0 := by
  rw [declarationLength, A.value_bind]
  subst hb ha hp
  split
  · next hz => simp [hz]
  · next hp =>
    rw [A.value_bind, A.value_lengthOf]
    dsimp only
    simp only [apply_ite A.value, A.value_bind, A.value_lengthOf, A.value_through, A.value_pure]
    grind

theorem declaration_keeps (i : Nat) : A.Keeps B .declaration i := by
  refine Reading.keeps_of_sole (r := .declaration) (u := ()) h rfl rfl fun hi hle => ?_
  obtain ⟨p, hp⟩ : ∃ p, p = i + A.value (propertyLength i) := ⟨_, rfl⟩
  obtain ⟨p', hp'⟩ : ∃ p, p = i + B.value (propertyLength i) := ⟨_, rfl⟩
  obtain ⟨a, ha⟩ : ∃ a, a = p + A.len .spacing p := ⟨_, rfl⟩
  obtain ⟨a', ha'⟩ : ∃ a, a = p' + B.len .spacing p' := ⟨_, rfl⟩
  obtain ⟨b, hb⟩ : ∃ b, b = a + 1 + A.len .spacing (a + 1) := ⟨_, rfl⟩
  obtain ⟨b', hb'⟩ : ∃ b, b = a' + 1 + B.len .spacing (a' + 1) := ⟨_, rfl⟩
  rw [value_declarationLength hp' ha' hb'] at hle
  rw [value_declarationLength hp ha hb, value_declarationLength hp' ha' hb']
  rcases Nat.lt_or_ge ts.size p' with hover | hfits
  · have hno : A.value (propertyLength i) = 0 ∨ ts.is a .colon = false :=
      (property_breaksOff h (hp' ▸ hover)).imp_right fun hbr => by
        rw [ha, hp, hbr.spacing_eq h.left.wm]
        exact hbr.is_eq (by decide)
    grind
  obtain rfl : p = p' := by
    rw [hp, property_kept (A := A) (B := B) h i (hp' ▸ hfits), hp']
  have hbefore := spacing_eq_min (A := A) (B := B) h hfits
  have hcolon := h.is_cut a .colon
  rcases Nat.lt_or_ge ts.size a' with hover | hfits'
  · grind
  obtain rfl : a = a' := by omega
  rcases Nat.eq_or_lt_of_le hfits' with hend | hlt
  · grind
  have hafter := spacing_eq_min (A := A) (B := B) h (i := a + 1) hlt
  have hvalue := (value_keeps (A := A) (B := B) h b).len
  have hend := fun hpos : 0 < A.len .value b => A.lt_of_len hpos
  unfold Kept at hvalue
  grind

/-! ## Groups and arguments -/

theorem conditionPart_keeps (i : Nat) : A.Keeps B .conditionPart i := by
  refine Reading.keeps_of_body h fun hi hle => kept_firstOf (Nat.le_of_lt hi) ?_ hle
  simp only [List.forall₂_cons, true_and, List.Forall₂.nil, and_true]
  exact ⟨function_kept h i, brackets_kept h i, parentheses_kept h i, (var_keeps h i).len,
    (ident_keeps h i).len, (number_keeps h i).len, token_kept h _ i, token_kept h _ i,
    (combinator_keeps h i).len, (spacing_keeps h i).len, token_kept h _ i⟩

theorem preludePart_keeps (hdots : B.DotsEnd ts i) : A.Keeps B .preludePart i := by
  refine Reading.keeps_of_body h fun hi hle => kept_firstOf (Nat.le_of_lt hi) ?_ hle
  simp only [List.forall₂_cons, true_and, List.Forall₂.nil, and_true]
  exact ⟨color_kept h i, (fragment_keeps h hdots).len, (spacing_keeps h i).len, token_kept h _ i⟩

theorem argument_keeps (hdots : B.DotsEnd ts i) : A.Keeps B .argument i := by
  refine Reading.keeps_of_body h fun hi hle => kept_firstOf (Nat.le_of_lt hi) ?_ hle
  simp only [List.forall₂_cons, true_and, List.Forall₂.nil, and_true]
  exact ⟨escapedString_kept h i, (declaration_keeps h i).len, varList_kept h hdots,
    (var_keeps h i).len, (spacing_keeps h i).len, token_kept h _ i, token_kept h _ i,
    token_kept h _ i, token_kept h _ i, token_kept h _ i, percentage_kept h i, dimension_kept h i,
    (number_keeps h i).len, uri_kept h i, function_kept h i, (ident_keeps h i).len, color_kept h i,
    block_kept h i, parentheses_kept h i⟩

end

end LessCss
