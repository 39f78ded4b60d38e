import LessCss.Proofs.Recurrence

/-! Selectors that recur. Between closed walls everything is found again that belongs to a selector:
inside parentheses by induction on how much is left up to the wall, since the closers there are the
same in both streams. A compound that covers a whole stream is found again also before a soft wall,
unless the bar behind it makes a namespace of its name. -/

namespace LessCss

open Lookahead Grammar Tokens

variable {ts ts' : Tokens} {A : Reading ts false} {B : Reading ts' false} {d lo hi i j o c : Nat}

/-! ## Attribute selectors -/

theorem attributeNameLength_agrees (h : ts.Recurs snugWalls ts' d lo hi) (hlo : lo ≤ i)
    (hhi : i ≤ hi) : B.value (attributeNameLength (d + i)) = A.value (attributeNameLength i) ∧
      i + A.value (attributeNameLength i) ≤ hi := by
  have hs : ts.Recurs softWalls ts' d lo hi := h.widen (by decide)
  have hspace := h.namespacePart (A := A) (B := B) hlo hhi
  have hname := hs.ident (A := A) (B := B) hlo hhi
  have hle := hspace.le
  have hname' := hs.ident (A := A) (B := B) (show lo ≤ i + A.len .namespacePart i by omega) hle
  rw [value_attributeNameLength, value_attributeNameLength, hspace.len, hname.len, Nat.add_assoc d,
    hname'.len]
  refine ⟨rfl, ?_⟩
  split
  · rw [← Nat.add_assoc]
    exact hname'.le
  · exact hname.le

theorem comparatorLength_agrees (h : ts.Recurs snugWalls ts' d lo hi) (hlo : lo ≤ i)
    (hhi : i ≤ hi) : comparatorLength ts' (d + i) = comparatorLength ts i ∧
      i + comparatorLength ts i ≤ hi := by
  unfold comparatorLength
  rw [h.isAny_eq (by decide) hlo hhi, h.is_eq (by decide) hlo hhi]
  have hequals : i + (ts.is i .equals).toNat ≤ hi := by
    cases he : ts.is i .equals with
    | false => exact hhi
    | true => exact h.lt_of_is (by decide) hhi he
  cases hm : ts.isAny i [.tilde, .bar, .caret, .dollar, .asterisk] with
  | false => exact ⟨rfl, hequals⟩
  | true =>
    have hlt := h.lt_of_isAny (by decide) hhi hm
    rw [Nat.add_assoc, h.is_eq (by decide) (by omega) hlt]
    refine ⟨rfl, ?_⟩
    split
    · next he => exact h.lt_of_is (k := .equals) (by decide) hlt (by simpa using he)
    · exact hequals

theorem attributeValueLength_agrees (h : ts.Recurs softWalls ts' d lo hi) (hlo : lo ≤ i)
    (hhi : i ≤ hi) : B.value (attributeValueLength ts' (d + i)) =
        A.value (attributeValueLength ts i) ∧
      i + A.value (attributeValueLength ts i) ≤ hi := by
  have hname := h.ident (A := A) (B := B) hlo hhi
  rw [attributeValueLength, attributeValueLength, A.value_orElse, B.value_orElse, A.value_lengthOf,
    B.value_lengthOf, hname.len, stringLength, stringLength, value_tokenLength, value_tokenLength,
    h.isAny_eq (by decide) hlo hhi]
  refine ⟨rfl, ?_⟩
  cases hs : ts.isAny i [.doubleQuoted, .singleQuoted] with
  | false => exact hname.le
  | true => exact h.lt_of_isAny (by decide) hhi hs

theorem flagSpacing_agrees (h : ts.Recurs snugWalls ts' d lo hi) (wm : ts.WellMarked)
    (wm' : ts'.WellMarked) {n : Nat} (hlo : lo ≤ i) (hhi : i + n ≤ hi) :
    B.value (flagSpacing (d + i) n) = A.value (flagSpacing i n) ∧
      i + n + A.value (flagSpacing i n) ≤ hi := by
  have hs := h.spacing (A := A) (B := B) wm wm' (show lo ≤ i + n by omega) hhi
  unfold flagSpacing
  split
  · exact ⟨rfl, hhi⟩
  · rw [A.value_lengthOf, B.value_lengthOf, Nat.add_assoc, hs.len]
    exact ⟨rfl, hs.le⟩

/-- What an attribute selector that starts at token `i` compares with, from token `j` on. -/
def attributeComparison (ts : Tokens) (i j : Nat) : Lookahead (Option (Match AttributeShape)) := do
  let comparator := comparatorLength ts j
  if comparator = 0 then return none
  let j := j + comparator
  let j := j + (← lengthOf .spacing j)
  let value ← attributeValueLength ts j
  if value = 0 then return none
  let j := j + value
  let j := j + (← lengthOf .spacing j)
  let flags ← lengthOf .ident j
  let j := j + flags + (← flagSpacing j flags)
  if ts.is j .rightSquare then return Match.of? (← tokensBetween i (j + 1)) .compared
  return none

/-- The match of an attribute selector that starts at token `i` ends behind a bracket that stands
before token `hi`, or there. -/
def EndsWithin (ts : Tokens) (i hi : Nat) (x : Option (Match AttributeShape)) : Prop :=
  ∀ m, x = some m → ∃ e, i < e ∧ e ≤ hi ∧ ts.is e .rightSquare = true ∧ i + m.length = e + 1

theorem endsWithin_none : EndsWithin ts i hi none := by
  intro m hm
  cases hm

theorem endsWithin_of? {shape : AttributeShape} (hj : i < j) (hhi : j ≤ hi)
    (hr : ts.is j .rightSquare = true) : EndsWithin ts i hi (Match.of? (j + 1 - i) shape) := by
  intro m hm
  obtain ⟨_, hl⟩ := of?_eq_some hm
  exact ⟨j, hj, hhi, hr, by omega⟩

theorem attributeComparison_agrees (h : ts.Recurs snugWalls ts' d (i + 1) hi)
    (wm : ts.WellMarked) (wm' : ts'.WellMarked)
    (hright : ∀ j, i + 1 ≤ j → j ≤ hi → ts'.is (d + j) .rightSquare = ts.is j .rightSquare)
    (hlo : i + 1 ≤ j) (hhi : j ≤ hi) :
    B.value (attributeComparison ts' (d + i) (d + j)) = A.value (attributeComparison ts i j) ∧
      EndsWithin ts i hi (A.value (attributeComparison ts i j)) := by
  have hs : ts.Recurs softWalls ts' d (i + 1) hi := h.widen (by decide)
  unfold attributeComparison
  dsimp only
  obtain ⟨hcmp, hle⟩ := comparatorLength_agrees h hlo hhi
  rw [hcmp, Nat.add_assoc d]
  split
  · exact ⟨rfl, endsWithin_none⟩
  have hlo := Nat.le_trans hlo (Nat.le_add_right j (comparatorLength ts j))
  generalize j + comparatorLength ts j = j at hle hlo
  have hgap := h.spacing (A := A) (B := B) wm wm' hlo hle
  rw [A.value_bind, B.value_bind, A.value_lengthOf, B.value_lengthOf, hgap.len, A.value_bind,
    B.value_bind, Nat.add_assoc d]
  have hle := hgap.le
  have hlo := Nat.le_trans hlo (Nat.le_add_right j (A.len .spacing j))
  generalize j + A.len .spacing j = j at hle hlo
  obtain ⟨hval, hle⟩ := attributeValueLength_agrees (A := A) (B := B) hs hlo hle
  rw [hval, Nat.add_assoc d]
  split
  · exact ⟨rfl, endsWithin_none⟩
  have hlo := Nat.le_trans hlo (Nat.le_add_right j (A.value (attributeValueLength ts j)))
  generalize j + A.value (attributeValueLength ts j) = j at hle hlo
  have hgap := h.spacing (A := A) (B := B) wm wm' hlo hle
  rw [A.value_bind, B.value_bind, A.value_lengthOf, B.value_lengthOf, hgap.len, A.value_bind,
    B.value_bind, Nat.add_assoc d]
  have hle := hgap.le
  have hlo := Nat.le_trans hlo (Nat.le_add_right j (A.len .spacing j))
  generalize j + A.len .spacing j = j at hle hlo
  have hflags := hs.ident (A := A) (B := B) hlo hle
  obtain ⟨hafter, hle⟩ := flagSpacing_agrees (A := A) (B := B) h wm wm' hlo hflags.le
  rw [A.value_lengthOf, B.value_lengthOf, hflags.len, A.value_bind, B.value_bind, hafter,
    show d + j + A.len .ident j + A.value (flagSpacing j (A.len .ident j)) =
      d + (j + A.len .ident j + A.value (flagSpacing j (A.len .ident j))) by omega]
  have hlo : i + 1 ≤ j + A.len .ident j + A.value (flagSpacing j (A.len .ident j)) := by omega
  generalize j + A.len .ident j + A.value (flagSpacing j (A.len .ident j)) = j at hle hlo
  rw [hright j hlo hle]
  split
  · next hr =>
    rw [A.value_bind, B.value_bind, A.value_tokensBetween, B.value_tokensBetween,
      show d + j + 1 - (d + i) = j + 1 - i by omega]
    exact ⟨rfl, endsWithin_of? hlo hle hr⟩
  · exact ⟨rfl, endsWithin_none⟩

/-- An attribute selector is the same in both streams if its brackets are. -/
theorem attributeSelectorMatch_agrees (h : ts.Recurs snugWalls ts' d (i + 1) hi)
    (wm : ts.WellMarked) (wm' : ts'.WellMarked)
    (hopen : ts'.is (d + i) .leftSquare = ts.is i .leftSquare)
    (hlt : ts.is i .leftSquare = true → i < hi)
    (hclose : ts'.is (d + hi) .rightSquare = ts.is hi .rightSquare) :
    B.value (attributeSelectorMatch ts' (d + i)) = A.value (attributeSelectorMatch ts i) ∧
      EndsWithin ts i hi (A.value (attributeSelectorMatch ts i)) := by
  have hright : ∀ j, i + 1 ≤ j → j ≤ hi → ts'.is (d + j) .rightSquare = ts.is j .rightSquare := by
    intro j hj hj'
    rcases Nat.eq_or_lt_of_le hj' with rfl | hj'
    · exact hclose
    · rw [is, is, h.kind?_eq hj hj']
  unfold attributeSelectorMatch
  rw [hopen]
  cases hm : ts.is i .leftSquare with
  | false => exact ⟨rfl, endsWithin_none⟩
  | true =>
    have hgap := h.spacing (A := A) (B := B) wm wm' (Nat.le_refl (i + 1)) (hlt hm)
    rw [if_neg (by decide), if_neg (by decide), A.value_bind, B.value_bind, A.value_lengthOf,
      B.value_lengthOf, A.value_bind, B.value_bind, Nat.add_assoc d, hgap.len, Nat.add_assoc d]
    dsimp only
    have hle := hgap.le
    have hlo := Nat.le_add_right (i + 1) (A.len .spacing (i + 1))
    generalize i + 1 + A.len .spacing (i + 1) = j at hle hlo
    obtain ⟨hname, hle⟩ := attributeNameLength_agrees (A := A) (B := B) h hlo hle
    rw [hname, Nat.add_assoc d]
    split
    · exact ⟨rfl, endsWithin_none⟩
    have hlo := Nat.le_trans hlo (Nat.le_add_right j (A.value (attributeNameLength j)))
    generalize j + A.value (attributeNameLength j) = j at hle hlo
    have hgap := h.spacing (A := A) (B := B) wm wm' hlo hle
    rw [A.value_bind, B.value_bind, A.value_lengthOf, B.value_lengthOf, hgap.len, Nat.add_assoc d]
    have hle := hgap.le
    have hlo := Nat.le_trans hlo (Nat.le_add_right j (A.len .spacing j))
    generalize j + A.len .spacing j = j at hle hlo
    rw [hright j hlo hle]
    split
    · next hr =>
      rw [A.value_bind, B.value_bind, A.value_tokensBetween, B.value_tokensBetween,
        show d + j + 1 - (d + i) = j + 1 - i by omega]
      exact ⟨rfl, endsWithin_of? hlo hle hr⟩
    · exact attributeComparison_agrees h wm wm' hright hlo hle

/-! ## Pseudo-elements and pseudo-classes -/

theorem pseudoElementLength_agrees (h : ts.Recurs softWalls ts' d lo hi) (hlo : lo ≤ i)
    (hhi : i ≤ hi) : B.value (pseudoElementLength ts' (d + i)) =
        A.value (pseudoElementLength ts i) ∧ i + A.value (pseudoElementLength ts i) ≤ hi := by
  unfold pseudoElementLength
  rw [h.is_eq (by decide) hlo hhi]
  cases hc : ts.is i .colon with
  | false => exact ⟨rfl, hhi⟩
  | true =>
    have hlt := h.lt_of_is (by decide) hhi hc
    rw [Nat.add_assoc, h.is_eq (by decide) (by omega) hlt]
    cases hc' : ts.is (i + 1) .colon with
    | false => exact ⟨rfl, hhi⟩
    | true =>
      have hlt' := h.lt_of_is (by decide) hlt hc'
      obtain ⟨hv, hle⟩ := nameMatch_agrees (A := A) (B := B) h (show lo ≤ i + 2 by omega) hlt'
      rw [if_pos (by rfl), if_pos (by rfl), A.value_bind, B.value_bind, Nat.add_assoc, hv]
      refine ⟨rfl, ?_⟩
      cases hn : A.value (nameMatch (i + 2)) with
      | none => exact hhi
      | some m =>
        have hend := hle m hn
        change i + (m.length + 2) ≤ hi
        omega

theorem value_lengthInside (r : Rule) (i : Nat) : A.value (lengthInside r i) = A.len r i := rfl

theorem value_pseudoForm_cons (o c : Nat) (shape : PseudoShape) (scan : Nat → Lookahead Nat)
    (rest : List (PseudoShape × (Nat → Lookahead Nat))) :
    A.value (pseudoForm o c ((shape, scan) :: rest)) =
      if A.value (scan o) = c + 1 - o then some shape else A.value (pseudoForm o c rest) := by
  rw [pseudoForm, A.value_bind, A.value_bind, A.value_tokensBetween]
  split <;> rfl

/-- The parentheses that open at token `o` and close at token `c` do so in both streams, and what
stands between them recurs. No closer reads as the letter of a formula. -/
structure Tokens.Parenthesized (ts ts' : Tokens) (d o c : Nat) : Prop where
  inside : ts.Recurs closedWalls ts' d (o + 1) c
  lt : o < c
  closer : ts.closer? o .leftParen = some c
  closer' : ts'.closer? (d + o) .leftParen = some (d + c)
  letter : ts.text c ≠ "n"
  letter' : ts'.text (d + c) ≠ "n"

namespace Tokens.Parenthesized

variable (h : ts.Parenthesized ts' d o c) (wm : ts.WellMarked) (wm' : ts'.WellMarked)
include h

theorem closedAt_agrees (j : Nat) :
    B.value (closedAt ts' (d + o) (d + j)) = A.value (closedAt ts o j) := by
  unfold closedAt
  rw [h.closer, h.closer']
  dsimp only
  by_cases hj : c = j
  · rw [if_pos hj, if_pos (by omega), A.value_tokensBetween, B.value_tokensBetween]
    omega
  · rw [if_neg hj, if_neg (by omega)]
    rfl

theorem text_beq (hj : o < j) (hjc : j ≤ c) : (ts'.text (d + j) == "n") = (ts.text j == "n") := by
  rcases Nat.eq_or_lt_of_le hjc with rfl | hlt
  · rw [beq_false_of_ne h.letter, beq_false_of_ne h.letter']
  · rw [h.inside.text_eq hj hlt]

include wm wm'

theorem spacing_agrees (hi : o < i) (hic : i ≤ c) : A.Agrees B d c .spacing i :=
  (h.inside.widen (by decide)).spacing wm wm' hi hic

theorem nthMultiplier_agrees (hi : o < i) (hic : i ≤ c) :
    B.value (nthMultiplier ts' (d + i)) = (A.value (nthMultiplier ts i)).map (d + ·) ∧
      ∀ j, A.value (nthMultiplier ts i) = some j → i < j ∧ j ≤ c := by
  have hgap := h.spacing_agrees (A := A) (B := B) wm wm' hi hic
  unfold nthMultiplier
  rw [A.value_bind, B.value_bind, A.value_lengthOf, B.value_lengthOf, hgap.len, Nat.add_assoc d]
  have hle := hgap.le
  have hlo := Nat.le_add_right i (A.len .spacing i)
  generalize i + A.len .spacing i = j at hle hlo
  have hsign : j + (ts.isAny j [.minus, .plus]).toNat ≤ c := by
    cases hm : ts.isAny j [.minus, .plus] with
    | false => exact hle
    | true => exact h.inside.lt_of_isAny (by decide) hle hm
  dsimp only
  rw [h.inside.isAny_eq (by decide) (show o + 1 ≤ j by omega) hle, Nat.add_assoc d]
  have hlo := Nat.le_trans hlo (Nat.le_add_right j (ts.isAny j [.minus, .plus]).toNat)
  generalize j + (ts.isAny j [.minus, .plus]).toNat = j at hsign hlo
  have hdigits : j + (ts.is j .digits).toNat ≤ c := by
    cases hm : ts.is j .digits with
    | false => exact hsign
    | true => exact h.inside.lt_of_is (by decide) hsign hm
  rw [h.inside.is_eq (by decide) (show o + 1 ≤ j by omega) hsign, Nat.add_assoc d]
  have hlo := Nat.le_trans hlo (Nat.le_add_right j (ts.is j .digits).toNat)
  generalize j + (ts.is j .digits).toNat = j at hdigits hlo
  rw [A.value_pure, B.value_pure, h.text_beq (by omega) hdigits]
  cases hn : ts.text j == "n" with
  | false =>
    refine ⟨rfl, fun k hk => ?_⟩
    cases hk
  | true =>
    refine ⟨rfl, fun k hk => ?_⟩
    cases hk
    have hne : j ≠ c := by
      rintro rfl
      exact h.letter (by simpa using hn)
    omega

theorem nthFormulaLength_agrees : B.value (nthFormulaLength ts' (d + o)) =
    A.value (nthFormulaLength ts o) := by
  obtain ⟨hv, hle⟩ := h.nthMultiplier_agrees (A := A) (B := B) wm wm' (Nat.lt_succ_self o) h.lt
  unfold nthFormulaLength
  rw [A.value_bind, B.value_bind, Nat.add_assoc d, hv]
  cases hm : A.value (nthMultiplier ts (o + 1)) with
  | none => rfl
  | some j =>
    obtain ⟨hlo, hle⟩ := hle j hm
    have hgap := h.spacing_agrees (A := A) (B := B) wm wm' (show o < j by omega) hle
    dsimp only [Option.map_some]
    rw [A.value_bind, B.value_bind, A.value_lengthOf, B.value_lengthOf, hgap.len, Nat.add_assoc d]
    have hle := hgap.le
    have hlo := Nat.lt_of_lt_of_le hlo (Nat.le_add_right j (A.len .spacing j))
    generalize j + A.len .spacing j = j at hle hlo
    rw [h.inside.isAny_eq (by decide) (Nat.le_of_lt hlo) hle]
    cases hsign : ts.isAny j [.plus, .minus] with
    | false => rfl
    | true =>
      have hlt := h.inside.lt_of_isAny (by decide) hle hsign
      have hgap := h.spacing_agrees (A := A) (B := B) wm wm' (show o < j + 1 by omega) hlt
      rw [if_neg (by decide), if_neg (by decide), A.value_bind, B.value_bind, A.value_lengthOf,
        B.value_lengthOf, Nat.add_assoc d, hgap.len, Nat.add_assoc d]
      have hle := hgap.le
      have hlo : o + 1 < j + 1 + A.len .spacing (j + 1) := by omega
      generalize j + 1 + A.len .spacing (j + 1) = j at hle hlo
      rw [h.inside.is_eq (by decide) (Nat.le_of_lt hlo) hle]
      cases hdigits : ts.is j .digits with
      | false => rfl
      | true =>
        have hlt := h.inside.lt_of_is (by decide) hle hdigits
        have hgap := h.spacing_agrees (A := A) (B := B) wm wm' (show o < j + 1 by omega) hlt
        rw [if_neg (by decide), if_neg (by decide), A.value_bind, B.value_bind, A.value_lengthOf,
          B.value_lengthOf, Nat.add_assoc d, hgap.len, Nat.add_assoc d]
        exact h.closedAt_agrees _

theorem nthMultipleLength_agrees : B.value (nthMultipleLength ts' (d + o)) =
    A.value (nthMultipleLength ts o) := by
  obtain ⟨hv, hle⟩ := h.nthMultiplier_agrees (A := A) (B := B) wm wm' (Nat.lt_succ_self o) h.lt
  unfold nthMultipleLength
  rw [A.value_bind, B.value_bind, Nat.add_assoc d, hv]
  cases hm : A.value (nthMultiplier ts (o + 1)) with
  | none => rfl
  | some j =>
    obtain ⟨hlo, hle⟩ := hle j hm
    have hgap := h.spacing_agrees (A := A) (B := B) wm wm' (show o < j by omega) hle
    dsimp only [Option.map_some]
    rw [A.value_bind, B.value_bind, A.value_lengthOf, B.value_lengthOf, hgap.len, Nat.add_assoc d]
    exact h.closedAt_agrees _

theorem nthOffsetLength_agrees : B.value (nthOffsetLength ts' (d + o)) =
    A.value (nthOffsetLength ts o) := by
  have hgap := h.spacing_agrees (A := A) (B := B) wm wm' (Nat.lt_succ_self o) h.lt
  unfold nthOffsetLength
  rw [A.value_bind, B.value_bind, A.value_lengthOf, B.value_lengthOf, Nat.add_assoc d, hgap.len,
    Nat.add_assoc d]
  have hle := hgap.le
  have hlo := Nat.le_add_right (o + 1) (A.len .spacing (o + 1))
  generalize o + 1 + A.len .spacing (o + 1) = j at hle hlo
  have hsign : j + (ts.isAny j [.minus, .plus]).toNat ≤ c := by
    cases hm : ts.isAny j [.minus, .plus] with
    | false => exact hle
    | true => exact h.inside.lt_of_isAny (by decide) hle hm
  dsimp only
  rw [h.inside.isAny_eq (by decide) hlo hle, Nat.add_assoc d]
  have hlo := Nat.le_trans hlo (Nat.le_add_right j (ts.isAny j [.minus, .plus]).toNat)
  generalize j + (ts.isAny j [.minus, .plus]).toNat = j at hsign hlo
  rw [h.inside.is_eq (by decide) hlo hsign]
  cases hdigits : ts.is j .digits with
  | false => rfl
  | true =>
    have hlt := h.inside.lt_of_is (by decide) hsign hdigits
    have hgap := h.spacing_agrees (A := A) (B := B) wm wm' (show o < j + 1 by omega) hlt
    rw [if_pos rfl, if_pos rfl, A.value_bind, B.value_bind, A.value_lengthOf,
      B.value_lengthOf, Nat.add_assoc d, hgap.len, Nat.add_assoc d]
    exact h.closedAt_agrees _

theorem pseudoIdentLength_agrees : B.value (pseudoIdentLength ts' (d + o)) =
    A.value (pseudoIdentLength ts o) := by
  have hs : ts.Recurs softWalls ts' d (o + 1) c := h.inside.widen (by decide)
  have hgap := h.spacing_agrees (A := A) (B := B) wm wm' (Nat.lt_succ_self o) h.lt
  unfold pseudoIdentLength
  rw [A.value_bind, B.value_bind, A.value_lengthOf, B.value_lengthOf, Nat.add_assoc d, hgap.len,
    Nat.add_assoc d]
  have hle := hgap.le
  have hlo := Nat.le_add_right (o + 1) (A.len .spacing (o + 1))
  generalize o + 1 + A.len .spacing (o + 1) = j at hle hlo
  have hname := hs.ident (A := A) (B := B) hlo hle
  have hgap := h.spacing_agrees (A := A) (B := B) wm wm'
    (show o < j + A.len .ident j by omega) hname.le
  dsimp only
  rw [A.value_bind, B.value_bind, A.value_lengthOf, B.value_lengthOf, hname.len]
  cases hn : A.len .ident j with
  | zero => rfl
  | succ n =>
    rw [hn] at hgap
    change B.value (lengthOf .spacing (d + j + (n + 1)) >>= _) =
      A.value (lengthOf .spacing (j + (n + 1)) >>= _)
    rw [A.value_bind, B.value_bind, A.value_lengthOf, B.value_lengthOf, Nat.add_assoc d, hgap.len,
      Nat.add_assoc d]
    exact h.closedAt_agrees _

omit wm wm'

theorem pseudoSelectorsLength_agrees (hgroup : A.Agrees B d c .selectorGroup (o + 1)) :
    B.value (pseudoSelectorsLength ts' (d + o)) = A.value (pseudoSelectorsLength ts o) := by
  unfold pseudoSelectorsLength
  rw [A.value_bind, B.value_bind, value_lengthInside, value_lengthInside, Nat.add_assoc d,
    hgroup.len]
  cases A.len .selectorGroup (o + 1) with
  | zero => rfl
  | succ n =>
    change B.value (closedAt ts' (d + o) (d + (o + 1) + (n + 1))) = _
    rw [Nat.add_assoc d]
    exact h.closedAt_agrees _

/-- The arguments of a pseudo-class take the same form in both streams. -/
theorem pseudoForm_agrees (wm : ts.WellMarked) (wm' : ts'.WellMarked)
    (hgroup : A.Agrees B d c .selectorGroup (o + 1)) :
    B.value (pseudoForm (d + o) (d + c) (pseudoForms ts')) =
      A.value (pseudoForm o c (pseudoForms ts)) := by
  have hlen : d + c + 1 - (d + o) = c + 1 - o := by omega
  rw [pseudoForms, pseudoForms]
  simp only [value_pseudoForm_cons, hlen,
    h.nthFormulaLength_agrees (A := A) (B := B) wm wm',
    h.nthMultipleLength_agrees (A := A) (B := B) wm wm',
    h.nthOffsetLength_agrees (A := A) (B := B) wm wm',
    h.pseudoSelectorsLength_agrees hgroup,
    h.pseudoIdentLength_agrees (A := A) (B := B) wm wm']
  rfl

end Tokens.Parenthesized

theorem pseudoBareMatch_agrees (h : ts.Recurs softWalls ts' d lo hi) (hlo : lo ≤ i + 1)
    (hhi : i + 1 ≤ hi) : B.value (pseudoBareMatch (d + i)) = A.value (pseudoBareMatch i) ∧
      ∀ m, A.value (pseudoBareMatch i) = some m → i + m.length ≤ hi := by
  obtain ⟨hv, hle⟩ := nameMatch_agrees (A := A) (B := B) h hlo hhi
  unfold pseudoBareMatch
  rw [A.value_bind, B.value_bind, Nat.add_assoc, hv]
  refine ⟨rfl, fun m hm => ?_⟩
  obtain ⟨n, hn, he⟩ := Option.bind_eq_some_iff.1 hm
  have hend := hle n hn
  obtain ⟨_, hl⟩ := of?_eq_some he
  omega

/-- A pseudo-class is the same in both streams if its parentheses are. -/
theorem pseudoClassMatch_agrees (h : ts.Recurs softWalls ts' d lo hi) (hlo : lo ≤ i) (hhi : i ≤ hi)
    (hopen : ∀ o, ts.is i .colon = true → 0 < A.len .ident (i + 1) →
      o = i + 1 + A.len .ident (i + 1) → o ≤ hi →
      ts'.closer? (d + o) .leftParen = (ts.closer? o .leftParen).map (d + ·) ∧
        ∀ c, ts.closer? o .leftParen = some c → c < hi ∧
          B.value (pseudoForm (d + o) (d + c) (pseudoForms ts')) =
            A.value (pseudoForm o c (pseudoForms ts))) :
    B.value (pseudoClassMatch ts' (d + i)) = A.value (pseudoClassMatch ts i) ∧
      ∀ m, A.value (pseudoClassMatch ts i) = some m → i + m.length ≤ hi := by
  unfold pseudoClassMatch
  rw [h.is_eq (by decide) hlo hhi]
  cases hc : ts.is i .colon with
  | false =>
    refine ⟨rfl, fun m hm => ?_⟩
    cases hm
  | true =>
    have hlt := h.lt_of_is (by decide) hhi hc
    have hname := h.ident (A := A) (B := B) (show lo ≤ i + 1 by omega) hlt
    have hbare := pseudoBareMatch_agrees (A := A) (B := B) h (show lo ≤ i + 1 by omega) hlt
    rw [if_neg (by decide), if_neg (by decide), A.value_bind, B.value_bind, A.value_lengthOf,
      B.value_lengthOf, Nat.add_assoc d, hname.len, Nat.add_assoc d]
    dsimp only
    by_cases hn : 0 < A.len .ident (i + 1)
    · obtain ⟨hcl, hforms⟩ := hopen _ hc hn rfl hname.le
      rw [if_pos hn, if_pos hn, hcl]
      cases hclose : ts.closer? (i + 1 + A.len .ident (i + 1)) .leftParen with
      | none => exact hbare
      | some c =>
        obtain ⟨hchi, hform⟩ := hforms c hclose
        dsimp only [Option.map_some]
        rw [A.value_bind, B.value_bind, hform]
        cases A.value (pseudoForm (i + 1 + A.len .ident (i + 1)) c (pseudoForms ts)) with
        | none => exact hbare
        | some shape =>
          dsimp only
          rw [A.value_bind, B.value_bind, A.value_tokensBetween, B.value_tokensBetween,
            A.value_pure, B.value_pure, show d + c + 1 - (d + i) = c + 1 - i by omega]
          refine ⟨rfl, fun m hm => ?_⟩
          obtain ⟨_, hl⟩ := of?_eq_some hm
          have hpos := m.length_pos
          omega
    · rw [if_neg hn, if_neg hn]
      exact hbare

/-! ## Parts of a compound -/

theorem typeSelectorLength_agrees (h : ts.Recurs softWalls ts' d lo hi)
    (hspace : A.Agrees B d hi .namespacePart i) (hlo : lo ≤ i) :
    B.value (typeSelectorLength ts' (d + i)) = A.value (typeSelectorLength ts i) ∧
      i + A.value (typeSelectorLength ts i) ≤ hi := by
  have hle := hspace.le
  have hlo' : lo ≤ i + A.len .namespacePart i := by omega
  have hname := h.ident (A := A) (B := B) hlo' hle
  unfold typeSelectorLength
  rw [A.value_bind, B.value_bind, A.value_lengthOf, B.value_lengthOf, hspace.len,
    Nat.add_assoc d, h.is_eq (by decide) hlo' hle]
  split
  · next hs =>
    refine ⟨rfl, ?_⟩
    change i + (A.len .namespacePart i + 1) ≤ hi
    have := h.lt_of_is (by decide) hle hs
    omega
  · rw [A.value_bind, B.value_bind, A.value_lengthOf, B.value_lengthOf, hname.len]
    refine ⟨rfl, ?_⟩
    have hle := hname.le
    rw [A.value_pure]
    unfold lengthen
    split <;> omega

theorem parentLength_agrees (h : ts.Recurs softWalls ts' d lo hi) (hlo : lo ≤ i) (hhi : i ≤ hi) :
    B.value (parentLength ts' (d + i)) = A.value (parentLength ts i) ∧
      i + A.value (parentLength ts i) ≤ hi := by
  unfold parentLength
  rw [h.is_eq (by decide) hlo hhi]
  cases hm : ts.is i .ampersand with
  | false => exact ⟨rfl, hhi⟩
  | true =>
    have hlt := h.lt_of_is (by decide) hhi hm
    obtain ⟨hwalk, hle⟩ := Reading.walkWhile_agrees (A := A) (B := B) h (j := i + 1)
      (s := fun j => lengthOf .number j <|> lengthOf .ident j)
      (t := fun j => lengthOf .number j <|> lengthOf .ident j)
      (fun j hlo hhi => by
        have hnumber := h.number (A := A) (B := B) hlo hhi
        have hname := h.ident (A := A) (B := B) hlo hhi
        rw [A.value_orElse, B.value_orElse, A.value_lengthOf, B.value_lengthOf, A.value_lengthOf,
          B.value_lengthOf, hnumber.len, hname.len]
        refine ⟨rfl, ?_⟩
        split
        · exact hname.le
        · exact hnumber.le) (by omega) hlt
    rw [if_pos rfl, if_pos rfl, A.value_bind, B.value_bind, parentSuffixLength, parentSuffixLength,
      A.value_bind, B.value_bind, A.value_tokensBetween, B.value_tokensBetween, A.value_pure,
      B.value_pure, Nat.add_assoc d, hwalk]
    omega

/-- The parts of a compound agree if the rules for them do. -/
theorem compoundPartLength_agrees (h : ts.Recurs softWalls ts' d lo hi) (hlo : lo ≤ i)
    (hhi : i ≤ hi) (hattribute : A.Agrees B d hi .attributeSelector i)
    (hpseudo : A.Agrees B d hi .pseudoClass i) :
    B.value (compoundPartLength ts' (d + i)) = A.value (compoundPartLength ts i) ∧
      i + A.value (compoundPartLength ts i) ≤ hi := by
  have hid := h.idSelector (A := A) (B := B) hlo hhi
  have hclass := h.classSelector (A := A) (B := B) hlo hhi
  obtain ⟨helement, hle⟩ := pseudoElementLength_agrees (A := A) (B := B) h hlo hhi
  have hpseudo' : B.value (pseudoLength ts' (d + i)) = A.value (pseudoLength ts i) ∧
      i + A.value (pseudoLength ts i) ≤ hi := by
    rw [pseudoLength, pseudoLength, A.value_orElse, B.value_orElse, A.value_lengthOf,
      B.value_lengthOf, helement, hpseudo.len]
    refine ⟨rfl, ?_⟩
    split
    · exact hpseudo.le
    · exact hle
  rw [value_compoundPartLength, value_compoundPartLength, hid.len, hclass.len, hattribute.len,
    hpseudo'.1]
  refine ⟨rfl, ?_⟩
  split
  · split
    · split
      · exact hpseudo'.2
      · exact hattribute.le
    · exact hclass.le
  · exact hid.le

/-- A compound is the same in both streams if what leads it and its parts are. -/
theorem compoundMatch_eq
    (hlead : B.value (typeSelectorLength ts' (d + i) <|> parentLength ts' (d + i)) =
      A.value (typeSelectorLength ts i <|> parentLength ts i))
    (hparts : ∀ lead, lead = A.value (typeSelectorLength ts i <|> parentLength ts i) →
      B.value (walkWhile ts'.size (compoundPartLength ts') (d + (i + lead))) =
        d + A.value (walkWhile ts.size (compoundPartLength ts) (i + lead))) :
    B.value (compoundMatch ts' (d + i)) = A.value (compoundMatch ts i) := by
  have hparts := hparts _ rfl
  unfold compoundMatch
  rw [A.value_bind, B.value_bind, hlead, A.value_bind, B.value_bind, A.value_bind, B.value_bind,
    A.value_tokensBetween, B.value_tokensBetween, Nat.add_assoc d, hparts, Nat.add_sub_add_left]
  rfl

/-! ## Whole selectors -/

theorem combinatorLength_agrees (h : ts.Recurs closedWalls ts' d lo hi) (hlo : lo ≤ i)
    (hhi : i ≤ hi) : B.value (combinatorLength ts' (d + i)) = A.value (combinatorLength ts i) ∧
      i + A.value (combinatorLength ts i) ≤ hi := by
  have hs : ts.Recurs softWalls ts' d lo hi := h.widen (by decide)
  have hbars : (ts'.is (d + i) .bar && ts'.is (d + i + 1) .bar) =
      (ts.is i .bar && ts.is (i + 1) .bar) := by
    rw [h.is_eq (by decide) hlo hhi]
    cases hm : ts.is i .bar with
    | false => rfl
    | true =>
      have hlt := h.lt_of_is (by decide) hhi hm
      rw [Nat.add_assoc, h.is_eq (by decide) (by omega) hlt]
  unfold combinatorLength
  rw [hbars, h.isAny_eq (by decide) hlo hhi, h.is_eq (k := .slash) (by decide) hlo hhi]
  split
  · next hm =>
    obtain ⟨hfirst, hsecond⟩ := Bool.and_eq_true_iff.1 hm
    exact ⟨rfl, h.lt_of_is (by decide) (h.lt_of_is (by decide) hhi hfirst) hsecond⟩
  split
  · next hm => exact ⟨rfl, h.lt_of_isAny (by decide) hhi hm⟩
  split
  · next hm =>
    have hlt := h.lt_of_is (by decide) hhi hm
    have hname := hs.ident (A := A) (B := B) (show lo ≤ i + 1 by omega) hlt
    rw [A.value_bind, B.value_bind, A.value_lengthOf, B.value_lengthOf, Nat.add_assoc d,
      hname.len, Nat.add_assoc d, h.is_eq (by decide) (by omega) hname.le]
    refine ⟨rfl, ?_⟩
    rw [A.value_pure]
    split
    · next hend =>
      have := h.lt_of_is (by decide) hname.le (Bool.and_eq_true_iff.1 hend).2
      omega
    · exact hhi
  · exact ⟨rfl, hhi⟩

theorem afterCompound_agrees (h : ts.Recurs closedWalls ts' d lo hi) (wm : ts.WellMarked)
    (wm' : ts'.WellMarked)
    (hin : ∀ j, lo ≤ j → j ≤ hi → A.Agrees B d hi .compound j ∧ A.Agrees B d hi .combinator j)
    (hlo : lo ≤ i) (hhi : i ≤ hi) :
    B.value (afterCompound (d + i)) = A.value (afterCompound i) ∧
      i + (A.value (afterCompound i)).length ≤ hi := by
  have hn : ts.Recurs snugWalls ts' d lo hi := h.widen (by decide)
  have hgap := hn.spacing (A := A) (B := B) wm wm' hlo hhi
  obtain ⟨hcompound, hcombinator⟩ := hin (i + A.len .spacing i) (by omega) hgap.le
  have hle := hcombinator.le
  have hgap' := hn.spacing (A := A) (B := B) wm wm' (show lo ≤ i + A.len .spacing i +
    A.len .combinator (i + A.len .spacing i) by omega) hle
  obtain ⟨hnext, _⟩ := hin _ (by omega) hgap'.le
  unfold afterCompound
  rw [A.value_bind, B.value_bind, A.value_lengthOf, B.value_lengthOf, hgap.len, A.value_bind,
    B.value_bind, A.value_lengthOf, B.value_lengthOf, Nat.add_assoc d, hcombinator.len]
  split
  · split
    · exact ⟨rfl, hhi⟩
    · rw [A.value_bind, B.value_bind, A.value_lengthOf, B.value_lengthOf, hcompound.len]
      refine ⟨rfl, ?_⟩
      have hle := hcompound.le
      change i + lengthen _ _ ≤ hi
      unfold lengthen
      split <;> omega
  · dsimp only
    rw [A.value_bind, B.value_bind, A.value_lengthOf, B.value_lengthOf, Nat.add_assoc d,
      ← Nat.add_assoc i, hgap'.len, A.value_bind, B.value_bind, A.value_lengthOf,
      B.value_lengthOf, Nat.add_assoc d, hnext.len]
    have hle' := hnext.le
    generalize A.len .compound _ = n at hle'
    cases n with
    | zero =>
      refine ⟨rfl, ?_⟩
      change i + (_ + _) ≤ hi
      omega
    | succ n =>
      refine ⟨rfl, ?_⟩
      change i + (_ + _ + _ + (n + 1)) ≤ hi
      omega

theorem afterCombinator_agrees (h : ts.Recurs closedWalls ts' d lo hi) (wm : ts.WellMarked)
    (wm' : ts'.WellMarked)
    (hin : ∀ j, lo ≤ j → j ≤ hi → A.Agrees B d hi .compound j ∧ A.Agrees B d hi .combinator j)
    (hlo : lo ≤ i) (hhi : i ≤ hi) :
    B.value (afterCombinator (d + i)) = A.value (afterCombinator i) ∧
      i + (A.value (afterCombinator i)).length ≤ hi := by
  have hn : ts.Recurs snugWalls ts' d lo hi := h.widen (by decide)
  have hgap := hn.spacing (A := A) (B := B) wm wm' hlo hhi
  obtain ⟨hcompound, _⟩ := hin (i + A.len .spacing i) (by omega) hgap.le
  have hle := hcompound.le
  unfold afterCombinator
  rw [A.value_bind, B.value_bind, A.value_lengthOf, B.value_lengthOf, hgap.len, A.value_bind,
    B.value_bind, A.value_lengthOf, B.value_lengthOf, Nat.add_assoc d, hcompound.len]
  generalize A.len .compound (i + A.len .spacing i) = n at hle
  cases n with
  | zero => exact ⟨rfl, hhi⟩
  | succ n =>
    have hgap' := hn.spacing (A := A) (B := B) wm wm'
      (show lo ≤ i + A.len .spacing i + (n + 1) by omega) hle
    obtain ⟨_, hnext⟩ := hin _ (by omega) hgap'.le
    change B.value (lengthOf .spacing (d + i + (A.len .spacing i + (n + 1))) >>= _) =
      A.value (lengthOf .spacing (i + (A.len .spacing i + (n + 1))) >>= _) ∧ i + Step.length
        (A.value (lengthOf .spacing (i + (A.len .spacing i + (n + 1))) >>= _)) ≤ hi
    rw [A.value_bind, B.value_bind, A.value_lengthOf, B.value_lengthOf, Nat.add_assoc d,
      ← Nat.add_assoc i, hgap'.len, A.value_bind, B.value_bind, A.value_lengthOf,
      B.value_lengthOf, Nat.add_assoc d, hnext.len]
    have hle' := hnext.le
    generalize A.len .combinator _ = m at hle'
    cases m with
    | zero =>
      refine ⟨rfl, ?_⟩
      change i + (_ + _) ≤ hi
      omega
    | succ m =>
      refine ⟨rfl, ?_⟩
      change i + (_ + _ + _ + (m + 1)) ≤ hi
      omega

theorem selectorMatch_agrees (h : ts.Recurs closedWalls ts' d lo hi) (wm : ts.WellMarked)
    (wm' : ts'.WellMarked)
    (hin : ∀ j, i ≤ j → j ≤ hi → A.Agrees B d hi .compound j ∧ A.Agrees B d hi .combinator j)
    (hlo : lo ≤ i) (hhi : i ≤ hi) :
    B.value (selectorMatch ts' (d + i)) = A.value (selectorMatch ts i) ∧
      ∀ m, A.value (selectorMatch ts i) = some m → i + m.length ≤ hi := by
  have hrest := h.tail hlo
  obtain ⟨hcompound, hcombinator⟩ := hin i (Nat.le_refl i) hhi
  have hle := hcompound.le
  have hle' := hcombinator.le
  have hwalk : ∀ {step : Nat → Lookahead Step} {n : Nat} {lead : SelectorLead},
      (∀ j, i ≤ j → j ≤ hi → B.value (step (d + j)) = A.value (step j) ∧
        j + (A.value (step j)).length ≤ hi) → i + n ≤ hi →
      B.value (do
        let stop ← walk ts'.size step (d + i + n)
        return Match.of? (← tokensBetween (d + i) stop) lead) =
      A.value (do
        let stop ← walk ts.size step (i + n)
        return Match.of? (← tokensBetween i stop) lead) ∧
      ∀ m, A.value (do
        let stop ← walk ts.size step (i + n)
        return Match.of? (← tokensBetween i stop) lead) = some m → i + m.length ≤ hi := by
    intro step n lead hstep hn
    obtain ⟨he, hend⟩ := Reading.walk_agrees (A := A) (B := B) hrest hstep
      (show i ≤ i + n by omega) hn
    rw [A.value_bind, B.value_bind, A.value_bind, B.value_bind, A.value_tokensBetween,
      B.value_tokensBetween, Nat.add_assoc d, he, Nat.add_sub_add_left]
    refine ⟨rfl, fun m hm => ?_⟩
    obtain ⟨_, hl⟩ := of?_eq_some hm
    omega
  unfold selectorMatch
  rw [A.value_bind, B.value_bind, A.value_lengthOf, B.value_lengthOf, hcompound.len]
  generalize A.len .compound i = n at hle
  cases n with
  | succ n => exact hwalk (fun j hj hj' => afterCompound_agrees hrest wm wm' hin hj hj') hle
  | zero =>
    change B.value (lengthOf .combinator (d + i) >>= _) =
      A.value (lengthOf .combinator i >>= _) ∧
        ∀ m : Match SelectorLead, A.value (lengthOf .combinator i >>= _) = some m →
          i + m.length ≤ hi
    rw [A.value_bind, B.value_bind, A.value_lengthOf, B.value_lengthOf, hcombinator.len]
    generalize A.len .combinator i = m at hle'
    cases m with
    | succ m => exact hwalk (fun j hj hj' => afterCombinator_agrees hrest wm wm' hin hj hj') hle'
    | zero =>
      refine ⟨rfl, fun m hm => ?_⟩
      cases hm

theorem afterComma_agrees {r : Rule} (h : ts.Recurs closedWalls ts' d lo hi) (wm : ts.WellMarked)
    (wm' : ts'.WellMarked) (hin : ∀ j, lo ≤ j → j ≤ hi → A.Agrees B d hi r j) (hlo : lo ≤ i)
    (hhi : i ≤ hi) : B.value (afterComma ts' r (d + i)) = A.value (afterComma ts r i) ∧
      i + A.value (afterComma ts r i) ≤ hi := by
  have hn : ts.Recurs snugWalls ts' d lo hi := h.widen (by decide)
  have hgap := hn.spacing (A := A) (B := B) wm wm' hlo hhi
  unfold afterComma
  rw [A.value_bind, B.value_bind, A.value_lengthOf, B.value_lengthOf, hgap.len, Nat.add_assoc d,
    h.is_eq (by decide) (by omega) hgap.le]
  split
  · next hcomma =>
    have hlt := h.lt_of_is (by decide) hgap.le hcomma
    have hgap' := hn.spacing (A := A) (B := B) wm wm'
      (show lo ≤ i + A.len .spacing i + 1 by omega) hlt
    have hnext := hin _ (show lo ≤ i + A.len .spacing i + 1 +
      A.len .spacing (i + A.len .spacing i + 1) by omega) hgap'.le
    rw [A.value_bind, B.value_bind, A.value_lengthOf, B.value_lengthOf, Nat.add_assoc d,
      hgap'.len, A.value_bind, B.value_bind, A.value_lengthOf, B.value_lengthOf,
      Nat.add_assoc d, hnext.len]
    refine ⟨rfl, ?_⟩
    have hle := hnext.le
    rw [A.value_pure]
    unfold lengthen
    split <;> omega
  · exact ⟨rfl, hhi⟩

theorem commaListLength_agrees {r : Rule} (h : ts.Recurs closedWalls ts' d lo hi)
    (wm : ts.WellMarked) (wm' : ts'.WellMarked)
    (hin : ∀ j, i ≤ j → j ≤ hi → A.Agrees B d hi r j) (hlo : lo ≤ i) (hhi : i ≤ hi) :
    B.value (commaListLength ts' r (d + i)) = A.value (commaListLength ts r i) ∧
      i + A.value (commaListLength ts r i) ≤ hi := by
  have hrest := h.tail hlo
  have hfirst := hin i (Nat.le_refl i) hhi
  have hle := hfirst.le
  unfold commaListLength
  rw [A.value_bind, B.value_bind, A.value_lengthOf, B.value_lengthOf, hfirst.len]
  generalize A.len r i = n at hle
  cases n with
  | zero => exact ⟨rfl, hhi⟩
  | succ n =>
    obtain ⟨he, hend⟩ := Reading.walkWhile_agrees (A := A) (B := B) hrest
      (fun j hj hj' => afterComma_agrees hrest wm wm' hin hj hj') (show i ≤ i + (n + 1) by omega) hle
    change B.value (walkWhile ts'.size (afterComma ts' r) (d + i + (n + 1)) >>= _) =
      A.value (walkWhile ts.size (afterComma ts r) (i + (n + 1)) >>= _) ∧
        i + A.value (walkWhile ts.size (afterComma ts r) (i + (n + 1)) >>= _) ≤ hi
    rw [A.value_bind, B.value_bind, A.value_tokensBetween, B.value_tokensBetween, Nat.add_assoc d,
      he]
    omega

end LessCss
