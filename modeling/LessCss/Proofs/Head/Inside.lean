import LessCss.Proofs.Head.Selectors

/-! Rules before a closer. Where a path leads to a closer of the shorter stream, everything that is
asked ends before that closer, so every rule says there what it says in the longer stream. -/

namespace LessCss

open Lookahead Grammar Tokens

variable {ts ts' : Tokens} {A : Reading ts false} {B : Reading ts' false} {i j : Nat} {r : Rule}

theorem Reading.len_congr (h : A.tell r i = B.tell r i) : A.len r i = B.len r i :=
  congrArg Answer.length h

/-! ## Tests, measures and repetitions -/

namespace Tokens.Inside

variable (hi : ts.Inside ts' i) (h : ts.Head ts')
include hi h

theorem is_eq (k : Token.Kind) : ts.is i k = ts'.is i k := (h.is_eq hi.lt k).symm

theorem text_eq : ts.text i = ts'.text i := (h.text_eq hi.lt).symm

theorem kept {a b : Nat} (hk : ts.Kept i a b) (hp : ts'.Path i (i + b)) : a = b :=
  hk (Nat.le_of_lt (hi.end_lt h hp))

theorem keeps (hk : A.Keeps B r i) (hp : ts'.Path i (i + B.len r i)) : A.tell r i = B.tell r i :=
  hk (Nat.le_of_lt (hi.end_lt h hp))

/-- A rule says the same if its body does. -/
theorem tell_eq (hv : A.value (r.body ts i) = B.value (r.body ts' i)) : A.tell r i = B.tell r i := by
  rw [A.tell_eq_value hi.lt, B.tell_eq_value (h.lt_size hi.lt), hv]

theorem walkWhile_eq {scan scan' : Nat → Lookahead Nat}
    (hscan : ∀ j, i ≤ j → ts.Inside ts' j → A.value (scan j) = B.value (scan' j))
    (hpath : ∀ j, ts'.Path j (j + B.value (scan' j))) :
    A.value (walkWhile ts.size scan i) = B.value (walkWhile ts'.size scan' i) := by
  have hwalk : ts'.Path i (B.value (walkWhile ts'.size scan' i)) := path_walkWhile hpath i
  have hend := Nat.le_of_lt (hi.end_lt h hwalk)
  refine walk_kept (I := fun j => i ≤ j ∧ ts.Inside ts' j) h (fun j hj => ?_)
    (fun j hj _ _ _ => ?_) hend ⟨Nat.le_refl i, hi⟩ rfl
  · rw [B.value_map]
    exact ⟨Nat.le_trans hj.1 (Nat.le_add_right j _), hj.2.next h (hpath j)⟩
  · rw [A.value_map, B.value_map, hscan j hj.1 hj.2]

/-- A repetition up to the same token in both streams. -/
theorem walkWhile_upTo (stop : Nat) {scan scan' : Nat → Lookahead Nat}
    (hscan : ∀ j, ts.Inside ts' j → A.value (scan j) = B.value (scan' j))
    (hpath : ∀ j, ts'.Path j (j + B.value (scan' j))) :
    A.value (walkWhile stop scan i) = B.value (walkWhile stop scan' i) := by
  generalize hn : stop - i = n
  induction n using Nat.strongRecOn generalizing i with
  | ind n ih =>
    rw [walkWhile, walkWhile, A.value_walk, B.value_walk, A.value_map, B.value_map, hscan i hi]
    simp only [Step.go, and_true]
    split
    · next hlt =>
      split
      · next hpos => exact ih _ (by omega) (hi.next h (hpath i)) rfl
      · rfl
    · rfl

theorem clear : B.Clear ts i := fun _ =>
  Nat.le_of_lt (hi.end_lt h (namespacePart_path h.right i))

theorem dotsEnd : B.DotsEnd ts i := fun _ _ =>
  Nat.le_of_lt (hi.end_lt h ((var_path h.right i).trans (path_spanEnd (by decide) _)))

/-! ## Selectors -/

theorem spacing : A.len .spacing i = B.len .spacing i :=
  hi.kept h (spacing_keeps h i).len (spacing_path h.right i)

theorem afterSpacing : ts.Inside ts' (i + B.len .spacing i) := hi.next h (spacing_path h.right i)

theorem selector : A.tell .selector i = B.tell .selector i := by
  refine hi.keeps h (selector_keeps h (fun _ => hi.clear h) ?_) (selector_path h.right i)
  rintro e rfl
  exact ((hi.next h (selector_path h.right i)).afterSpacing h).clear h

end Tokens.Inside

/-! ## Lists -/

theorem value_afterComma (A : Reading ts false) {c e : Nat} (hc : c = i + A.len .spacing i)
    (he : e = c + 1 + A.len .spacing (c + 1)) : A.value (afterComma ts r i) =
      if ts.is c .comma = true then lengthen (A.len r e) (e - i) else 0 := by
  subst he hc
  unfold afterComma
  rw [A.value_bind, A.value_lengthOf]
  split
  · rw [A.value_bind, A.value_lengthOf, A.value_bind, A.value_lengthOf, A.value_pure]
    congr 1
    omega
  · rfl

theorem value_commaListLength (A : Reading ts false) : A.value (commaListLength ts r i) =
    if A.len r i = 0 then 0
    else A.value (walkWhile ts.size (afterComma ts r) (i + A.len r i)) - i := by
  unfold commaListLength
  rw [A.value_bind, A.value_lengthOf]
  split
  · next hz => rw [if_pos hz]; rfl
  · next hn => rw [if_neg hn, A.value_bind]; rfl

theorem afterComma_path (hr : ts.Regular) (hel : ∀ j, ts.Path j (j + A.len r j)) (i : Nat) :
    ts.Path i (i + A.value (afterComma ts r i)) := by
  refine path_add fun hj => ?_
  obtain ⟨c, e, rfl, hcomma, rfl, _, hnext⟩ := afterComma_cases hj
  rw [hnext]
  exact (spacing_path hr _).trans <| (path_token hcomma rfl).trans <|
    (spacing_path hr _).trans (hel _)

namespace Tokens.Inside

variable (hi : ts.Inside ts' i) (h : ts.Head ts')
include hi h

theorem afterComma (hel : ∀ j, ts.Inside ts' j → A.tell r j = B.tell r j) :
    A.value (afterComma ts r i) = B.value (afterComma ts' r i) := by
  have hc := hi.afterSpacing (B := B) h
  rw [value_afterComma A rfl rfl, value_afterComma B rfl rfl, hi.spacing (B := B) h, hc.is_eq h]
  split
  · next hcomma =>
    have hnext := hc.next h (path_token hcomma rfl)
    rw [hnext.spacing (B := B) h, Reading.len_congr (hel _ (hnext.afterSpacing h))]
  · rfl

theorem commaList (hel : ∀ j, ts.Inside ts' j → A.tell r j = B.tell r j)
    (hpath : ∀ j, ts'.Path j (j + B.len r j)) :
    A.value (commaListLength ts r i) = B.value (commaListLength ts' r i) := by
  rw [value_commaListLength, value_commaListLength, Reading.len_congr (hel i hi),
    (hi.next h (hpath i)).walkWhile_eq h (fun j _ hj => hj.afterComma h hel)
      (afterComma_path h.right hpath)]

theorem selectorGroup : A.tell .selectorGroup i = B.tell .selectorGroup i := by
  refine hi.tell_eq h ?_
  change A.value (sole _) = B.value (sole _)
  rw [sole, sole, A.value_bind, B.value_bind,
    hi.commaList h (fun j hj => hj.selector h) (selector_path h.right)]
  rfl

end Tokens.Inside

/-! ## Rulesets and keyframes -/

/-- A block behind something that is measured, and behind spacing. -/
theorem value_blockBehind (A : Reading ts false) {q : Lookahead Nat} {a b : Nat}
    (ha : a = i + A.value q) (hb : b = a + A.len .spacing a) :
    A.value (do
      match ← q with
      | 0 => return 0
      | n =>
        let j := i + n
        let j := j + (← lengthOf .spacing j)
        through i j (← blockLength ts j)) =
      if A.value q = 0 then 0
      else if A.value (blockLength ts b) = 0 then 0 else b + A.value (blockLength ts b) - i := by
  subst hb ha
  rw [A.value_bind]
  split
  · next hz => rw [if_pos hz]; rfl
  · next hn => rw [if_neg hn, A.value_bind, A.value_lengthOf, A.value_bind, A.value_through]

theorem value_rulesetLength (A : Reading ts false) {a b : Nat} (ha : a = i + A.len .selectorGroup i)
    (hb : b = a + A.len .spacing a) : A.value (rulesetLength ts i) =
      if A.len .selectorGroup i = 0 then 0
      else if A.value (blockLength ts b) = 0 then 0 else b + A.value (blockLength ts b) - i :=
  value_blockBehind A (q := lengthOf .selectorGroup i) ha hb

theorem value_keyframeLength (A : Reading ts false) {a b : Nat}
    (ha : a = i + A.value (commaListLength ts .keyframeSelector i)) (hb : b = a + A.len .spacing a) :
    A.value (keyframeLength ts i) =
      if A.value (commaListLength ts .keyframeSelector i) = 0 then 0
      else if A.value (blockLength ts b) = 0 then 0 else b + A.value (blockLength ts b) - i :=
  value_blockBehind A ha hb

theorem value_keyframeSelectorMatch (A : Reading ts false) (i : Nat) :
    A.value (keyframeSelectorMatch ts i) =
      if A.len .ident i = 0 then Match.of? (A.value (percentageLength ts i)) .percentage
      else if ts.join i (i + A.len .ident i) = "from" ∨ ts.join i (i + A.len .ident i) = "to" then
        Match.of? (A.len .ident i) .keyword
      else none := by
  unfold keyframeSelectorMatch
  rw [A.value_bind, A.value_lengthOf]
  split
  · next hz => rw [if_pos hz, A.value_bind, A.value_pure]
  · next hn =>
    rw [if_neg hn, A.value_pure]
    simp only [Bool.or_eq_true, beq_iff_eq]

namespace Tokens.Inside

variable (hi : ts.Inside ts' i) (h : ts.Head ts')
include hi h

theorem block : A.value (blockLength ts i) = B.value (blockLength ts' i) :=
  hi.kept h (block_kept h i) (block_path h.right i)

theorem ident : A.len .ident i = B.len .ident i :=
  hi.kept h (ident_keeps h i).len (ident_path h.right i)

theorem ruleset : A.tell .ruleset i = B.tell .ruleset i := by
  refine hi.tell_eq h ?_
  change A.value (sole _) = B.value (sole _)
  have hgroup : A.len .selectorGroup i = B.len .selectorGroup i :=
    Reading.len_congr (hi.selectorGroup h)
  have ha := hi.next h (selectorGroup_path (A := B) h.right i)
  have hb := ha.afterSpacing (B := B) h
  rw [sole, sole, A.value_bind, B.value_bind, value_rulesetLength A rfl rfl,
    value_rulesetLength B rfl rfl, hgroup, ha.spacing (B := B) h, hb.block (B := B) h]
  rfl

theorem keyframeSelector : A.tell .keyframeSelector i = B.tell .keyframeSelector i := by
  refine hi.tell_eq h ?_
  change A.value (keyframeSelectorMatch ts i) = B.value (keyframeSelectorMatch ts' i)
  have hend := hi.next h (ident_path (A := B) h.right i)
  rw [value_keyframeSelectorMatch, value_keyframeSelectorMatch, hi.ident (B := B) h,
    hi.kept h (percentage_kept (B := B) h i) (percentage_path h.right i),
    h.join_eq (Nat.le_add_right _ _) (Nat.le_of_lt hend.lt)]

theorem keyframe : A.value (keyframeLength ts i) = B.value (keyframeLength ts' i) := by
  have hlist := hi.commaList (A := A) (B := B) h (fun j hj => hj.keyframeSelector h)
    (keyframeSelector_path h.right)
  have ha := hi.next h (commaList_path h.right (keyframeSelector_path (A := B) h.right) i)
  have hb := ha.afterSpacing (B := B) h
  rw [value_keyframeLength A rfl rfl, value_keyframeLength B rfl rfl, hlist,
    ha.spacing (B := B) h, hb.block (B := B) h]

end Tokens.Inside

/-! ## Brackets that are read through -/

/-- What is there only where the tokens behind an opener are read up to its closer is kept, if it is
the same where that closer stands in the shorter stream. -/
theorem kept_of_interior {k : Token.Kind} {o a b : Nat} (h : ts.Head ts')
    (hk : k.opens?.isSome = true)
    (hA : 0 < a → ∃ c, ts.closer? o k = some c ∧ ts.Path (o + 1) c)
    (hB : 0 < b → ∃ c, ts'.closer? o k = some c ∧ c < i + b ∧ ts'.Path (o + 1) c)
    (hin : ∀ c, ts.closer? o k = some c → ts'.closer? o k = some c → ts.Inside ts' (o + 1) →
      a = b) : ts.Kept i a b := by
  intro hle
  have hclosed : ∀ c, ts.closer? o k = some c → ts'.Path (o + 1) c → a = b := by
    intro c hc hp
    obtain ⟨l, hl, hclose⟩ := h.left.linked.closes_closer hk hc
    exact hin c hc ((h.closer?_iff hk).1 hc).1 ⟨c, l, hl, hclose, hp⟩
  rcases Nat.eq_zero_or_pos a with hz | hpos
  · rcases Nat.eq_zero_or_pos b with hz' | hpos
    · omega
    · obtain ⟨c, hc, hlt, hp⟩ := hB hpos
      exact hclosed c ((h.closer?_iff hk).2 ⟨hc, by omega⟩) hp
  · obtain ⟨c, hc, hp⟩ := hA hpos
    exact hclosed c hc (h.path hp)

end LessCss
