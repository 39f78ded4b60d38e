import LessCss.Proofs.Recurrence.Trees

/-! Compounds and selectors that recur. Between closed walls the builders of compounds, selectors and
lists of them build the same nodes in both streams, by induction on what is left up to the wall,
since a pseudo-class holds selectors of its own. A compound that covers a whole stream is built again
before a soft wall as well. -/

namespace LessCss

open Lookahead Builder Grammar Tokens

variable {ts ts' : Tokens} {A : Reading ts false} {B : Reading ts' false}
  {walls : List Token.Kind} {d s lo hi i j o c : Nat}

/-! ## Compounds -/

theorem compoundPart_copies (h : ts.Recurs softWalls ts' d lo hi) (wm : ts.WellMarked)
    (wm' : ts'.WellMarked) (hlo : lo ≤ i) (hhi : i ≤ hi) (hsi : s ≤ i)
    (hin : ∀ o c, i < o → ts.closer? o .leftParen = some c → c < hi → A.EntersAlike ts' d o c)
    (hattribute : A.Agrees B d hi .attributeSelector i)
    (hpseudo : A.Agrees B d hi .pseudoClass i) :
    CopiesRound A B d s (compoundPart ts) (compoundPart ts') i
      (A.value (compoundPartLength ts i)) := by
  rw [value_compoundPartLength]
  refine copiesRound_choose (h.idSelector hlo hhi).len
    (fun hpos => (idNode_copies h hlo hhi wm hpos).round hpos) fun _ => ?_
  refine copiesRound_choose (h.classSelector hlo hhi).len
    (fun hpos => (classNode_copies h hlo hhi wm hpos).round hpos) fun _ => ?_
  refine copiesRound_choose hattribute.len
    (fun hpos => (attributeSelectorNode_copies h wm wm' hlo hattribute hpos).round hpos) fun _ => ?_
  refine copiesRound_sees ?_ fun hpos =>
    (pseudoNode_copies h wm wm' hlo hhi hsi hin hpseudo hpos).round hpos
  rw [pseudoLength, pseudoLength, A.value_orElse, B.value_orElse, A.value_lengthOf,
    B.value_lengthOf, hpseudo.len, (pseudoElementLength_agrees (A := A) (B := B) h hlo hhi).1]

theorem compoundLeadNodes_copies (h : ts.Recurs softWalls ts' d lo hi) (wm : ts.WellMarked)
    (hlo : lo ≤ i) (hhi : i ≤ hi) (hspace : A.Agrees B d hi .namespacePart i)
    (hpos : 0 < A.value (typeSelectorLength ts i <|> parentLength ts i)) :
    Copies A B d s (compoundLeadNodes ts) (compoundLeadNodes ts') i
      (i + A.value (typeSelectorLength ts i <|> parentLength ts i)) := by
  rw [A.value_orElse] at hpos ⊢
  refine copies_choose_sees (typeSelectorLength_agrees h hspace hlo).1 (fun ht => ?_) fun hz => ?_
  · rw [if_neg (show ¬ A.value (typeSelectorLength ts i) = 0 by omega)]
    exact (typeSelectorNode_copies h hlo hhi wm hspace ht).single
  · rw [if_pos hz] at hpos ⊢
    exact parentNodes_copies h hlo hhi hpos

/-- A compound is built alike if its parts are, where `I` says at which tokens a part can start. -/
theorem compoundNode_copies_of_parts (h : ts.Recurs softWalls ts' d lo hi) (wm : ts.WellMarked)
    (hlo : lo ≤ i) (hspace : A.Agrees B d hi .namespacePart i)
    (hfound : A.Agrees B d hi .compound i) (hpos : 0 < A.len .compound i) {I : Nat → Prop}
    (hin : ∀ j, I j → lo ≤ j ∧ j ≤ hi)
    (hnext : ∀ j, I j → I (j + A.value (compoundPartLength ts j)))
    (hround : ∀ j, I j → CopiesRound A B d s (compoundPart ts) (compoundPart ts') j
      (A.value (compoundPartLength ts j)))
    (hI : I (i + A.value (typeSelectorLength ts i <|> parentLength ts i))) :
    Copies A B d s (compoundNode ts) (compoundNode ts') i (i + A.len .compound i) := by
  have hle := hfound.le
  obtain ⟨m, ht, hlen⟩ := A.exists_of_len hpos
  obtain ⟨lead, rfl, hshape, hend⟩ := compound_cases (A.value_of_tell wm rfl ht)
  refine Copies.branch h .compoundSelector (copies_ask hfound.tell (copies_check
    (copies_cursor ?_))) hlo (by omega)
  rw [ht, ← hlen]
  have hlead : Copies A B d s
      (given ((some m.shape : Option CompoundLead) == some .typed) (compoundLeadNodes ts))
      (given ((some m.shape : Option CompoundLead) == some .typed) (compoundLeadNodes ts')) i
      (i + A.value (typeSelectorLength ts i <|> parentLength ts i)) := by
    rw [hshape]
    refine copies_given (fun hty => ?_) fun hun => ?_
    · refine compoundLeadNodes_copies h wm hlo (by omega) hspace (Nat.pos_of_ne_zero fun hz => ?_)
      rw [if_pos hz] at hty
      cases hty
    · refine Decidable.byContradiction fun hn => ?_
      rw [if_neg (by omega)] at hun
      cases hun
  refine hlead.then fun first => ?_
  refine (copies_collectWhile h hin hnext hround hI).then fun parts => ?_
  rw [← hend]
  exact copies_cursor (copies_check (copies_pure (first ++ parts)))

/-! ## Between closed walls -/

theorem combinatorNode_copies (h : ts.Recurs walls ts' d lo hi) (hlo : lo ≤ i)
    (hfound : A.Agrees B d hi .combinator i) (hpos : 0 < A.len .combinator i) :
    Copies A B d s (combinatorNode ts) (combinatorNode ts') i (i + A.len .combinator i) :=
  copies_leafOfRule h .combinator hfound.len hpos hlo hfound.le

section
variable (h : ts.Recurs closedWalls ts' d lo hi) (hp : ts.Paired ts' d lo hi) (hn : ts.Nests)
  (wm : ts.WellMarked) (wm' : ts'.WellMarked)
  (hin : ∀ o c, lo ≤ o → ts.closer? o .leftParen = some c → c < hi → A.EntersAlike ts' d o c)
include h hp hn wm wm' hin

theorem compoundNode_copies (hlo : lo ≤ i) (hsi : s ≤ i) (hhi : i ≤ hi)
    (hpos : 0 < A.len .compound i) :
    Copies A B d s (compoundNode ts) (compoundNode ts') i (i + A.len .compound i) := by
  have hs : ts.Recurs softWalls ts' d lo hi := h.widen (by decide)
  have hspace := (h.widen (by decide)).namespacePart (A := A) (B := B) hlo hhi
  have hall : ∀ j, lo ≤ j → j ≤ hi → A.SelectorsAgree B d hi j :=
    fun j hj hj' => selectors_agree h hp hn wm wm' hj hj'
  have hlead : i + A.value (typeSelectorLength ts i <|> parentLength ts i) ≤ hi := by
    rw [A.value_orElse]
    split
    · exact (parentLength_agrees (A := A) (B := B) hs hlo hhi).2
    · exact (typeSelectorLength_agrees hs hspace hlo).2
  refine compoundNode_copies_of_parts (I := fun j => i ≤ j ∧ j ≤ hi) hs wm hlo hspace
    (hall i hlo hhi).compound hpos (fun j hj => ⟨by omega, hj.2⟩) (fun j hj => ⟨by omega, ?_⟩)
    (fun j hj => ?_) ⟨by omega, hlead⟩
  · have hj' := hall j (by omega) hj.2
    exact (compoundPartLength_agrees hs (by omega) hj.2 hj'.attributeSelector hj'.pseudoClass).2
  · have hj' := hall j (by omega) hj.2
    exact compoundPart_copies hs wm wm' (by omega) hj.2 (by omega)
      (fun o c ho => hin o c (by omega)) hj'.attributeSelector hj'.pseudoClass

theorem selectorPiece_copies (hlo : lo ≤ i) (hsi : s ≤ i) (hhi : j ≤ hi)
    (hpiece : SelectorPiece A i j) :
    Copies A B d s
      (choose (starts .spacing) (spacingNodes ts)
        (choose (starts .combinator) (single (combinatorNode ts)) (single (compoundNode ts))))
      (choose (starts .spacing) (spacingNodes ts')
        (choose (starts .combinator) (single (combinatorNode ts'))
          (single (compoundNode ts')))) i j := by
  have hij : i ≤ j := by cases hpiece <;> omega
  have hs : ts.Recurs snugWalls ts' d lo hi := h.widen (by decide)
  have hspacing := hs.spacing (A := A) (B := B) wm wm' hlo (by omega)
  have hcombinator := (selectors_agree (A := A) (B := B) h hp hn wm wm' hlo
    (show i ≤ hi by omega)).combinator
  cases hpiece with
  | spacing pos =>
    exact copies_choose_starts hspacing.len
      (fun _ => spacingNodes_copies hs wm wm' hlo (by omega)) fun hz => by omega
  | combinator pos =>
    have hz := spacing_of_combinator wm pos
    refine copies_choose_starts hspacing.len (fun hpos => by omega) fun _ => ?_
    refine copies_choose_starts hcombinator.len (fun _ => ?_) fun hz => by omega
    exact (combinatorNode_copies h hlo hcombinator pos).single
  | compound pos =>
    have hz := spacing_of_compound wm pos
    have hz' := combinator_of_compound wm pos
    refine copies_choose_starts hspacing.len (fun hpos => by omega) fun _ => ?_
    refine copies_choose_starts hcombinator.len (fun hpos => by omega) fun _ => ?_
    exact (compoundNode_copies h hp hn wm wm' hin hlo hsi (by omega) pos).single

theorem selectorNode_copies (hlo : lo ≤ i) (hsi : s ≤ i) (hhi : i ≤ hi)
    (hpos : 0 < A.len .selector i) :
    Copies A B d s (selectorNode ts) (selectorNode ts') i (i + A.len .selector i) := by
  have hfound := (selectors_agree (A := A) (B := B) h hp hn wm wm' hlo hhi).selector
  have hle := hfound.le
  refine Copies.branch h .selector (copies_cursor (copies_lookOf hfound.len ?_)) hlo (by omega)
  rw [Nat.add_assoc]
  exact copies_collectTo (selector_trail wm hpos) fun j l hj hl hpiece =>
    selectorPiece_copies h hp hn wm wm' hin (by omega) (by omega) (by omega) hpiece

theorem selectorGroupNodes_copies (hlo : lo ≤ i) (hsi : s ≤ i) (hhi : i ≤ hi)
    (hpos : 0 < A.len .selectorGroup i) :
    Copies A B d s (selectorGroupNodes ts) (selectorGroupNodes ts') i
      (i + A.len .selectorGroup i) := by
  have hs : ts.Recurs snugWalls ts' d lo hi := h.widen (by decide)
  have hall : ∀ j, lo ≤ j → j ≤ hi → A.SelectorsAgree B d hi j :=
    fun j hj hj' => selectors_agree h hp hn wm wm' hj hj'
  have hfound := (hall i hlo hhi).group
  have hlen := A.len_of_sole (r := .selectorGroup) (u := ()) wm rfl (A.lt_of_len hpos) rfl
  refine copies_cursor (copies_lookOf hfound.len ?_)
  rw [Nat.add_assoc]
  have hle := hfound.le
  obtain ⟨hfirst, hend⟩ := commaList_cases (hlen ▸ hpos)
  rw [← hlen] at hend
  have htrail := A.trail_walkWhile ts.size (afterComma ts .selector) (i + A.len .selector i)
  rw [← hend] at htrail
  have hnodes : Copies A B d s (commaListNodes ts (i + A.len .selectorGroup i) (selectorNode ts))
      (commaListNodes ts' (d + (i + A.len .selectorGroup i)) (selectorNode ts')) i
      (i + A.len .selectorGroup i) := by
    refine (selectorNode_copies h hp hn wm wm' hin hlo hsi hhi hfirst).then fun first => ?_
    refine (copies_collectTo htrail fun j l hj hl hround => ?_).then fun rest =>
      copies_pure (first :: rest)
    obtain ⟨_, hround, rfl⟩ := hround
    obtain ⟨c, e, hc, _, he, hep, hstop⟩ := afterComma_cases hround
    refine (spacingNodes_copies hs wm wm' (by omega) (by omega)).then fun before => ?_
    rw [← hc]
    refine (copies_leaf h .delimiter Nat.one_pos (by omega) (by omega)).then fun comma => ?_
    refine (spacingNodes_copies hs wm wm' (by omega) (by omega)).then fun after => ?_
    rw [← he]
    refine (selectorNode_copies h hp hn wm wm' hin (by omega) (by omega) (by omega) hep).then
      fun selector => ?_
    exact (copies_pure (before ++ [comma] ++ after ++ [selector])).cast (by omega)
  exact hnodes.then fun nodes => copies_cursor (copies_check (copies_pure nodes))

end

/-- What stands in parentheses is built alike. -/
theorem Tokens.Parenthesized.entersAlike (h : ts.Parenthesized ts' d o c)
    (hp : ts.Paired ts' d (o + 1) c) (hn : ts.Nests) (A : Reading ts false) (B : Reading ts' false)
    (wm : ts.WellMarked) (wm' : ts'.WellMarked) : A.EntersAlike ts' d o c := by
  generalize hm : c - o = m
  induction m using Nat.strongRecOn generalizing o c with
  | ind m ih =>
    refine ⟨h, fun hargs => ?_⟩
    obtain ⟨hpos, hend⟩ := hargs
    have hin : ∀ o' c', o + 1 ≤ o' → ts.closer? o' .leftParen = some c' → c' < c →
        A.EntersAlike ts' d o' c' := by
      intro o' c' ho hc hlt
      have hoc := (wm.closer_lt hc).1
      have hc' := hp.closer o' ho (by omega)
      rw [hc] at hc'
      exact ih _ (by omega) (h.inside.parenthesized hn wm ho hlt hc hc')
        (hp.inside hn ho (by omega) hc) rfl
    obtain ⟨ns, hns, hns'⟩ := selectorGroupNodes_copies (B := B) (s := o + 1) h.inside hp hn wm wm'
      hin (Nat.le_refl _) (Nat.le_refl _) h.lt hpos
    rw [hend] at hns hns'
    have hmeaning : Interior.selectors.meaning ts (o + 1) = .ok (ns, c) :=
      Plan.Returns.meaning wm hns
    have hmeaning' : Interior.selectors.meaning ts' (d + (o + 1)) = .ok (ns, d + c) :=
      Plan.Returns.meaning wm' hns'
    exact ⟨ns, hmeaning, hmeaning'⟩

/-! ## Before a soft wall -/

/-- A compound that covers the whole stream is built again, if its namespace is found again. -/
theorem compoundNode_copies_of_found (h : ts.Recurs softWalls ts' d lo hi) (hall : ts.size ≤ hi)
    (wm : ts.WellMarked) (wm' : ts'.WellMarked) (hk : ts.Keeps ts' d) (hn : ts.Nests)
    (hlo : lo ≤ i) (hsi : s ≤ i) (hpos : 0 < A.len .compound i)
    (hcover : i + A.len .compound i = hi) (hspace : A.Agrees B d hi .namespacePart i) :
    Copies A B d s (compoundNode ts) (compoundNode ts') i (i + A.len .compound i) := by
  have hfound := compound_agrees_of_found h hall wm wm' hk hn hlo hpos hcover hspace
  obtain ⟨m, ht, hlen⟩ := A.exists_of_len hpos
  obtain ⟨lead, rfl, _, hend⟩ := compound_cases (A.value_of_tell wm rfl ht)
  have hpast : ∀ k, ts.is hi k = false := fun k => Bool.eq_false_iff.2 fun hk =>
    absurd (lt_of_is hk) (by omega)
  have hparts := parts_of_walk wm (hpast .leftParen) (hend.symm.trans (by omega))
  have hin : ∀ o c, i < o → ts.closer? o .leftParen = some c → c < hi →
      A.EntersAlike ts' d o c := by
    intro o c ho hc hchi
    exact (h.parenthesized hn wm (by omega) hchi hc (hk o c hc)).entersAlike
      (hk.paired h hn (by omega) hchi hc) hn A B wm wm'
  refine compoundNode_copies_of_parts (I := fun j => i ≤ j ∧ Parts A j hi) h wm hlo hspace hfound
    hpos (fun j hj => ⟨by omega, hj.2.le⟩) (fun j hj => ⟨by omega, ?_⟩) (fun j hj => ?_)
    ⟨by omega, hparts⟩
  · cases hj.2 with
    | refl =>
      have hz : A.value (compoundPartLength ts hi) = 0 := Nat.eq_zero_of_not_pos fun hpart =>
        absurd (lt_of_isAny (compoundPart_head wm hpart)) (by omega)
      rw [hz]
      exact .refl hi
    | step round _ rest => exact round.2.1 ▸ rest
  · have hparts : A.Agrees B d hi .attributeSelector j ∧ A.Agrees B d hi .pseudoClass j := by
      cases hj.2 with
      | refl =>
        refine ⟨attributeSelector_agrees_of_found h hall wm wm' (by omega) (Nat.le_refl hi)
          fun hm => ?_, pseudoClass_agrees_of_found h hall wm wm' hk hn (by omega) (Nat.le_refl hi)
          fun hm => ?_⟩
        · rw [hpast] at hm
          cases hm
        · rw [hpast] at hm
          cases hm
      | step round _ _ =>
        obtain ⟨hpart, rfl, hno⟩ := round
        exact compoundPart_agrees_of_found h hall wm wm' hk hn (by omega) hpart hno
    exact compoundPart_copies h wm wm' (by omega) hj.2.le (by omega)
      (fun o c ho => hin o c (by omega)) hparts.1 hparts.2

end LessCss
