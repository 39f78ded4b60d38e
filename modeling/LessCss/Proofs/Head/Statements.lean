import LessCss.Proofs.Head.Inside

/-! Arguments, at-rules and statements where a stream ends. -/

namespace LessCss

open Lookahead Grammar Tokens

variable {ts ts' : Tokens} {A : Reading ts false} {B : Reading ts' false} {i j : Nat}

/-! ## Arguments -/

theorem Tokens.Inside.argument (hi : ts.Inside ts' i) (h : ts.Head ts') :
    A.tell .argument i = B.tell .argument i :=
  hi.keeps h (argument_keeps h (hi.dotsEnd h)) (argument_path h.right i)

theorem Tokens.Inside.preludePart (hi : ts.Inside ts' i) (h : ts.Head ts') :
    A.tell .preludePart i = B.tell .preludePart i :=
  hi.keeps h (preludePart_keeps h (hi.dotsEnd h)) (preludePart_path h.right i)

theorem value_argumentsLength (A : Reading ts false) (i : Nat) : A.value (argumentsLength ts i) =
    (ts.closer? i .leftParen).elim 0 fun c =>
      if A.value (walkWhile c (lengthOf .argument) (i + 1)) = c then c + 1 - i else 0 := by
  unfold argumentsLength
  cases ts.closer? i .leftParen with
  | none => rfl
  | some c =>
    rw [A.value_bind]
    simp only [apply_ite A.value, A.value_tokensBetween, A.value_pure, Option.elim_some]

theorem arguments_interior (hr : ts.Regular) (hpos : 0 < A.value (argumentsLength ts i)) :
    ∃ c, ts.closer? i .leftParen = some c ∧ c < i + A.value (argumentsLength ts i) ∧
      ts.Path (i + 1) c := by
  rw [value_argumentsLength] at *
  cases hc : ts.closer? i .leftParen with
  | none =>
    rw [hc] at hpos
    cases hpos
  | some c =>
    have hlt := (hr.wm.closer_lt hc).1
    rw [hc, Option.elim_some] at hpos
    rw [Option.elim_some]
    split at hpos
    · next hend =>
      have hp : ts.Path (i + 1) (A.value (walkWhile c (lengthOf .argument) (i + 1))) :=
        path_walkWhile (argument_path hr) (i + 1)
      rw [hend] at hp
      rw [if_pos hend]
      exact ⟨c, rfl, by omega, hp⟩
    · cases hpos

section
variable (h : ts.Head ts')
include h

theorem arguments_keeps (i : Nat) : A.Keeps B .arguments i := by
  refine Reading.keeps_of_sole (r := .arguments) (u := ()) h rfl rfl fun _ => ?_
  refine kept_of_interior (k := .leftParen) (o := i) h rfl (fun hpos => ?_)
    (arguments_interior h.right) fun c hc hc' hin => ?_
  · obtain ⟨c, hc, _, hp⟩ := arguments_interior h.left hpos
    exact ⟨c, hc, hp⟩
  · have hwalk : A.value (walkWhile c (lengthOf .argument) (i + 1)) =
        B.value (walkWhile c (lengthOf .argument) (i + 1)) :=
      hin.walkWhile_upTo h c (fun j hj => Reading.len_congr (hj.argument h))
        (argument_path (A := B) h.right)
    rw [value_argumentsLength, value_argumentsLength, hc, hc', Option.elim_some, Option.elim_some,
      hwalk]

end

/-! ## Bodies of keyframes -/

theorem value_keyframesLength (A : Reading ts false) (i : Nat) : A.value (keyframesLength ts i) =
    (ts.closer? i .leftCurly).elim 0 fun c =>
      if A.value (keyframeLength ts (i + 1 + A.len .spacing (i + 1))) = 0 then 0
      else if A.value (walkWhile c (fun j => lengthOf .spacing j <|> keyframeLength ts j)
        (i + 1 + A.len .spacing (i + 1) +
          A.value (keyframeLength ts (i + 1 + A.len .spacing (i + 1))))) = c then c + 1 - i
      else 0 := by
  unfold keyframesLength
  cases ts.closer? i .leftCurly with
  | none => rfl
  | some c =>
    rw [Option.elim_some]
    dsimp only
    rw [A.value_bind, A.value_lengthOf, A.value_bind]
    split
    · next hz => rw [if_pos hz]; rfl
    · next hn =>
      rw [if_neg hn, A.value_bind]
      simp only [apply_ite A.value, A.value_tokensBetween, A.value_pure]

theorem keyframes_interior (hr : ts.Regular) (hpos : 0 < A.value (keyframesLength ts i)) :
    ∃ c, ts.closer? i .leftCurly = some c ∧ c < i + A.value (keyframesLength ts i) ∧
      ts.Path (i + 1) c := by
  obtain ⟨c, hc, hend, htrail⟩ := keyframes_cases hr.wm hpos
  exact ⟨c, hc, by omega, htrail.flatten fun _ _ => keyframesPiece_path hr⟩

theorem keyframeRound_path (hr : ts.Regular) (j : Nat) :
    ts.Path j (j + A.value (lengthOf .spacing j <|> keyframeLength ts j)) := by
  rw [A.value_orElse]
  split
  · exact keyframe_path hr j
  · exact spacing_path hr j

section
variable (h : ts.Head ts')
include h

theorem keyframes_kept (i : Nat) :
    ts.Kept i (A.value (keyframesLength ts i)) (B.value (keyframesLength ts' i)) := by
  refine kept_of_interior (k := .leftCurly) (o := i) h rfl (fun hpos => ?_)
    (keyframes_interior h.right) fun c hc hc' hin => ?_
  · obtain ⟨c, hc, _, hp⟩ := keyframes_interior h.left hpos
    exact ⟨c, hc, hp⟩
  · have hfirst := hin.afterSpacing (B := B) h
    have hrest := hfirst.next h (keyframe_path (A := B) h.right _)
    have hround : ∀ j, ts.Inside ts' j →
        A.value (lengthOf .spacing j <|> keyframeLength ts j) =
          B.value (lengthOf .spacing j <|> keyframeLength ts' j) := fun j hj => by
      rw [A.value_orElse, B.value_orElse, A.value_lengthOf, B.value_lengthOf,
        hj.spacing (B := B) h, hj.keyframe (B := B) h]
    rw [value_keyframesLength, value_keyframesLength, hc, hc', Option.elim_some, Option.elim_some,
      hin.spacing (B := B) h, hfirst.keyframe (B := B) h,
      hrest.walkWhile_upTo h c hround (keyframeRound_path h.right)]

omit h in
theorem value_keyframesRuleLength (A : Reading ts false) {a b c d : Nat}
    (ha : a = i + A.value (atKeywordLength ts i)) (hb : b = a + A.len .spacing a)
    (hc : c = b + A.len .ident b) (hd : d = c + A.len .spacing c) :
    A.value (keyframesRuleLength ts i) =
      if (A.value (atKeywordLength ts i) = 0 || !Text.contains "keyframes" (ts.join i a)) = true then 0
      else if A.len .spacing a = 0 then 0
      else if A.len .ident b = 0 then 0
      else if A.value (keyframesLength ts d) = 0 then 0
      else d + A.value (keyframesLength ts d) - i := by
  subst hd hc hb ha
  unfold keyframesRuleLength
  rw [A.value_bind]
  split
  · rfl
  rw [A.value_bind, A.value_lengthOf]
  split
  · rfl
  rw [A.value_bind, A.value_lengthOf]
  split
  · rfl
  rw [A.value_bind, A.value_lengthOf, A.value_bind, A.value_through]

theorem keyframesRule_kept (i : Nat) :
    ts.Kept i (A.value (keyframesRuleLength ts i)) (B.value (keyframesRuleLength ts' i)) := by
  intro hle
  obtain ⟨a, ha⟩ : ∃ a, a = i + A.value (atKeywordLength ts i) := ⟨_, rfl⟩
  obtain ⟨a', ha'⟩ : ∃ a, a = i + B.value (atKeywordLength ts' i) := ⟨_, rfl⟩
  obtain ⟨b, hb⟩ : ∃ b, b = a + A.len .spacing a := ⟨_, rfl⟩
  obtain ⟨b', hb'⟩ : ∃ b, b = a' + B.len .spacing a' := ⟨_, rfl⟩
  obtain ⟨c, hc⟩ : ∃ c, c = b + A.len .ident b := ⟨_, rfl⟩
  obtain ⟨c', hc'⟩ : ∃ c, c = b' + B.len .ident b' := ⟨_, rfl⟩
  obtain ⟨d, hd⟩ : ∃ d, d = c + A.len .spacing c := ⟨_, rfl⟩
  obtain ⟨d', hd'⟩ : ∃ d, d = c' + B.len .spacing c' := ⟨_, rfl⟩
  rw [value_keyframesRuleLength B ha' hb' hc' hd'] at hle
  rw [value_keyframesRuleLength A ha hb hc hd, value_keyframesRuleLength B ha' hb' hc' hd']
  rcases Nat.lt_or_ge ts.size a' with hover | hfits
  · have hno : A.value (atKeywordLength ts i) = 0 ∨ A.len .spacing a = 0 :=
      (atKeyword_breaksOff h (ha' ▸ hover)).imp_right fun hbr => ha ▸ hbr.spacing_eq h.left.wm
    grind
  obtain rfl : a = a' := by rw [ha, atKeyword_kept (A := A) (B := B) h i (ha' ▸ hfits), ha']
  have hkey : A.value (atKeywordLength ts i) = B.value (atKeywordLength ts' i) := by omega
  have hjoin := h.join_eq (i := i) (j := a) (by omega) hfits
  have hbefore := spacing_eq_min (A := A) (B := B) h hfits
  rcases Nat.lt_or_ge ts.size b' with hover | hfits
  · have hno : A.len .ident b = 0 := A.len_past_end (by omega)
    grind
  obtain rfl : b = b' := by omega
  have hname := (ident_keeps (A := A) (B := B) h b).len
  rcases Nat.lt_or_ge ts.size c' with hover | hfits
  · have hbr := ident_breaksOff (A := A) (B := B) h (hc' ▸ hover)
    have hno : A.len .ident b = 0 ∨ A.value (keyframesLength ts d) = 0 := hbr.imp_right fun hbr => by
      rw [value_keyframesLength, hd, hc, hbr.spacing_eq h.left.wm, Nat.add_zero,
        hbr.closer?_eq (by decide), Option.elim_none]
    grind
  obtain rfl : c = c' := by rw [hc, hname (hc' ▸ hfits), hc']
  have hafter := spacing_eq_min (A := A) (B := B) h hfits
  have hend := keyframes_kept (A := A) (B := B) h d
  rcases Nat.lt_or_ge ts.size d' with hover | hfits
  · have hno : A.value (keyframesLength ts d) = 0 := by
      rw [value_keyframesLength, closer?_eq_none (Bool.eq_false_iff.2 fun his => by
        have := lt_of_is his
        omega), Option.elim_none]
    grind
  obtain rfl : d = d' := by omega
  unfold Kept at *
  grind

end

/-! ## At-rules -/

theorem value_atRuleHead (A : Reading ts false) (i : Nat) : A.value (atRuleHead ts i) =
    if A.value (atKeywordLength ts i) = 0 then none
    else some (A.value (preludeEnd ts (i + A.value (atKeywordLength ts i)))) := by
  unfold atRuleHead
  rw [A.value_bind]
  split
  · next hz => rw [if_pos hz]; rfl
  · next hn => rw [if_neg hn, A.value_bind, A.value_pure]

theorem value_rulesRuleLength (A : Reading ts false) (i : Nat) : A.value (rulesRuleLength ts i) =
    (A.value (atRuleHead ts i)).elim 0 fun j => (ts.closer? j .leftCurly).elim 0 fun c =>
      if j + A.len .ruleBody j = c then c + 1 - i else 0 := by
  unfold rulesRuleLength
  rw [A.value_bind]
  cases A.value (atRuleHead ts i) with
  | none => rfl
  | some j =>
    dsimp only [Option.elim_some]
    cases ts.closer? j .leftCurly with
    | none => rfl
    | some c =>
      dsimp only [Option.elim_some]
      rw [A.value_bind, value_lengthInside]
      split <;> rfl

theorem value_blockRuleLength (A : Reading ts false) (i : Nat) : A.value (blockRuleLength ts i) =
    (A.value (atRuleHead ts i)).elim 0 fun j =>
      if A.value (blockLength ts j) = 0 then 0 else j + A.value (blockLength ts j) - i := by
  unfold blockRuleLength
  rw [A.value_bind]
  cases A.value (atRuleHead ts i) with
  | none => rfl
  | some j =>
    dsimp only [Option.elim_some]
    rw [A.value_bind, A.value_through]

theorem value_bareRuleLength (A : Reading ts false) (i : Nat) : A.value (bareRuleLength ts i) =
    (A.value (atRuleHead ts i)).elim 0 fun j => j - i := by
  unfold bareRuleLength
  rw [A.value_bind]
  cases A.value (atRuleHead ts i) <;> rfl

theorem value_ruleBodyLength (A : Reading ts false) (i : Nat) : A.value (ruleBodyLength ts i) =
    A.value (walkWhile ts.size (lengthOf .nestedRule) (i + 1)) - i := A.value_bind _ _

namespace Tokens.Inside

variable (hi : ts.Inside ts' i) (h : ts.Head ts')
include hi h

theorem atRuleHead : A.value (atRuleHead ts i) = B.value (atRuleHead ts' i) := by
  have hkeyword := hi.kept h (atKeyword_kept (A := A) (B := B) h i) (atKeyword_path h.right i)
  have hnext := hi.next h (atKeyword_path (A := B) h.right i)
  have hprelude : A.value (preludeEnd ts (i + B.value (atKeywordLength ts' i))) =
      B.value (preludeEnd ts' (i + B.value (atKeywordLength ts' i))) :=
    hnext.walkWhile_eq h (fun j _ hj => Reading.len_congr (hj.preludePart h))
      (preludePart_path (A := B) h.right)
  rw [value_atRuleHead, value_atRuleHead, hkeyword, hprelude]

/-- A rule in a body says the same, if the rule for at-rules does. -/
theorem nestedRule (hat : A.tell .atRule i = B.tell .atRule i) :
    A.tell .nestedRule i = B.tell .nestedRule i := by
  refine hi.tell_eq h (firstOf_eq ?_)
  simp only [List.forall₂_cons, true_and, List.Forall₂.nil, and_true]
  exact ⟨hi.spacing h, Reading.len_congr hat, Reading.len_congr (hi.ruleset h)⟩

end Tokens.Inside

theorem rulesRule_interior (hr : ts.Regular) (hhead : A.value (atRuleHead ts i) = some j)
    (hpos : 0 < A.value (rulesRuleLength ts i)) :
    ∃ c, ts.closer? j .leftCurly = some c ∧ c < i + A.value (rulesRuleLength ts i) ∧
      ts.Path (j + 1) c := by
  rw [value_rulesRuleLength, hhead, Option.elim_some] at *
  cases hc : ts.closer? j .leftCurly with
  | none =>
    rw [hc] at hpos
    cases hpos
  | some c =>
    have hlt := hr.wm.closer_lt hc
    rw [hc, Option.elim_some] at hpos
    rw [Option.elim_some]
    split at hpos
    · next hend =>
      rw [if_pos hend]
      refine ⟨c, rfl, by omega, (ruleBody_trail hr.wm (by omega) hend).flatten fun k l hl => ?_⟩
      exact hl.2 ▸ nestedRule_path hr k
    · cases hpos

section
variable (h : ts.Head ts')
include h

/-- A body of rules is kept behind a head that is the same in both streams, if the at-rules in it
are. -/
theorem rulesRule_kept (hhead : A.value (atRuleHead ts i) = B.value (atRuleHead ts' i))
    (hat : ∀ j, i < j → ts.Inside ts' j → A.tell .atRule j = B.tell .atRule j) :
    ts.Kept i (A.value (rulesRuleLength ts i)) (B.value (rulesRuleLength ts' i)) := by
  cases hB : B.value (atRuleHead ts' i) with
  | none =>
    intro _
    rw [value_rulesRuleLength, value_rulesRuleLength, hhead, hB]
    rfl
  | some j =>
    have hij := (atRuleHead_path h.right hB).le
    refine kept_of_interior (k := .leftCurly) (o := j) h rfl (fun hpos => ?_)
      (rulesRule_interior h.right hB) fun c hc hc' hin => ?_
    · obtain ⟨c, hc, _, hp⟩ := rulesRule_interior h.left (hhead.trans hB) hpos
      exact ⟨c, hc, hp⟩
    · have hbody : A.len .ruleBody j = B.len .ruleBody j := by
        have hj := lt_of_is (is_of_closer? hc)
        have hwalk : A.value (walkWhile ts.size (lengthOf .nestedRule) (j + 1)) =
            B.value (walkWhile ts'.size (lengthOf .nestedRule) (j + 1)) :=
          hin.walkWhile_eq h (fun k hk hin => Reading.len_congr (hin.nestedRule h (hat k (by omega) hin)))
            (nestedRule_path (A := B) h.right)
        rw [A.len_of_sole (r := .ruleBody) (u := ()) h.left.wm rfl hj rfl,
          B.len_of_sole (r := .ruleBody) (u := ()) h.right.wm rfl (h.lt_size hj) rfl,
          value_ruleBodyLength, value_ruleBodyLength, hwalk]
      rw [value_rulesRuleLength, value_rulesRuleLength, hhead, hB, Option.elim_some,
        Option.elim_some, hc, hc', hbody]

/-- At-rules are kept where their heads are the same in both streams, if those inside them are. -/
theorem atRule_keeps (hhead : B.value (keyframesRuleLength ts' i) = 0 →
      A.value (atRuleHead ts i) = B.value (atRuleHead ts' i))
    (hat : ∀ j, i < j → ts.Inside ts' j → A.tell .atRule j = B.tell .atRule j) :
    A.Keeps B .atRule i := by
  refine Reading.keeps_of_body h fun hi hle => ?_
  refine kept_firstOf_cons (Nat.le_of_lt hi) (keyframesRule_kept h i) (fun hz hle => ?_) hle
  have hhead := hhead hz
  refine kept_firstOf (Nat.le_of_lt hi) ?_ hle
  simp only [List.forall₂_cons, true_and, List.Forall₂.nil, and_true]
  refine ⟨rulesRule_kept h hhead hat, ?_, ?_⟩
  · intro hle
    rw [value_blockRuleLength] at *
    rw [value_blockRuleLength, hhead]
    cases hB : B.value (Grammar.atRuleHead ts' i) with
    | none => rfl
    | some j =>
      have hij := (atRuleHead_path h.right hB).le
      have hblock := block_kept (A := A) (B := B) h j
      have hnone : ts.size < j → A.value (blockLength ts j) = 0 := fun hlt =>
        block_past_end (Nat.le_of_lt hlt)
      rw [hB, Option.elim_some] at hle
      rw [Option.elim_some, Option.elim_some]
      unfold Kept at hblock
      grind
  · intro _
    rw [value_bareRuleLength, value_bareRuleLength, hhead]

theorem Tokens.Inside.atRule (hi : ts.Inside ts' i) : A.tell .atRule i = B.tell .atRule i := by
  generalize hn : ts.size - i = n
  induction n using Nat.strongRecOn generalizing i with
  | ind n ih =>
    refine hi.keeps h (atRule_keeps h (fun _ => hi.atRuleHead h) fun j hj hin => ?_)
      (atRule_path h.right i)
    have := hin.lt
    exact ih _ (by omega) hin rfl

end

/-! ## Guards -/

theorem value_conditionRound (A : Reading ts false) (i : Nat) : A.value (conditionRound ts i) =
    if A.value (blockLength ts i) = 0 then A.len .conditionPart i else 0 := by
  unfold conditionRound
  rw [A.value_bind]
  split
  · next hpos => rw [if_neg (Nat.ne_of_gt hpos), A.value_pure]
  · next hn => rw [if_pos (Nat.eq_zero_of_not_pos hn), A.value_lengthOf]

theorem value_conditionLength (A : Reading ts false) {e : Nat}
    (he : e = A.value (walkWhile ts.size (conditionRound ts) (i + 1))) :
    A.value (conditionLength ts i) =
      if ts.is i .identifier = true ∧ ts.text i = "when" ∧ A.len .ident i = 1 ∧
          (ts.size ≤ e ∨ 0 < A.value (blockLength ts e)) then e - i else 0 := by
  have hround : (fun j => do
      if 0 < (← blockLength ts j) then return 0 else lengthOf .conditionPart j) =
      conditionRound ts := rfl
  unfold conditionLength
  split
  · next hno =>
    rw [if_neg fun h => ?_, A.value_pure]
    simp [h.1, h.2.1] at hno
  · next hword =>
    have hword : ts.is i .identifier = true ∧ ts.text i = "when" := by simpa using hword
    rw [A.value_bind, A.value_lengthOf]
    split
    · next hno => rw [if_neg fun h => hno h.2.2.1, A.value_pure]
    · next hone =>
      rw [hround, A.value_bind, ← he]
      simp only [hword, Decidable.not_not.1 hone, true_and, apply_ite A.value, A.value_bind,
        A.value_tokensBetween, A.value_pure]
      grind

section
variable (h : ts.Head ts')
include h

/-- A guard stops at a brace, whether it is closed or not. -/
theorem conditionRound_kept (i : Nat) :
    ts.Kept i (A.value (conditionRound ts i)) (B.value (conditionRound ts' i)) := by
  intro hle
  rw [value_conditionRound] at *
  rw [value_conditionRound]
  have hblock := block_kept (A := A) (B := B) h i
  split at hle
  · next hz =>
    rw [hblock (by omega), if_pos hz, if_pos hz, (conditionPart_keeps h i).len hle]
  · next hn =>
    rw [if_neg hn]
    split
    · next hz =>
      obtain ⟨c, hc, _⟩ := throughCloser_cases h.right.wm (Nat.pos_of_ne_zero hn)
      rcases Nat.lt_or_ge i ts.size with hi | hi
      · have hcurly := (h.is_eq hi _).symm.trans (is_of_closer? hc)
        have hopen : ts.closer? i .leftCurly = none := Option.eq_none_iff_forall_ne_some.2 fun e he => by
          rw [blockLength, throughCloser, he] at hz
          have := h.left.wm.closer_lt he
          change e + 1 - i = 0 at hz
          omega
        have := (conditionPart_path (A := A) h.left i).eq_of_unclosed hcurly rfl hopen
        omega
      · exact A.len_past_end hi
    · rfl

theorem conditionEnd_eq (hle : B.value (walkWhile ts'.size (conditionRound ts') j) ≤ ts.size) :
    A.value (walkWhile ts.size (conditionRound ts) j) =
      B.value (walkWhile ts'.size (conditionRound ts') j) :=
  walkWhile_kept h (conditionRound_kept h) hle

theorem Tokens.Inside.condition (hi : ts.Inside ts' i) :
    A.tell .condition i = B.tell .condition i := by
  refine hi.tell_eq h ?_
  change A.value (sole _) = B.value (sole _)
  rw [sole, sole, A.value_bind, B.value_bind, value_conditionLength A rfl,
    value_conditionLength B rfl, ← hi.is_eq h, ← hi.text_eq h, hi.ident (B := B) h]
  by_cases hword : ts.is i .identifier = true
  · have hnext := hi.next h (path_token (h.is_of_is hword) rfl)
    have hwalk : ts'.Path (i + 1) (B.value (walkWhile ts'.size (conditionRound ts') (i + 1))) :=
      path_walkWhile (conditionRound_path h.right) (i + 1)
    have hstop := hnext.next h hwalk
    rw [conditionEnd_eq h (Nat.le_of_lt hstop.lt), hstop.block (B := B) h]
    have hlt := hstop.lt
    have hlt' := h.lt_size hlt
    generalize B.value (walkWhile ts'.size (conditionRound ts') (i + 1)) = e at *
    simp only [Nat.not_le.2 hlt, Nat.not_le.2 hlt', false_or]
    rfl
  · rw [if_neg fun hall => hword hall.1, if_neg fun hall => hword hall.1]
    rfl

end

/-! ## Calls -/

theorem value_callHeadLength (A : Reading ts false) (i : Nat) : A.value (callHeadLength ts i) =
    if A.value (classOrIdLength i) = 0 then 0
    else A.value (walkWhile ts.size (callRound ts) i) - i := by
  have hround : (fun j => classOrIdLength j <|> lengthOf .spacing j <|>
      tokenLength ts [.greater] j) = callRound ts := rfl
  unfold callHeadLength
  rw [hround, A.value_bind]
  split
  · next hz => rw [if_pos hz, A.value_pure]
  · next hn => rw [if_neg hn, A.value_bind, A.value_tokensBetween]

/-- The head of a call holds the class or the id that it starts with. -/
theorem classOrId_le_callHead (A : Reading ts false) (i : Nat) :
    A.value (classOrIdLength i) ≤ A.value (callHeadLength ts i) := by
  rw [value_callHeadLength]
  split
  · omega
  · next hn =>
    have hround : A.value (callRound ts i) = A.value (classOrIdLength i) := by
      rw [callRound, A.value_orElse, if_neg hn]
    have hlt : i < ts.size := by
      rw [classOrIdLength, A.value_orElse, A.value_lengthOf, A.value_lengthOf] at hn
      split at hn <;> exact A.lt_of_len (Nat.pos_of_ne_zero hn)
    have hle : i + A.value (callRound ts i) ≤ A.value (walkWhile ts.size (callRound ts) i) :=
      round_le_walkWhile A hlt
    omega

section
variable (h : ts.Head ts')
include h

theorem callRound_kept (i : Nat) :
    ts.Kept i (A.value (callRound ts i)) (B.value (callRound ts' i)) :=
  kept_orElse (classOrId_kept h i) (kept_orElse (spacing_keeps h i).len (token_kept h _ i))

theorem callHead_kept (i : Nat) :
    ts.Kept i (A.value (callHeadLength ts i)) (B.value (callHeadLength ts' i)) := by
  intro hle
  have hfirst := classOrId_kept (A := A) (B := B) h i
    (Nat.le_trans (Nat.add_le_add_left (classOrId_le_callHead B i) i) hle)
  rw [value_callHeadLength] at *
  rw [value_callHeadLength, hfirst]
  split
  · rfl
  · next hn =>
    rw [if_neg hn] at hle
    have hge := (B.trail_walkWhile ts'.size (callRound ts') i).le
    rw [walkWhile_kept (A := A) (B := B) h (callRound_kept h) (by omega)]

omit h in
theorem value_mixinCallMatch (A : Reading ts false) {p a b : Nat}
    (hp : p = i + A.value (callHeadLength ts i)) (ha : a = p + A.len .arguments p)
    (hb : b = a + A.len .spacing a) : A.value (mixinCallMatch ts i) =
      if A.value (callHeadLength ts i) = 0 then none
      else if A.len .arguments p = 0 then Match.of? (A.value (callHeadLength ts i)) .bare
      else Match.of? (b + A.len .important b - i) .withArguments := by
  subst hb ha hp
  unfold mixinCallMatch
  rw [A.value_bind]
  split
  · next hz => rw [if_pos hz, A.value_pure]
  · next hn =>
    rw [if_neg hn, A.value_bind, A.value_lengthOf]
    split
    · next hz => rw [if_pos hz, A.value_pure]
    · next hn =>
      rw [if_neg hn, A.value_bind, A.value_lengthOf, A.value_bind, A.value_lengthOf, A.value_bind,
        A.value_tokensBetween, A.value_pure]

theorem mixinCall_keeps (i : Nat) : A.Keeps B .mixinCall i := by
  refine Reading.keeps_of_body h fun hi hle => ?_
  change ∀ m, B.value (mixinCallMatch ts' i) = some m → i + m.length ≤ ts.size at hle
  change A.value (mixinCallMatch ts i) = B.value (mixinCallMatch ts' i)
  obtain ⟨p, hp⟩ : ∃ p, p = i + B.value (callHeadLength ts' i) := ⟨_, rfl⟩
  obtain ⟨a, ha⟩ : ∃ a, a = p + B.len .arguments p := ⟨_, rfl⟩
  obtain ⟨b, hb⟩ : ∃ b, b = a + B.len .spacing a := ⟨_, rfl⟩
  rw [value_mixinCallMatch B hp ha hb] at hle ⊢
  rcases Nat.eq_zero_or_pos (B.value (callHeadLength ts' i)) with hz | hpos
  · have hhead := callHead_kept (A := A) (B := B) h i (by omega)
    rw [value_mixinCallMatch A rfl rfl rfl, hhead, if_pos hz, if_pos hz]
  rw [if_neg (Nat.ne_of_gt hpos)] at hle ⊢
  rcases Nat.eq_zero_or_pos (B.len .arguments p) with hz | hargs
  · rw [if_pos hz] at hle
    have hfits := end_le_of_match (Nat.le_of_lt hi) hle
    have hhead := callHead_kept (A := A) (B := B) h i hfits
    have harguments := (arguments_keeps (A := A) (B := B) h p).len (by omega)
    rw [value_mixinCallMatch A (hp.trans (by rw [hhead])) rfl rfl, hhead, harguments, if_pos hz,
      if_neg (Nat.ne_of_gt hpos), if_pos hz]
  · rw [if_neg (Nat.ne_of_gt hargs)] at hle
    have hfits := end_le_of_match (Nat.le_of_lt hi) hle
    have hhead := callHead_kept (A := A) (B := B) h i (by omega)
    have harguments := (arguments_keeps (A := A) (B := B) h p).len (by omega)
    have hspacing := (spacing_keeps (A := A) (B := B) h a).len (by omega)
    have himportant := (important_keeps (A := A) (B := B) h b).len (by omega)
    rw [value_mixinCallMatch A (hp.trans (by rw [hhead])) (ha.trans (by rw [harguments]))
      (hb.trans (by rw [hspacing])), hhead, harguments, himportant, if_neg (Nat.ne_of_gt hpos)]

/-! ## Extends -/

theorem extendTarget_keeps (i : Nat) : A.Keeps B .extendTarget i := by
  refine Reading.keeps_of_body h fun hi hle => kept_firstOf (Nat.le_of_lt hi) ?_ hle
  simp only [List.forall₂_cons, true_and, List.Forall₂.nil, and_true]
  exact ⟨parent_kept h i, (ident_keeps h i).len, (classSelector_keeps h i).len,
    (idSelector_keeps h i).len⟩

omit h in
theorem value_extendMatch (A : Reading ts false) {p a b : Nat}
    (hp : p = i + A.len .extendTarget i) (ha : a = p + A.len .pseudoClass p)
    (hb : b = a + A.len .spacing a) : A.value (extendMatch ts i) =
      if A.len .extendTarget i = 0 ∨ ts.text (p + 1) ≠ "extend" ∨ A.len .pseudoClass p = 0 then none
      else if A.value (blockLength ts b) = 0 then Match.of? (a - i) .bare
      else Match.of? (b + A.value (blockLength ts b) - i) .withBlock := by
  subst hb ha hp
  unfold extendMatch
  rw [A.value_bind, A.value_find]
  cases ht : A.tell .extendTarget i with
  | none => rw [if_pos (Or.inl (by rw [Reading.len, ht]; rfl)), A.value_pure]
  | some m =>
    have hlen : A.len .extendTarget i = m.length := by rw [Reading.len, ht]; rfl
    have hpos := m.length_pos
    dsimp only
    rw [hlen]
    split
    · next hword => rw [if_pos (Or.inr (Or.inl (by simpa using hword))), A.value_pure]
    · next hword =>
      rw [A.value_bind, A.value_lengthOf]
      split
      · next hz => rw [if_pos (Or.inr (Or.inr hz)), A.value_pure]
      · next hn =>
        rw [if_neg (by
          rintro (hz | hw | hz)
          · omega
          · exact hword (by simpa using hw)
          · exact hn hz), A.value_bind, A.value_lengthOf, A.value_bind]
        split
        · next hz => rw [if_pos hz, A.value_bind, A.value_tokensBetween, A.value_pure]
        · next hn => rw [if_neg hn, A.value_bind, A.value_tokensBetween, A.value_pure]

/-- There is no block behind spacing in the shorter stream if there is none in the longer one. -/
theorem block_after_spacing (hi : i ≤ ts.size)
    (hz : B.value (blockLength ts' (i + B.len .spacing i)) = 0) :
    A.value (blockLength ts (i + A.len .spacing i)) = 0 := by
  have hend := spacing_eq_min (A := A) (B := B) h hi
  rcases Nat.lt_or_ge ts.size (i + B.len .spacing i) with hover | hfits
  · exact block_past_end (by omega)
  · rw [(spacing_keeps (A := A) (B := B) h i).len hfits,
      block_kept (A := A) (B := B) h _ (by omega), hz]

omit h in
theorem two_le_pseudoClass (wm : ts.WellMarked) (hpos : 0 < A.len .pseudoClass i) :
    2 ≤ A.len .pseudoClass i := by
  obtain ⟨m, hm, hlen⟩ := A.exists_of_len hpos
  rw [← hlen]
  rcases (pseudoClass_cases wm hm).2 with ⟨_, n, _, hn⟩ | ⟨o, c, _, rfl, hc, hend, _⟩
  · have := n.length_pos
    omega
  · have := wm.closer_lt hc
    omega

/-- An extend is kept if its target is. -/
theorem extend_keeps (htarget : i + B.len .extendTarget i ≤ ts.size) : A.Keeps B .extend i := by
  refine Reading.keeps_of_body h fun hi hle => ?_
  change ∀ m, B.value (extendMatch ts' i) = some m → i + m.length ≤ ts.size at hle
  change A.value (extendMatch ts i) = B.value (extendMatch ts' i)
  have htarget := (extendTarget_keeps (A := A) (B := B) h i).len htarget
  have hp : i + A.len .extendTarget i = i + B.len .extendTarget i := by rw [htarget]
  rw [value_extendMatch B hp rfl rfl] at hle ⊢
  rw [value_extendMatch A rfl rfl rfl]
  generalize i + A.len .extendTarget i = p at *
  have hpseudo := (pseudoClass_keeps (A := A) (B := B) h p).len
  have htwo := two_le_pseudoClass (A := B) (i := p) h.right.wm
  by_cases hno : B.len .extendTarget i = 0 ∨ ts'.text (p + 1) ≠ "extend" ∨ B.len .pseudoClass p = 0
  · rw [if_pos hno, if_pos]
    rcases hno with hz | hword | hz
    · exact Or.inl (htarget.trans hz)
    · refine Or.inr (Or.inl ?_)
      rw [h.text_cut]
      split
      · exact hword
      · decide
    · exact Or.inr (Or.inr ((hpseudo (by omega)).trans hz))
  · have hfits : p + B.len .pseudoClass p ≤ ts.size := by
      rw [if_neg hno] at hle
      split at hle
      · have := end_le_of_match (Nat.le_of_lt hi) hle
        omega
      · have := end_le_of_match (Nat.le_of_lt hi) hle
        omega
    have hpseudo := hpseudo hfits
    have htext := h.text_eq (i := p + 1) (by omega)
    rw [if_neg hno] at hle
    rw [htarget, hpseudo, ← htext, if_neg hno, if_neg hno]
    rcases Nat.eq_zero_or_pos (B.value (blockLength ts' (p + B.len .pseudoClass p +
      B.len .spacing (p + B.len .pseudoClass p)))) with hz | hpos
    · rw [if_pos hz, if_pos (block_after_spacing h hfits hz)]
    · rw [if_neg (Nat.ne_of_gt hpos)] at hle
      have hend := end_le_of_match (Nat.le_of_lt hi) hle
      rw [(spacing_keeps (A := A) (B := B) h (p + B.len .pseudoClass p)).len (by omega),
        block_kept (A := A) (B := B) h _ (by omega)]

end

namespace Tokens.Inside

variable (hi : ts.Inside ts' i) (h : ts.Head ts')
include hi h

theorem mixinCall : A.tell .mixinCall i = B.tell .mixinCall i :=
  hi.keeps h (mixinCall_keeps h i) (mixinCall_path h.right i)

theorem extend : A.tell .extend i = B.tell .extend i :=
  hi.keeps h (extend_keeps h (Nat.le_of_lt (hi.end_lt h (extendTarget_path h.right i))))
    (extend_path h.right i)

/-! ## Statements of a block -/

theorem declaration : A.tell .declaration i = B.tell .declaration i :=
  hi.keeps h (declaration_keeps h i) (declaration_path h.right i)

theorem blockItem : A.tell .blockItem i = B.tell .blockItem i := by
  refine hi.tell_eq h (firstOf_eq ?_)
  simp only [List.forall₂_cons, true_and, List.Forall₂.nil, and_true]
  exact ⟨Reading.len_congr (hi.condition h), Reading.len_congr (hi.extend h),
    Reading.len_congr (hi.ruleset h), Reading.len_congr (hi.declaration h),
    Reading.len_congr (hi.atRule h), Reading.len_congr (hi.mixinCall h)⟩

theorem spacingAfterSemicolon :
    A.value (spacingAfterSemicolon ts i) = B.value (spacingAfterSemicolon ts' i) := by
  rw [Grammar.spacingAfterSemicolon, Grammar.spacingAfterSemicolon, hi.is_eq h]
  split
  · next hsemi =>
    have hnext := hi.next h (path_token hsemi rfl)
    exact hnext.spacing h
  · rfl

theorem blockChunk : A.tell .blockChunk i = B.tell .blockChunk i := by
  refine hi.tell_eq h ?_
  change A.value (blockChunkMatch ts i) = B.value (blockChunkMatch ts' i)
  have hj := hi.afterSpacing (B := B) h
  have hitem := hj.next h (blockItem_path (A := B) h.right _)
  unfold blockChunkMatch
  rw [A.value_bind, B.value_bind, A.value_lengthOf, B.value_lengthOf, hi.spacing (B := B) h,
    A.value_bind, B.value_bind, A.value_find, B.value_find, hj.blockItem (B := B) h]
  cases ht : B.tell .blockItem (i + B.len .spacing i) with
  | some item =>
    have hlen : B.len .blockItem (i + B.len .spacing i) = item.length := by rw [Reading.len, ht]; rfl
    rw [hlen] at hitem
    dsimp only
    rw [A.value_bind, B.value_bind, hitem.spacingAfterSemicolon (B := B) h]
    cases B.value (Grammar.spacingAfterSemicolon ts' (i + B.len .spacing i + item.length)) with
    | zero =>
      exact congrArg (fun n => Match.of? (i + B.len .spacing i + item.length + n - i)
        ChunkShape.item) (hitem.spacing (B := B) h)
    | succ n => rfl
  | none =>
    dsimp only
    rw [hj.is_eq h]
    split
    · next hsemi =>
      have hnext := hj.next h (path_token hsemi rfl)
      rw [A.value_bind, B.value_bind, A.value_lengthOf, B.value_lengthOf, hnext.spacing (B := B) h]
      rfl
    · rfl

end Tokens.Inside

end LessCss
