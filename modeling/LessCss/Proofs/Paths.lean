import LessCss.Proofs.Gluing

/-! Paths over tokens. A path goes from token to token, and from an opener that has a closer to the
token behind it; so it has no way past a closer that it comes to, and there is one way only. What a
rule covers is a path: brackets are passed as a whole or not at all. -/

namespace LessCss

open Lookahead Grammar Tokens

/-- One step over a stream: a token that is no bracket, or an opener with all up to its closer. -/
def Tokens.Hop (ts : Tokens) (i j : Nat) : Prop :=
  (∃ k, ts.is i k = true ∧ k.isBracket = false ∧ j = i + 1) ∨
    ∃ k c, k.opens?.isSome = true ∧ ts.closer? i k = some c ∧ j = c + 1

/-- Steps from token `i` to token `j`. -/
abbrev Tokens.Path (ts : Tokens) : Nat → Nat → Prop := Trail ts.Hop

/-- A stream whose white space is marked, whose openers are linked to the closers that belong to
them, and in which no word is taken for a bracket. -/
structure Tokens.Regular (ts : Tokens) : Prop where
  wm : ts.WellMarked
  linked : ts.Linked
  spelled : ts.Spelled

variable {ts : Tokens} {i j k l c : Nat}

/-! ## One way only -/

namespace Tokens

theorem Hop.unique (h : ts.Hop i j) (h' : ts.Hop i k) : j = k := by
  have hopens : ∀ {k l c}, ts.is i k = true → k.isBracket = false → l.opens?.isSome = true →
      ts.closer? i l = some c → False := by
    intro k l c hk hb hl hc
    have hkind := is_iff.1 (is_of_closer? hc)
    rw [is_iff.1 hk] at hkind
    cases hkind
    rw [Token.Kind.isBracket, hl] at hb
    cases hb
  rcases h with ⟨a, ha, hb, rfl⟩ | ⟨a, c, ha, hc, rfl⟩
  · rcases h' with ⟨a', _, _, rfl⟩ | ⟨a', c', ha', hc', _⟩
    · rfl
    · exact (hopens ha hb ha' hc').elim
  · rcases h' with ⟨a', ha', hb', _⟩ | ⟨a', c', _, hc', rfl⟩
    · exact (hopens ha' hb' ha hc).elim
    · have hkind := is_iff.1 (is_of_closer? hc)
      rw [is_iff.1 (is_of_closer? hc')] at hkind
      cases hkind
      rw [Option.some.inj (hc.symm.trans hc')]

/-- Of two paths from one token, the longer one goes on where the other ends. -/
theorem Path.rest (h : ts.Path i j) (h' : ts.Path i k) (hjk : j ≤ k) : ts.Path j k := by
  induction h with
  | refl i => exact h'
  | step first lt rest ih =>
    have hle := rest.le
    cases h' with
    | refl _ => omega
    | step first' _ rest' =>
      cases first.unique first'
      exact ih rest' hjk

/-- A closer stops every path. -/
theorem Path.eq_of_closes {b : Token.Kind} (hb : ts.is j b = true) (hc : b.closes?.isSome = true)
    (h : ts.Path j k) : k = j := by
  cases h with
  | refl _ => rfl
  | step first _ _ =>
    rcases first with ⟨a, ha, hbr, _⟩ | ⟨a, c, ha, hcl, _⟩
    · rw [is_iff, is_iff.1 hb] at ha
      cases ha
      rw [Token.Kind.isBracket, hc, Bool.or_true] at hbr
      cases hbr
    · have hkind := is_iff.1 (is_of_closer? hcl)
      rw [is_iff.1 hb] at hkind
      cases hkind
      revert ha hc
      cases b <;> simp [Token.Kind.opens?, Token.Kind.closes?]

/-- Where a path comes to a closer, all others stop there or before. -/
theorem Path.le_of_closes {b : Token.Kind} (h : ts.Path i j) (hb : ts.is j b = true)
    (hc : b.closes?.isSome = true) (h' : ts.Path i k) : k ≤ j := by
  refine Nat.le_of_not_lt fun hlt => ?_
  have := (h.rest h' (Nat.le_of_lt hlt)).eq_of_closes hb hc
  omega

/-- No path leads from an opener that has no closer. -/
theorem Path.eq_of_unclosed {b : Token.Kind} (hb : ts.is j b = true) (ho : b.opens?.isSome = true)
    (hc : ts.closer? j b = none) (h : ts.Path j k) : k = j := by
  cases h with
  | refl _ => rfl
  | step first _ _ =>
    rcases first with ⟨a, ha, hbr, _⟩ | ⟨a, c, _, hcl, _⟩
    · rw [is_iff, is_iff.1 hb] at ha
      cases ha
      rw [Token.Kind.isBracket, ho] at hbr
      cases hbr
    · have hkind := is_iff.1 (is_of_closer? hcl)
      rw [is_iff.1 hb] at hkind
      cases hkind
      rw [hc] at hcl
      cases hcl

/-! ## Short paths -/

theorem path_self (ts : Tokens) (i : Nat) : ts.Path i i := .refl i

theorem path_token {k : Token.Kind} (h : ts.is i k = true) (hk : k.isBracket = false) :
    ts.Path i (i + 1) := .single (Or.inl ⟨k, h, hk, rfl⟩) (Nat.lt_succ_self i)

theorem path_isAny {ks : List Token.Kind} (h : ts.isAny i ks = true)
    (hks : ∀ k ∈ ks, k.isBracket = false) : ts.Path i (i + 1) := by
  obtain ⟨k, hk, he⟩ := isAny_iff.1 h
  exact path_token (is_iff.2 he) (hks k hk)

theorem path_toNat {b : Bool} (h : b = true → ts.Path i (i + 1)) : ts.Path i (i + b.toNat) := by
  cases b with
  | false => exact .refl i
  | true => exact h rfl

theorem path_closer {k : Token.Kind} (wm : ts.WellMarked) (h : ts.closer? i k = some c)
    (hk : k.opens?.isSome = true) : ts.Path i (c + 1) :=
  .single (Or.inr ⟨k, c, hk, h, rfl⟩) (Nat.lt_succ_of_lt (wm.closer_lt h).1)

theorem path_spanEnd {ks : List Token.Kind} (hks : ∀ k ∈ ks, k.isBracket = false) (i : Nat) :
    ts.Path i (ts.spanEnd ks i) := by
  fun_induction spanEnd ts ks i with
  | case1 i _ hany ih => exact (path_isAny hany hks).trans ih
  | case2 => exact .refl _
  | case3 => exact .refl _

end Tokens

/-! ## Nested brackets -/

/-- A kind closes the bracket that is sought, or leaves it open; then it is sought behind that kind,
past those of its type that are open above it. -/
theorem Token.Kind.nest_cases {b : Bracket} {k : Token.Kind} {above below stack : List Bracket}
    (h : nest (above ++ b :: below) k = some stack) :
    (stack = below ∧ ∀ ks, b.seek (above.count b) (k :: ks) = some 0) ∨
      ∃ above', stack = above' ++ b :: below ∧ ∀ ks m, b.seek (above'.count b) ks = some m →
        b.seek (above.count b) (k :: ks) = some (m + 1) := by
  cases ho : k.opens? with
  | some b' =>
    rw [nest, ho] at h
    refine Or.inr ⟨b' :: above, (Option.some.inj h).symm, fun ks m hm => ?_⟩
    by_cases hb : b' = b
    · rw [hb, List.count_cons_self] at hm
      rw [Bracket.seek_opens (hb ▸ ho), hm]
      rfl
    · rw [List.count_cons_of_ne hb] at hm
      rw [Bracket.seek_other (fun he => hb (Option.some.inj (ho.symm.trans he)))
        (by rw [closes?_of_opens? ho]; simp), hm]
      rfl
  | none =>
    have hno : k.opens? ≠ some b := by rw [ho]; simp
    cases hc : k.closes? with
    | none =>
      rw [nest, ho, hc] at h
      refine Or.inr ⟨above, (Option.some.inj h).symm, fun ks m hm => ?_⟩
      rw [Bracket.seek_other hno (by rw [hc]; simp), hm]
      rfl
    | some b' =>
      rw [nest, ho, hc] at h
      cases above with
      | nil =>
        obtain ⟨rfl, he⟩ := Option.ite_none_right_eq_some.1 h
        exact Or.inl ⟨(Option.some.inj he).symm, fun ks => Bracket.seek_closes_zero hc⟩
      | cons a above =>
        obtain ⟨rfl, he⟩ := Option.ite_none_right_eq_some.1 h
        refine Or.inr ⟨above, (Option.some.inj he).symm, fun ks m hm => ?_⟩
        by_cases hb : a = b
        · rw [hb, List.count_cons_self, Bracket.seek_closes_succ (hb ▸ hc), hm]
          rfl
        · rw [List.count_cons_of_ne hb, Bracket.seek_other hno
            (fun he => hb (Option.some.inj (hc.symm.trans he))), hm]
          rfl

/-- Where nested kinds close a bracket that was open before them, the closer is the one that is
sought, and behind it the kinds are nested on what was open below. -/
theorem Token.Kind.exists_seek_of_nest {b : Bracket} {ks : List Token.Kind}
    {above below : List Bracket} (h : ks.foldlM nest (above ++ b :: below) = some below) :
    ∃ n, b.seek (above.count b) ks = some n ∧ n < ks.length ∧
      (ks.drop (n + 1)).foldlM nest below = some below := by
  induction ks generalizing above with
  | nil =>
    have hlen := congrArg List.length (Option.some.inj h)
    simp only [List.length_append, List.length_cons] at hlen
    omega
  | cons k ks ih =>
    rw [List.foldlM_cons] at h
    obtain ⟨stack, hk, hrest⟩ := Option.bind_eq_some_iff.1 h
    rcases nest_cases hk with ⟨rfl, hseek⟩ | ⟨above', rfl, hseek⟩
    · exact ⟨0, hseek ks, Nat.succ_pos _, hrest⟩
    · obtain ⟨n, hn, hlt, hbehind⟩ := ih hrest
      exact ⟨n + 1, hseek ks n hn, Nat.succ_lt_succ hlt, hbehind⟩

namespace Tokens

theorem kinds_drop (ts : Tokens) (hij : i ≤ j) :
    (ts.toList.map Token.kind).drop i = ts.kinds i j ++ (ts.toList.map Token.kind).drop j := by
  rw [kinds, Array.toList_extract, List.extract_eq_take_drop, List.map_take, List.map_drop]
  have hsplit := List.take_append_drop (j - i) ((ts.toList.map Token.kind).drop i)
  rw [List.drop_drop, Nat.add_sub_cancel' hij] at hsplit
  exact hsplit.symm

/-- Nested brackets can be passed. -/
theorem path_of_nested (hl : ts.Linked) (wm : ts.WellMarked) (hij : i ≤ j) (hj : j ≤ ts.size)
    (h : Token.Kind.Nested (ts.kinds i j)) : ts.Path i j := by
  generalize hn : j - i = n
  induction n using Nat.strongRecOn generalizing i with
  | ind n ih =>
    rcases Nat.eq_or_lt_of_le hij with rfl | hlt
    · exact .refl i
    obtain ⟨k, hk⟩ : ∃ k, ts.is i k = true :=
      ⟨ts[i].kind, is_iff.2 (by rw [kind?, Array.getElem?_eq_getElem (by omega)]; rfl)⟩
    have hcons : ts.kinds i j = k :: ts.kinds (i + 1) j := by
      rw [← kinds_append (Nat.le_succ i) hlt, kinds_succ hk]
      rfl
    rw [Token.Kind.Nested, hcons, List.foldlM_cons] at h
    obtain ⟨stack, hstack, hrest⟩ := Option.bind_eq_some_iff.1 h
    cases ho : k.opens? with
    | some b =>
      rw [Token.Kind.nest, ho] at hstack
      cases hstack
      obtain ⟨m, hm, hlen, hbehind⟩ := @Token.Kind.exists_seek_of_nest b _ [] [] hrest
      change b.seek 0 _ = _ at hm
      have hcloser : ts.closer? i k = some (i + 1 + m) := by
        rw [hl i k b hk ho, kinds_drop ts hlt, Bracket.seek_append hm]
        rfl
      have hin : i + 1 + m < j := by
        rw [kinds, List.length_map, Array.length_toList, Array.size_extract] at hlen
        omega
      refine (path_closer wm hcloser (by rw [ho]; rfl)).trans (ih _ ?_ hin ?_ rfl)
      · omega
      · have hdrop : (ts.kinds (i + 1) j).drop (m + 1) = ts.kinds (i + 1 + m + 1) j := by
          rw [← kinds_append (show i + 1 ≤ i + 1 + m + 1 by omega) hin, List.drop_append_of_le_length,
            List.drop_eq_nil_of_le, List.nil_append] <;>
          · rw [kinds, List.length_map, Array.length_toList, Array.size_extract]
            omega
        rw [Token.Kind.Nested, ← hdrop]
        exact hbehind
    | none =>
      cases hc : k.closes? with
      | some b =>
        rw [Token.Kind.nest, ho, hc] at hstack
        cases hstack
      | none =>
        rw [Token.Kind.nest, ho, hc] at hstack
        cases hstack
        refine (path_token hk ?_).trans (ih _ (by omega) hlt hrest rfl)
        rw [Token.Kind.isBracket, ho, hc]
        rfl

/-- Balanced stretches can be passed. -/
theorem Balanced.path (h : ts.Balanced i j) (hr : ts.Regular) (hij : i ≤ j) (hj : j ≤ ts.size) :
    ts.Path i j := path_of_nested hr.linked hr.wm hij hj h.neutral.nested

end Tokens

/-! ## Names, numbers and spacing -/

section
variable {A : Reading ts false} (hr : ts.Regular)

theorem path_add {n : Nat} (h : 0 < n → ts.Path i (i + n)) : ts.Path i (i + n) := by
  rcases Nat.eq_zero_or_pos n with rfl | hn
  · exact .refl i
  · exact h hn

/-- What alternatives cover is a path, if each of them is. -/
theorem path_of_alternatives {r : Rule} (wm : ts.WellMarked) (hn : r.nests = false)
    {alts : List (r.Shape × (Nat → Lookahead Nat))} (hb : r.body ts i = firstOf i alts)
    (h : ∀ a ∈ alts, ts.Path i (i + A.value (a.2 i))) : ts.Path i (i + A.len r i) := by
  refine path_add fun hpos => ?_
  obtain ⟨m, ht, hlen⟩ := A.exists_of_len hpos
  obtain ⟨a, ha, _, hl, _⟩ := A.alternative wm hn hb ht
  rw [← hlen, hl]
  exact h a ha

/-- What a repetition covers is a path, if each round is. -/
theorem path_walkWhile {stop : Nat} {scan : Nat → Lookahead Nat}
    (h : ∀ j, ts.Path j (j + A.value (scan j))) (i : Nat) :
    ts.Path i (A.value (walkWhile stop scan i)) := by
  refine (A.trail_walkWhile stop scan i).flatten fun j l hl => ?_
  rw [hl.2.2]
  exact h j

include hr

theorem text_path {s : String} (h : ts.text i = s) (hne : s ≠ "") (hs : isMarkup s = false) :
    ts.Path i (i + 1) :=
  (hr.spelled.balanced h hne hs).path hr (Nat.le_succ i) (lt_of_text (h ▸ hne))

theorem spacing_path (i : Nat) : ts.Path i (i + A.len .spacing i) := by
  rw [len_spacing hr.wm A i]
  exact path_spanEnd (by decide) i

theorem ident_path (i : Nat) : ts.Path i (i + A.len .ident i) :=
  path_add fun h => (ident_balanced hr.wm h).path hr (Nat.le_add_right i _) (A.len_le h)

theorem interpolation_path (i : Nat) : ts.Path i (i + A.len .interpolation i) := by
  refine path_add fun h => ?_
  have hle := A.len_le h
  obtain ⟨hat, hopen, hname, hclose, hlen⟩ := interpolation_cases hr.wm h
  have hgroup := (ident_balanced hr.wm hname).enclose (b := .curly) (by omega) hopen rfl hclose rfl
  rw [hlen] at hle ⊢
  exact (path_token hat rfl).trans ((hgroup.path hr (by omega) (by omega)).cast (by omega))

theorem number_path (i : Nat) : ts.Path i (i + A.len .number i) :=
  path_add fun h => (number_balanced hr.wm h).path hr (Nat.le_add_right i _) (A.len_le h)

theorem combinator_path (i : Nat) : ts.Path i (i + A.len .combinator i) :=
  path_add fun h => (combinator_balanced hr.wm h).path hr (Nat.le_add_right i _) (A.len_le h)

omit hr in
theorem unit_path (i : Nat) : ts.Path i (i + unitLength ts i) := by
  unfold unitLength
  split
  · next hk => exact path_token (is_iff.2 hk) rfl
  · next hk =>
    have hdigits : ts.Path i (i + 1) := path_token (is_iff.2 hk) rfl
    split
    · next hk' => exact hdigits.trans (path_token hk' rfl)
    · exact hdigits
  · exact .refl i

theorem important_path (i : Nat) : ts.Path i (i + A.len .important i) := by
  refine path_add fun h => ?_
  obtain ⟨hmark, htext, hlen⟩ := important_cases hr.wm h
  refine (path_token hmark rfl).trans ((spacing_path (A := A) hr (i + 1)).trans ?_)
  exact (text_path hr htext (by decide) (by decide)).cast (by omega)

theorem var_path (i : Nat) : ts.Path i (i + A.len .var i) := by
  generalize hn : ts.size - i = n
  induction n using Nat.strongRecOn generalizing i with
  | ind n ih =>
    refine path_add fun h => ?_
    have hlt := A.lt_of_len h
    obtain ⟨hat, ⟨_, hlen⟩ | ⟨_, _, hlen⟩⟩ := var_cases hr.wm h
    · exact (path_token hat rfl).trans ((ih _ (by omega) (i + 1) rfl).cast (by omega))
    · exact (path_token hat rfl).trans ((ident_path (A := A) hr (i + 1)).cast (by omega))

theorem varList_path (i : Nat) : ts.Path i (i + A.value (varListLength ts i)) := by
  refine path_add fun h => ?_
  obtain ⟨_, hdots, hlen⟩ := varList_cases h
  have hend : ts.Path (i + A.len .var i) (ts.spanEnd [.dot] (i + A.len .var i)) :=
    path_spanEnd (by decide) _
  exact (var_path hr i).trans (hend.cast (by omega))

theorem atKeyword_path (i : Nat) : ts.Path i (i + A.value (atKeywordLength ts i)) := by
  refine path_add fun h => ?_
  obtain ⟨hat, _, hlen⟩ := atKeyword_cases h
  exact (path_token hat rfl).trans ((ident_path (A := A) hr (i + 1)).cast (by omega))

theorem name_path {m : Match Name} (h : A.value (nameMatch i) = some m) :
    ts.Path i (i + m.length) := by
  rcases name_cases h with ⟨_, hl⟩ | ⟨_, hl, _⟩
  · exact hl ▸ interpolation_path hr i
  · exact hl ▸ ident_path hr i

theorem markedName_path {mark : Token.Kind} (hm : mark.isBracket = false) {m : Match Name}
    (h : A.value (markedNameMatch ts mark i) = some m) : ts.Path i (i + m.length) := by
  obtain ⟨his, n, hn, rfl⟩ := markedName_cases h
  exact (path_token his hm).trans ((name_path hr hn).cast (by simp only [Match.lengthen]; omega))

theorem classSelector_path (i : Nat) : ts.Path i (i + A.len .classSelector i) := by
  refine path_add fun h => ?_
  obtain ⟨m, ht, hlen⟩ := A.exists_of_len h
  exact hlen ▸ markedName_path hr rfl (A.value_of_tell hr.wm rfl ht)

theorem idSelector_path (i : Nat) : ts.Path i (i + A.len .idSelector i) := by
  refine path_add fun h => ?_
  obtain ⟨m, ht, hlen⟩ := A.exists_of_len h
  exact hlen ▸ markedName_path hr rfl (A.value_of_tell hr.wm rfl ht)

theorem classOrId_path (i : Nat) : ts.Path i (i + A.value (classOrIdLength i)) := by
  rw [classOrIdLength, A.value_orElse]
  split
  · exact idSelector_path hr i
  · exact classSelector_path hr i

theorem dimension_path (i : Nat) : ts.Path i (i + A.value (dimensionLength ts i)) := by
  refine path_add fun h => ?_
  change 0 < (if A.len .number i = 0 then 0
    else lengthen (unitLength ts (i + A.len .number i)) (A.len .number i)) at h
  change ts.Path i (i + if A.len .number i = 0 then 0
    else lengthen (unitLength ts (i + A.len .number i)) (A.len .number i))
  split at h
  · cases h
  · next hz =>
    obtain ⟨_, he⟩ := lengthen_pos h
    rw [if_neg hz, he]
    exact (number_path (A := A) hr i).trans ((unit_path _).cast (by omega))

theorem percentage_path (i : Nat) : ts.Path i (i + A.value (percentageLength ts i)) := by
  refine path_add fun h => ?_
  change 0 < (if 0 < A.len .number i && ts.is (i + A.len .number i) .percent
    then A.len .number i + 1 else 0) at h
  change ts.Path i (i + if 0 < A.len .number i && ts.is (i + A.len .number i) .percent
    then A.len .number i + 1 else 0)
  split at h
  · next hb =>
    rw [if_pos hb]
    exact (number_path (A := A) hr i).trans (path_token (Bool.and_eq_true_iff.1 hb).2 rfl)
  · cases h

omit hr in
theorem tokenLength_path {ks : List Token.Kind} (hks : ∀ k ∈ ks, k.isBracket = false) (i : Nat) :
    ts.Path i (i + A.value (tokenLength ts ks i)) := path_toNat fun h => path_isAny h hks

omit hr in
theorem escapedString_path (i : Nat) : ts.Path i (i + A.value (escapedStringLength ts i)) := by
  refine path_add fun h => ?_
  change 0 < (if ts.is i .tilde && ts.isAny (i + 1) [.doubleQuoted, .singleQuoted] then 2 else 0) at h
  change ts.Path i
    (i + if ts.is i .tilde && ts.isAny (i + 1) [.doubleQuoted, .singleQuoted] then 2 else 0)
  split at h
  · next hb =>
    rw [if_pos hb]
    obtain ⟨htilde, hquoted⟩ := Bool.and_eq_true_iff.1 hb
    exact (path_token htilde rfl).trans (path_isAny hquoted (by decide))
  · cases h

omit hr in
theorem color_path (i : Nat) : ts.Path i (i + A.value (colorLength ts i)) := by
  refine path_add fun h => ?_
  change 0 < (if ts.is i .hash then lengthen (unitLength ts (i + 1)) 1 else 0) at h
  change ts.Path i (i + if ts.is i .hash then lengthen (unitLength ts (i + 1)) 1 else 0)
  split at h
  · next hb =>
    obtain ⟨_, he⟩ := lengthen_pos h
    rw [if_pos hb, he]
    exact (path_token hb rfl).trans ((unit_path (i + 1)).cast (by omega))
  · cases h

end

end LessCss
