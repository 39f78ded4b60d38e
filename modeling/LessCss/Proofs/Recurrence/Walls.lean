import LessCss.Proofs.Recurrence.Selectors

/-! What walls hold back. Between closed walls everything is found again that belongs to a selector,
by induction on how much is left up to the wall: inside parentheses there is less. Before a soft wall
the parts of a compound that covers the whole stream are found again one after the other. -/

namespace LessCss

open Lookahead Grammar Tokens

variable {ts ts' : Tokens} {A : Reading ts false} {B : Reading ts' false} {d lo hi i j o c : Nat}

/-! ## Pairs of parentheses -/

/-- Parentheses are closed by parentheses, which do not read as the letter of a formula; and those
that open between an opener and its closer are closed there. -/
structure Tokens.Nests (ts : Tokens) : Prop where
  closes : ∀ o c, ts.closer? o .leftParen = some c → ts.is c .rightParen = true ∧ ts.text c ≠ "n"
  nests : ∀ o i c, ts.closer? o .leftParen = some c → o < i → i < c → ts.is i .leftParen = true →
    ∃ e, ts.closer? i .leftParen = some e ∧ e < c

/-- The parentheses from token `lo` up to token `hi` are closed there, and in the same way in both
streams. -/
structure Tokens.Paired (ts ts' : Tokens) (d lo hi : Nat) : Prop where
  closer : ∀ i, lo ≤ i → i < hi →
    ts'.closer? (d + i) .leftParen = (ts.closer? i .leftParen).map (d + ·)
  lt : ∀ i c, lo ≤ i → i < hi → ts.closer? i .leftParen = some c → c < hi

theorem Tokens.closer?_eq_none {k : Token.Kind} (h : ts.is o k = false) :
    ts.closer? o k = none :=
  Option.eq_none_iff_forall_ne_some.2 fun c hc => by
    rw [is_of_closer? hc] at h
    cases h

theorem Tokens.Nests.closer_lt {e : Nat} (hn : ts.Nests) (hc : ts.closer? o .leftParen = some c)
    (hoi : o < i) (hic : i < c) (he : ts.closer? i .leftParen = some e) : e < c := by
  obtain ⟨e', he', hlt⟩ := hn.nests o i c hc hoi hic (is_of_closer? he)
  rw [he] at he'
  cases he'
  exact hlt

theorem Tokens.Paired.inside (h : ts.Paired ts' d lo hi) (hn : ts.Nests) (hlo : lo ≤ o)
    (hhi : o < hi) (hc : ts.closer? o .leftParen = some c) : ts.Paired ts' d (o + 1) c := by
  have hchi := h.lt o c hlo hhi hc
  exact ⟨fun i hi hic => h.closer i (by omega) (by omega), fun _ _ hi hic he =>
    hn.closer_lt hc hi hic he⟩

/-- Parentheses that are closed in the same way in both streams. -/
theorem Tokens.Recurs.parenthesized {walls : List Token.Kind} (h : ts.Recurs walls ts' d lo hi)
    (hn : ts.Nests) (wm : ts.WellMarked) (hlo : lo ≤ o) (hchi : c < hi)
    (hc : ts.closer? o .leftParen = some c)
    (hc' : ts'.closer? (d + o) .leftParen = some (d + c)) : ts.Parenthesized ts' d o c := by
  have hoc := (wm.closer_lt hc).1
  obtain ⟨hclose, hletter⟩ := hn.closes o c hc
  refine ⟨h.upTo (by omega) hoc hchi hclose (by decide), hoc, hc, hc', hletter, ?_⟩
  rw [h.text_eq (by omega) hchi]
  exact hletter

/-! ## Between closed walls -/

/-- The rules for selectors agree at token `i`. -/
structure Reading.SelectorsAgree (A : Reading ts false) (B : Reading ts' false) (d hi i : Nat) :
    Prop where
  attributeSelector : A.Agrees B d hi .attributeSelector i
  pseudoClass : A.Agrees B d hi .pseudoClass i
  compound : A.Agrees B d hi .compound i
  combinator : A.Agrees B d hi .combinator i
  selector : A.Agrees B d hi .selector i
  group : A.Agrees B d hi .selectorGroup i

theorem attributeSelector_agrees (h : ts.Recurs closedWalls ts' d lo hi) (wm : ts.WellMarked)
    (wm' : ts'.WellMarked) (hlo : lo ≤ i) (hhi : i ≤ hi) :
    A.Agrees B d hi .attributeSelector i := by
  have hs : ts.Recurs snugWalls ts' d (i + 1) hi := (h.widen (by decide)).tail (by omega)
  obtain ⟨hv, hend⟩ := attributeSelectorMatch_agrees (A := A) (B := B) hs wm wm'
    (h.is_eq (by decide) hlo hhi) (h.lt_of_is (by decide) hhi)
    (h.is_eq (by decide) (Nat.le_trans hlo hhi) (Nat.le_refl hi))
  refine Reading.agrees_of_match (r := .attributeSelector)
    (attributeSelectorMatch_matches (s := .top) (Nat.zero_le i))
    (attributeSelectorMatch_matches (s := .top) (Nat.zero_le _)) ⟨hv, fun m hm => ?_⟩ hhi
  obtain ⟨e, _, he, hr, hl⟩ := hend m hm
  have hlt := h.lt_of_is (by decide) he hr
  omega

/-- A pseudo-class agrees if the selectors in its parentheses do. -/
theorem pseudoClass_agrees (h : ts.Recurs softWalls ts' d lo hi) (hp : ts.Paired ts' d lo hi)
    (hn : ts.Nests) (wm : ts.WellMarked) (wm' : ts'.WellMarked) (hlo : lo ≤ i) (hhi : i ≤ hi)
    (hin : ∀ o c, i < o → o < hi → ts.closer? o .leftParen = some c → c < hi →
      A.Agrees B d c .selectorGroup (o + 1)) : A.Agrees B d hi .pseudoClass i := by
  refine Reading.agrees_of_match (r := .pseudoClass)
    (pseudoClassMatch_matches (s := ⟨0, Rule.ranks, true⟩) wm rfl (Nat.zero_le i))
    (pseudoClassMatch_matches (s := ⟨0, Rule.ranks, true⟩) wm' rfl (Nat.zero_le _))
    (pseudoClassMatch_agrees h hlo hhi fun o _ _ ho hohi => ?_) hhi
  rcases Nat.eq_or_lt_of_le hohi with rfl | hlt
  · -- the wall opens nothing
    have hno : ts.is o .leftParen = false := Bool.eq_false_iff.2 fun hopen =>
      Nat.lt_irrefl o (h.lt_of_is (by decide) hohi hopen)
    have hno' : ts'.is (d + o) .leftParen = false := by
      rw [h.is_eq (by decide) (by omega) hohi, hno]
    rw [closer?_eq_none hno, closer?_eq_none hno']
    refine ⟨rfl, fun c hc => ?_⟩
    cases hc
  · have hcl := hp.closer o (by omega) hlt
    refine ⟨hcl, fun c hc => ?_⟩
    rw [hc] at hcl
    have hchi := hp.lt o c (by omega) hlt hc
    have hparens := h.parenthesized hn wm (by omega) hchi hc hcl
    exact ⟨hchi, hparens.pseudoForm_agrees wm wm' (hin o c (by omega) hlt hc hchi)⟩

theorem compound_agrees (h : ts.Recurs closedWalls ts' d lo hi) (hlo : lo ≤ i) (hhi : i ≤ hi)
    (hin : ∀ j, i ≤ j → j ≤ hi →
      A.Agrees B d hi .attributeSelector j ∧ A.Agrees B d hi .pseudoClass j) :
    A.Agrees B d hi .compound i := by
  have hs : ts.Recurs softWalls ts' d i hi := (h.widen (by decide)).tail hlo
  have hspace := (h.widen (by decide)).namespacePart (A := A) (B := B) hlo hhi
  obtain ⟨htype, htle⟩ := typeSelectorLength_agrees hs hspace (Nat.le_refl i)
  obtain ⟨hparent, hple⟩ := parentLength_agrees (A := A) (B := B) hs (Nat.le_refl i) hhi
  have hlead : B.value (typeSelectorLength ts' (d + i) <|> parentLength ts' (d + i)) =
      A.value (typeSelectorLength ts i <|> parentLength ts i) := by
    rw [A.value_orElse, B.value_orElse, htype, hparent]
  have hle : i + A.value (typeSelectorLength ts i <|> parentLength ts i) ≤ hi := by
    rw [A.value_orElse]
    split
    · exact hple
    · exact htle
  have hparts := Reading.walkWhile_agrees (A := A) (B := B) hs
    (fun j hj hj' => compoundPartLength_agrees hs hj hj' (hin j hj hj').1 (hin j hj hj').2)
    (Nat.le_add_right i _) hle
  refine Reading.agrees_of_match (r := .compound)
    (compoundMatch_matches (s := .top) (Scope.top_open (by decide) i))
    (compoundMatch_matches (s := .top) (Scope.top_open (by decide) _)) ⟨?_, fun m hm => ?_⟩ hhi
  · refine compoundMatch_eq hlead fun lead hl => ?_
    rw [hl]
    exact hparts.1
  · obtain ⟨lead, rfl, _, hend⟩ := compound_cases hm
    rw [hend]
    exact hparts.2

theorem combinator_agrees (h : ts.Recurs closedWalls ts' d lo hi) (hlo : lo ≤ i) (hhi : i ≤ hi) :
    A.Agrees B d hi .combinator i := by
  obtain ⟨hv, hle⟩ := combinatorLength_agrees (A := A) (B := B) h hlo hhi
  exact Reading.agrees_of_sole (r := .combinator) (u := ())
    (combinatorLength_measures (s := .top) (Nat.zero_le i))
    (combinatorLength_measures (s := .top) (Nat.zero_le _)) rfl rfl hv hle

/-- Selectors stop at a closed wall. -/
theorem selectors_agree (h : ts.Recurs closedWalls ts' d lo hi) (hp : ts.Paired ts' d lo hi)
    (hn : ts.Nests) (wm : ts.WellMarked) (wm' : ts'.WellMarked) (hlo : lo ≤ i) (hhi : i ≤ hi) :
    A.SelectorsAgree B d hi i := by
  generalize hm : hi - i = m
  induction m using Nat.strongRecOn generalizing lo hi i with
  | ind m ih =>
    have hs : ts.Recurs softWalls ts' d lo hi := h.widen (by decide)
    have hattribute := attributeSelector_agrees (A := A) (B := B) h wm wm' hlo hhi
    have hpseudo : A.Agrees B d hi .pseudoClass i := by
      refine pseudoClass_agrees hs hp hn wm wm' hlo hhi fun o c ho hohi hc hchi => ?_
      have hoc := (wm.closer_lt hc).1
      have hcl := hp.closer o (by omega) hohi
      rw [hc] at hcl
      have hparens := h.parenthesized hn wm (by omega) hchi hc hcl
      exact (ih _ (show c - (o + 1) < m by omega) hparens.inside (hp.inside hn (by omega) hohi hc)
        (Nat.le_refl _) hoc rfl).group
    have hafter : ∀ j, i < j → j ≤ hi → A.SelectorsAgree B d hi j :=
      fun j hj hj' => ih _ (by omega) h hp (by omega) hj' rfl
    have hcompound : A.Agrees B d hi .compound i := by
      refine compound_agrees h hlo hhi fun j hj hj' => ?_
      rcases Nat.eq_or_lt_of_le hj with rfl | hj
      · exact ⟨hattribute, hpseudo⟩
      · exact ⟨(hafter j hj hj').attributeSelector, (hafter j hj hj').pseudoClass⟩
    have hcombinator := combinator_agrees (A := A) (B := B) h hlo hhi
    have hselector : A.Agrees B d hi .selector i := by
      refine Reading.agrees_of_match (r := .selector)
        (selectorMatch_matches (s := .top) (Scope.top_open (by decide) i))
        (selectorMatch_matches (s := .top) (Scope.top_open (by decide) _))
        (selectorMatch_agrees h wm wm' (fun j hj hj' => ?_) hlo hhi) hhi
      rcases Nat.eq_or_lt_of_le hj with rfl | hj
      · exact ⟨hcompound, hcombinator⟩
      · exact ⟨(hafter j hj hj').compound, (hafter j hj hj').combinator⟩
    have hgroup : A.Agrees B d hi .selectorGroup i := by
      have hin : ∀ j, i ≤ j → j ≤ hi → A.Agrees B d hi .selector j := by
        intro j hj hj'
        rcases Nat.eq_or_lt_of_le hj with rfl | hj
        · exact hselector
        · exact (hafter j hj hj').selector
      obtain ⟨hv, hle⟩ := commaListLength_agrees h wm wm' hin hlo hhi
      exact Reading.agrees_of_sole (r := .selectorGroup) (u := ())
        (commaListLength_measures (s := .top) (Scope.top_open (by decide) i))
        (commaListLength_measures (s := .top) (Scope.top_open (by decide) _)) rfl rfl hv hle
    exact ⟨hattribute, hpseudo, hcompound, hcombinator, hselector, hgroup⟩

/-! ## Before a soft wall -/

/-- The parentheses of a stream are closed in the same way in the other one. -/
def Tokens.Keeps (ts ts' : Tokens) (d : Nat) : Prop :=
  ∀ o c, ts.closer? o .leftParen = some c → ts'.closer? (d + o) .leftParen = some (d + c)

/-- What stands in parentheses that are kept is paired. -/
theorem Tokens.Keeps.paired {walls : List Token.Kind} (hk : ts.Keeps ts' d)
    (h : ts.Recurs walls ts' d lo hi) (hn : ts.Nests) (hlo : lo ≤ o) (hchi : c < hi)
    (hc : ts.closer? o .leftParen = some c) : ts.Paired ts' d (o + 1) c := by
  refine ⟨fun i hi hic => ?_, fun _ _ hi hic he => hn.closer_lt hc hi hic he⟩
  cases he : ts.closer? i .leftParen with
  | some e => rw [hk i e he, Option.map_some]
  | none =>
    refine closer?_eq_none (Bool.eq_false_iff.2 fun hopen => ?_)
    rw [is, h.kind?_eq (by omega) (by omega), ← is] at hopen
    obtain ⟨e, he', _⟩ := hn.nests o i c hc hi hic hopen
    rw [he] at he'
    cases he'

/-- No token is of two kinds. -/
theorem Tokens.clash {ks ls : List Token.Kind} (h : ts.isAny i ks = true)
    (h' : ts.isAny i ls = true) (hd : ∀ k ∈ ks, k ∉ ls) : False := by
  rw [not_isAny_of_isAny h hd] at h'
  cases h'

theorem Tokens.isAny_single {k : Token.Kind} (h : ts.is i k = true) : ts.isAny i [k] = true :=
  isAny_of_is h (List.mem_singleton_self k)

theorem Tokens.eq_of_is {k l : Token.Kind} (h : ts.is i k = true) (h' : ts.is i l = true) :
    k = l := Option.some.inj ((is_iff.1 h).symm.trans (is_iff.1 h'))

/-- What the parts of a compound start with. -/
theorem parts_of_head (wm : ts.WellMarked) {k : Token.Kind} (hk : ts.is i k = true) :
    (k ≠ .hash → A.len .idSelector i = 0) ∧ (k ≠ .dot → A.len .classSelector i = 0) ∧
      (k ≠ .leftSquare → A.len .attributeSelector i = 0) ∧
      (k ≠ .colon → A.value (pseudoLength ts i) = 0) := by
  refine ⟨fun hne => ?_, fun hne => ?_, fun hne => ?_, fun hne => ?_⟩ <;>
    refine Nat.eq_zero_of_not_pos fun hpos => hne (eq_of_is hk ?_)
  · obtain ⟨m, ht, _⟩ := A.exists_of_len hpos
    exact (markedName_cases (A.value_of_tell wm rfl ht)).1
  · obtain ⟨m, ht, _⟩ := A.exists_of_len hpos
    exact (markedName_cases (A.value_of_tell wm rfl ht)).1
  · obtain ⟨m, ht, _⟩ := A.exists_of_len hpos
    exact (attributeSelector_cases (A.value_of_tell wm rfl ht)).1
  · rw [pseudoLength, A.value_orElse, A.value_lengthOf] at hpos
    split at hpos
    · obtain ⟨m, ht, _⟩ := A.exists_of_len hpos
      exact (pseudoClass_cases wm ht).1
    · exact (pseudoElement_cases hpos).1

theorem compoundPart_of_leftSquare (wm : ts.WellMarked) (hm : ts.is i .leftSquare = true) :
    A.value (compoundPartLength ts i) = A.len .attributeSelector i := by
  obtain ⟨hid, hclass, _, hpseudo⟩ := parts_of_head (A := A) wm hm
  rw [value_compoundPartLength, if_pos (hid (by decide)), if_pos (hclass (by decide)),
    hpseudo (by decide)]
  split
  · next hz => exact hz.symm
  · rfl

theorem compoundPart_of_colon (wm : ts.WellMarked) (hm : ts.is i .colon = true)
    (hsecond : ts.is (i + 1) .colon = false) :
    A.value (compoundPartLength ts i) = A.len .pseudoClass i := by
  obtain ⟨hid, hclass, hattribute, _⟩ := parts_of_head (A := A) wm hm
  have helement : A.value (pseudoElementLength ts i) = 0 := Nat.eq_zero_of_not_pos fun hpos => by
    rw [(pseudoElement_cases hpos).2.1] at hsecond
    cases hsecond
  rw [value_compoundPartLength, if_pos (hid (by decide)), if_pos (hclass (by decide)),
    if_pos (hattribute (by decide)), pseudoLength, A.value_orElse, if_pos helement,
    A.value_lengthOf]

/-- The parts of a compound, none of them before an opener. -/
abbrev Parts (A : Reading ts false) : Nat → Nat → Prop :=
  Trail fun j l => 0 < A.value (compoundPartLength ts j) ∧
    l = j + A.value (compoundPartLength ts j) ∧ ts.is l .leftParen = false

theorem parts_of_walk (wm : ts.WellMarked) {k : Nat} (hk : ts.is k .leftParen = false)
    (h : A.value (walkWhile ts.size (compoundPartLength ts) i) = k) : Parts A i k := by
  have ht := A.trail_walkWhile ts.size (compoundPartLength ts) i
  rw [h] at ht
  clear h
  induction ht with
  | refl i => exact .refl i
  | @step i j k round lt rest ih =>
    obtain ⟨_, hpos, hj⟩ := round
    refine .step ⟨hpos, hj, ?_⟩ lt (ih hk)
    cases rest with
    | refl => exact hk
    | step round' _ _ =>
      exact Bool.eq_false_iff.2 fun hopen =>
        clash (isAny_single hopen) (compoundPart_head wm round'.2.1) (by decide)

/-- A repetition goes through the rounds of a trail if it finds them, and nothing behind them. -/
theorem Reading.walkWhile_follows {s : Nat → Lookahead Nat} {P : Nat → Nat → Prop} {k : Nat}
    (ht : Trail P i k) (hround : ∀ j l, i ≤ j → l ≤ k → P j l → B.value (s (d + j)) = l - j)
    (hk : d + k ≤ ts'.size) (hend : B.value (s (d + k)) = 0) :
    B.value (walkWhile ts'.size s (d + i)) = d + k := by
  induction ht with
  | refl i =>
    rw [walkWhile, B.value_walk, B.value_map, hend]
    simp [Step.go]
  | @step i j k round lt rest ih =>
    have hle := rest.le
    have hrest := ih (fun j' l hj => hround j' l (by omega)) hk hend
    rw [walkWhile, B.value_walk, B.value_map, hround i j (Nat.le_refl i) hle round,
      if_pos (show d + i < ts'.size by omega)]
    change (if 0 < j - i ∧ true = true then B.value (walkWhile ts'.size s (d + i + (j - i)))
      else _) = d + k
    rw [if_pos ⟨by omega, rfl⟩, show d + i + (j - i) = d + j by omega]
    exact hrest

section
variable (h : ts.Recurs softWalls ts' d lo hi) (hall : ts.size ≤ hi) (wm : ts.WellMarked)
  (wm' : ts'.WellMarked)
include h hall wm wm'

/-- An attribute selector is found again, since its closing bracket is. -/
theorem attributeSelector_agrees_of_found (hlo : lo ≤ i) (hhi : i ≤ hi)
    (hfound : ts.is i .leftSquare = true → 0 < A.len .attributeSelector i) :
    A.Agrees B d hi .attributeSelector i := by
  have hv : B.value (attributeSelectorMatch ts' (d + i)) = A.value (attributeSelectorMatch ts i) := by
    cases hm : ts.is i .leftSquare with
    | false =>
      rw [attributeSelectorMatch, attributeSelectorMatch, h.is_eq (by decide) hlo hhi, hm]
      rfl
    | true =>
      obtain ⟨m, ht, _⟩ := A.exists_of_len (hfound hm)
      have hlt := A.lt_of_tell ht
      have hbody := A.value_of_tell wm rfl ht
      obtain ⟨e, hie, hr⟩ : ∃ e, i < e ∧ ts.is e .rightSquare = true := by
        obtain ⟨_, a, b, ha, _, hb, ⟨_, hr, _⟩ | ⟨_, j, _, hr, hend⟩⟩ := attributeSelector_cases hbody
        · exact ⟨_, by omega, hr⟩
        · refine ⟨j, ?_, hr⟩
          have hne : j ≠ i := by
            rintro rfl
            cases eq_of_is hm hr
          have hpos := m.length_pos
          omega
      have hend := lt_of_is hr
      have hs : ts.Recurs snugWalls ts' d (i + 1) e :=
        h.upTo (by omega) hie (by omega) hr (by decide)
      refine (attributeSelectorMatch_agrees hs wm wm' (h.is_eq (by decide) hlo hhi)
        (fun _ => hie) ?_).1
      rw [is, is, h.kind?_eq (by omega) (by omega)]
  refine Reading.agrees_of_body (r := .attributeSelector)
    (attributeSelectorMatch_matches (s := .top) (Nat.zero_le i))
    (attributeSelectorMatch_matches (s := .top) (Nat.zero_le _)) hv ?_
  have hfits := A.fits .attributeSelector i
  rw [A.len_eq] at hfits
  omega

/-- A pseudo-class is found again, unless an opener without closer stands behind it. -/
theorem pseudoClass_agrees_of_found (hk : ts.Keeps ts' d) (hn : ts.Nests) (hlo : lo ≤ i)
    (hhi : i ≤ hi) (hfound : ts.is i .colon = true → 0 < A.len .ident (i + 1) →
      0 < A.len .pseudoClass i ∧ ts.is (i + A.len .pseudoClass i) .leftParen = false) :
    A.Agrees B d hi .pseudoClass i := by
  refine Reading.agrees_of_match (r := .pseudoClass)
    (pseudoClassMatch_matches (s := ⟨0, Rule.ranks, true⟩) wm rfl (Nat.zero_le i))
    (pseudoClassMatch_matches (s := ⟨0, Rule.ranks, true⟩) wm' rfl (Nat.zero_le _))
    (pseudoClassMatch_agrees h hlo hhi fun o hcolon hname ho hohi => ?_) hhi
  cases hc : ts.closer? o .leftParen with
  | some c =>
    obtain ⟨hoc, hcs⟩ := wm.closer_lt hc
    refine ⟨hk o c hc, fun c' hc' => ?_⟩
    cases hc'
    have hparens := h.parenthesized hn wm (by omega) (show c < hi by omega) hc (hk o c hc)
    have hpaired := hk.paired h hn (by omega) (show c < hi by omega) hc
    have hgroup := (selectors_agree (A := A) (B := B) hparens.inside hpaired hn wm wm'
      (Nat.le_refl _) hoc).group
    exact ⟨by omega, hparens.pseudoForm_agrees wm wm' hgroup⟩
  | none =>
    refine ⟨closer?_eq_none (Bool.eq_false_iff.2 fun hopen => ?_), fun c' hc' => ?_⟩
    · -- without a closer only the name is covered, and the opener is what comes next
      rw [h.is_eq (by decide) (by omega) hohi] at hopen
      obtain ⟨hpos, hno⟩ := hfound hcolon hname
      obtain ⟨m, ht, hlen⟩ := A.exists_of_len hpos
      rcases (pseudoClass_cases wm ht).2 with ⟨_, n, hn, hl⟩ | ⟨_, c, _, rfl, hc', _⟩
      · rcases name_cases hn with ⟨_, hl'⟩ | ⟨_, hl', _⟩
        · have hat := (interpolation_cases wm (show 0 < A.len .interpolation (i + 1) from
            hl' ▸ n.length_pos)).1
          exact (clash (isAny_single hat) (ident_head wm hname) (by decide)).elim
        · rw [show i + A.len .pseudoClass i = o by omega, hopen] at hno
          cases hno
      · rw [← ho, hc] at hc'
        cases hc'
    · cases hc'

/-- A part of a compound is found again, unless an opener without closer stands behind it. -/
theorem compoundPart_agrees_of_found (hk : ts.Keeps ts' d) (hn : ts.Nests) (hlo : lo ≤ i)
    (hpos : 0 < A.value (compoundPartLength ts i))
    (hno : ts.is (i + A.value (compoundPartLength ts i)) .leftParen = false) :
    A.Agrees B d hi .attributeSelector i ∧ A.Agrees B d hi .pseudoClass i := by
  have hhi : i ≤ hi := by
    have := lt_of_isAny (compoundPart_head wm hpos)
    omega
  refine ⟨attributeSelector_agrees_of_found h hall wm wm' hlo hhi fun hm => ?_,
    pseudoClass_agrees_of_found h hall wm wm' hk hn hlo hhi fun hm hname => ?_⟩
  · rwa [compoundPart_of_leftSquare wm hm] at hpos
  · have hsecond : ts.is (i + 1) .colon = false := Bool.eq_false_iff.2 fun hc =>
      clash (isAny_single hc) (ident_head wm hname) (by decide)
    rw [compoundPart_of_colon wm hm hsecond] at hpos hno
    exact ⟨hpos, hno⟩

/-- A compound that covers the whole stream is found again, if its namespace is. -/
theorem compound_agrees_of_found (hk : ts.Keeps ts' d) (hn : ts.Nests) (hlo : lo ≤ i)
    (hpos : 0 < A.len .compound i) (hcover : i + A.len .compound i = hi)
    (hspace : A.Agrees B d hi .namespacePart i) : A.Agrees B d hi .compound i := by
  obtain ⟨m, ht, hlen⟩ := A.exists_of_len hpos
  obtain ⟨lead, hlead, _, hend⟩ := compound_cases (A.value_of_tell wm rfl ht)
  obtain ⟨htype, _⟩ := typeSelectorLength_agrees h hspace hlo
  obtain ⟨hparent, _⟩ := parentLength_agrees (A := A) (B := B) h hlo (show i ≤ hi by omega)
  have hlead' : B.value (typeSelectorLength ts' (d + i) <|> parentLength ts' (d + i)) =
      A.value (typeSelectorLength ts i <|> parentLength ts i) := by
    rw [A.value_orElse, B.value_orElse, htype, hparent]
  have hopen : ts.is hi .leftParen = false := Bool.eq_false_iff.2 fun hopen =>
    absurd (lt_of_is hopen) (by omega)
  have hparts := parts_of_walk wm hopen (show A.value (walkWhile ts.size (compoundPartLength ts)
    (i + lead)) = hi by omega)
  have hwalk : B.value (walkWhile ts'.size (compoundPartLength ts') (d + (i + lead))) = d + hi := by
    refine Reading.walkWhile_follows hparts (fun j l hj hl hround => ?_) ?_ ?_
    · obtain ⟨hpart, rfl, hno⟩ := hround
      obtain ⟨hattribute, hpseudo⟩ := compoundPart_agrees_of_found (A := A) (B := B) h hall wm wm' hk
        hn (show lo ≤ j by omega) hpart hno
      rw [(compoundPartLength_agrees h (by omega) (by omega) hattribute hpseudo).1]
      omega
    · have := h.lt_size (show lo ≤ hi - 1 by omega) (by omega)
      omega
    · -- no part starts with a wall
      refine Nat.eq_zero_of_not_pos fun hpart => ?_
      obtain ⟨k, hmem, hkind⟩ := isAny_iff.1 (compoundPart_head wm' hpart)
      have hwall := h.wall' k hkind
      revert hmem hwall
      cases k <;> decide
  refine Reading.agrees_of_body (r := .compound)
    (compoundMatch_matches (s := .top) (Scope.top_open (by decide) i))
    (compoundMatch_matches (s := .top) (Scope.top_open (by decide) _)) ?_ (by omega)
  refine compoundMatch_eq hlead' fun lead' hl => ?_
  rw [hl, ← hlead, hwalk]
  omega

end

/-! ## Names before a bar -/

/-- A namespace is found again, unless the wall is a bar that makes one of the last name. -/
theorem namespacePart_agrees_of_end (h : ts.Recurs softWalls ts' d lo hi) (hall : ts.size ≤ hi)
    (hlo : lo ≤ i) (hlt : i < hi)
    (hbar : namespaceEnd A i = hi → ts'.is (d + hi) .bar = false) :
    A.Agrees B d hi .namespacePart i := by
  have hend := (namespaceEnd_agrees (A := A) (B := B) h hlo (Nat.le_of_lt hlt)).2
  refine Reading.agrees_of_match (r := .namespacePart)
    (namespaceMatch_matches (s := .top) (Scope.top_open (by decide) i))
    (namespaceMatch_matches (s := .top) (Scope.top_open (by decide) _)) ?_ (Nat.le_of_lt hlt)
  refine namespaceMatch_agrees h hlo (Nat.le_of_lt hlt) (fun j _ hj => ?_) ?_ ?_
  · have := lt_of_is hj
    omega
  · rw [is, is, h.kind?_eq hlo hlt]
  · rcases Nat.eq_or_lt_of_le hend with he | hlt'
    · rw [he, hbar he]
      refine (Bool.eq_false_iff.2 fun hb => ?_).symm
      have := lt_of_is hb
      omega
    · have hge : i ≤ namespaceEnd A i := by unfold namespaceEnd; omega
      rw [is, is, h.kind?_eq (by omega) hlt']

theorem ident_of_asterisk (h : ts.is i .asterisk = true) :
    A.len .ident i = (A.value (identEnd ts false (i + 1))).2 - i := by
  rw [Reading.len_eq_of_sole (r := .ident) (u := ()) (identLength_measures (s := .top)
    (Nat.zero_le i)) rfl]
  unfold identLength
  rw [is_iff.1 h]
  dsimp only
  rw [if_pos (by decide), A.value_bind, show (Token.Kind.asterisk == .identifier) = false from rfl,
    show (Token.Kind.asterisk == .asterisk) = true from rfl]
  generalize A.value (identEnd ts false (i + 1)) = reached
  obtain ⟨named, stop⟩ := reached
  dsimp only
  rw [Bool.or_true, if_pos rfl, A.value_tokensBetween]

/-- Behind an asterisk a name goes on with no token that starts a part of a compound. -/
theorem ident_of_asterisk_and_part (wm : ts.WellMarked) (h : ts.is i .asterisk = true)
    (hpart : ts.isAny (i + 1) partHeads = true) : A.len .ident i = 1 := by
  have hz : A.len .interpolation (i + 1) = 0 := Nat.eq_zero_of_not_pos fun hpos =>
    clash (isAny_single (interpolation_cases wm hpos).1) hpart (by decide)
  rw [ident_of_asterisk h]
  rcases identEnd_cases A false (i + 1) with ⟨k, hk, hi, _⟩ | ⟨_, he⟩
  · rw [hz, Nat.add_zero] at hi
    exact (clash (isAny_iff.2 ⟨k, hk, is_iff.1 hi⟩) hpart (by decide)).elim
  · rw [he, hz]
    dsimp only
    omega

theorem nameOrStar_eq (A : Reading ts false) (i : Nat) :
    A.value (nameOrStar ts i) = A.len .ident i := by
  rw [nameOrStar, A.value_orElse, A.value_lengthOf, value_tokenLength]
  split
  · next hz =>
    cases hs : ts.isAny i [.asterisk] with
    | false => exact hz.symm
    | true =>
      obtain ⟨k, hk, hkind⟩ := isAny_iff.1 hs
      rw [List.mem_singleton.1 hk] at hkind
      have hstar := is_iff.2 hkind
      have hlen := ident_of_asterisk (A := A) hstar
      have hend : i + 1 ≤ (A.value (identEnd ts false (i + 1))).2 ∧ _ :=
        (identEnd_stays (s := .top) false (Nat.succ_pos i) (Nat.le_refl (i + 1))
          (lt_of_is hstar)).result (fun r j _ => A.fits r j) fun r j _ => A.fits r j
      omega
  · rfl

theorem Trail.first {P : Nat → Nat → Prop} {k : Nat} (h : Trail P i k) (hlt : i < k) :
    ∃ j, P i j := by
  cases h with
  | refl => exact absurd hlt (Nat.lt_irrefl _)
  | step round _ _ => exact ⟨_, round⟩

/-- A type selector without a namespace is an asterisk or a name. -/
theorem typeSelector_of_plain (hspace : A.len .namespacePart i = 0) :
    A.value (typeSelectorLength ts i) = if ts.is i .asterisk then 1 else A.len .ident i := by
  unfold typeSelectorLength
  rw [A.value_bind, A.value_lengthOf, hspace, Nat.add_zero, Nat.zero_add]
  split
  · rfl
  · rw [A.value_bind, A.value_lengthOf, A.value_pure, lengthen]
    split <;> omega

/-- No bar stands behind the name at the end of a stream, so it is no namespace. -/
theorem namespacePart_eq_zero (wm : ts.WellMarked) (hend : namespaceEnd A i = ts.size)
    (hhead : 0 < A.len .ident i ∨ ts.is i .bar = false) : A.len .namespacePart i = 0 := by
  refine Nat.eq_zero_of_not_pos fun hspace => ?_
  obtain ⟨n, hn, _⟩ := A.exists_of_len hspace
  rcases namespace_cases (A.value_of_tell wm rfl hn) with ⟨_, _, hbar, _⟩ | ⟨_, hbar, _⟩
  · change ts.is (namespaceEnd A i) .bar = true at hbar
    have := lt_of_is hbar
    omega
  · rcases hhead with hname | hno
    · exact clash (isAny_single hbar) (ident_head wm hname) (by decide)
    · rw [hbar] at hno
      cases hno

/-- Where a compound covers the whole stream, and a bar behind it would make a namespace of its
name, the name is all there is. -/
theorem ident_of_namespaceEnd (wm : ts.WellMarked) (hpos : 0 < A.len .compound i)
    (hcover : i + A.len .compound i = ts.size) (hend : namespaceEnd A i = ts.size) :
    i + A.len .ident i = ts.size := by
  have hname : 0 < A.len .ident i := by
    refine Nat.pos_of_ne_zero fun hz => ?_
    have hlt := A.lt_of_len hpos
    rw [namespaceEnd, nameOrStar_eq, hz, Nat.add_zero] at hend
    cases hc : ts.is i .blockComment with
    | false =>
      rw [hc] at hend
      exact absurd hend (Nat.ne_of_lt hlt)
    | true =>
      rcases compound_head wm hpos with hh | ⟨hh, _⟩
      · exact clash (isAny_single hc) hh (by decide)
      · cases eq_of_is hh hc
  have hspace := namespacePart_eq_zero wm hend (Or.inl hname)
  obtain ⟨m, ht, hlen⟩ := A.exists_of_len hpos
  obtain ⟨lead, hlead, _, hwalk⟩ := compound_cases (A.value_of_tell wm rfl ht)
  have hpart : i + lead < ts.size → ts.isAny (i + lead) partHeads = true := by
    intro hlt
    have hparts := parts_of_walk wm (Bool.eq_false_iff.2 fun hopen => Nat.lt_irrefl _
      (lt_of_is hopen)) (hwalk.symm.trans (hlen ▸ hcover))
    obtain ⟨_, hround⟩ := hparts.first hlt
    exact compoundPart_head wm hround.1
  rw [namespaceEnd, nameOrStar_eq] at hend
  cases hc : ts.is (i + A.len .ident i) .blockComment with
  | false =>
    rw [hc] at hend
    exact hend
  | true =>
    -- the comment would have to be a part of the compound, or stand behind an asterisk
    rw [hc] at hend
    change i + A.len .ident i + 1 = ts.size at hend
    rw [A.value_orElse, typeSelector_of_plain hspace] at hlead
    cases hs : ts.is i .asterisk with
    | true =>
      rw [hs] at hlead
      change lead = 1 at hlead
      rw [hlead] at hpart
      rw [ident_of_asterisk_and_part wm hs (hpart (by omega))] at hc
      exact (clash (isAny_single hc) (hpart (by omega)) (by decide)).elim
    | false =>
      rw [hs, if_neg Bool.false_ne_true, if_neg (by omega)] at hlead
      rw [hlead] at hpart
      exact (clash (isAny_single hc) (hpart (by omega)) (by decide)).elim

/-- A name before a bar is a namespace. -/
theorem namespacePart_of_bar (wm : ts.WellMarked) (hname : 0 < A.len .ident i)
    (hbar : ts.is (namespaceEnd A i) .bar = true) :
    i + A.len .namespacePart i = namespaceEnd A i + 1 := by
  have hge : i ≤ namespaceEnd A i := by unfold namespaceEnd; omega
  have hbody : A.value (namespaceMatch ts i) =
      Match.of? (namespaceEnd A i + 1 - i) .named := by
    unfold namespaceMatch
    rw [A.value_bind]
    change A.value (if (decide (0 < A.value (nameOrStar ts i)) && ts.is (namespaceEnd A i) .bar) =
      true then _ else _) = _
    rw [nameOrStar_eq, hbar, decide_eq_true hname]
    rfl
  rw [Reading.len, A.tell_eq wm rfl (A.lt_of_len hname)]
  change i + Answer.length (r := .namespacePart) (A.value (namespaceMatch ts i)) = _
  rw [hbody, Reading.length_of?]
  omega

/-- Before two bars a name alone is read as a namespace, and then nothing is left to name. -/
theorem compound_eq_zero_of_bars (h : ts.Recurs softWalls ts' d lo hi) (hall : ts.size ≤ hi)
    (wm' : ts'.WellMarked) (hlo : lo ≤ i) (hname : 0 < A.len .ident i)
    (hcover : i + A.len .ident i = hi) (hbar : ts'.is (d + hi) .bar = true)
    (hbar' : ts'.is (d + hi + 1) .bar = true) :
    B.len .compound (d + i) = 0 ∧ B.len .combinator (d + i) = 0 := by
  have hend : namespaceEnd A i = hi := by
    have hno : ts.is hi .blockComment = false := Bool.eq_false_iff.2 fun hc =>
      absurd (lt_of_is hc) (by omega)
    rw [namespaceEnd, nameOrStar_eq, hcover, hno]
    rfl
  have hend' := (namespaceEnd_agrees (A := A) (B := B) h hlo (show i ≤ hi by omega)).1
  rw [hend] at hend'
  have hlen := (h.ident (A := A) (B := B) hlo (show i ≤ hi by omega)).len
  have hname' : 0 < B.len .ident (d + i) := by omega
  have hhead := ident_head wm' hname'
  have hspace := namespacePart_of_bar wm' hname' (hend' ▸ hbar)
  rw [hend'] at hspace
  refine ⟨Nat.eq_zero_of_not_pos fun hpos => ?_, Nat.eq_zero_of_not_pos fun hpos => ?_⟩
  · obtain ⟨m, ht, hlen⟩ := B.exists_of_len hpos
    obtain ⟨lead, hlead, _, hwalk⟩ := compound_cases (B.value_of_tell wm' rfl ht)
    have htype : B.value (typeSelectorLength ts' (d + i)) = 0 := by
      refine Nat.eq_zero_of_not_pos fun htype => ?_
      rcases typeSelector_cases htype with ⟨hs, _⟩ | ⟨_, hrest, _⟩
      · rw [hspace] at hs
        cases eq_of_is hbar' hs
      · rw [hspace] at hrest
        exact clash (isAny_single hbar') (ident_head wm' hrest) (by decide)
    have hparent : B.value (parentLength ts' (d + i)) = 0 := Nat.eq_zero_of_not_pos fun hparent =>
      clash (isAny_single (parent_head hparent)) hhead (by decide)
    rw [B.value_orElse, htype, if_pos rfl, hparent] at hlead
    rw [hlead, Nat.add_zero] at hwalk
    have htrail := B.trail_walkWhile ts'.size (compoundPartLength ts') (d + i)
    rw [← hwalk] at htrail
    obtain ⟨_, _, hpart, _⟩ := htrail.first (Nat.lt_add_of_pos_right m.length_pos)
    exact clash (compoundPart_head wm' hpart) hhead (by decide)
  · rcases combinator_head wm' hpos with hh | ⟨hh, _⟩
    · exact clash hh hhead (by decide)
    · exact clash (isAny_single hh) hhead (by decide)

/-! ## Combinators -/

/-- A combinator is found again whatever stands behind it. -/
theorem combinator_agrees_of_found {walls : List Token.Kind} (h : ts.Recurs walls ts' d lo hi)
    (wm : ts.WellMarked) (hlo : lo ≤ i) (hpos : 0 < A.len .combinator i)
    (hle : i + A.len .combinator i ≤ hi) : A.Agrees B d hi .combinator i := by
  have his : ∀ k, ts'.is (d + i) k = ts.is i k := fun k => by
    rw [is, is, h.kind?_eq hlo (by omega)]
  have hany : ts'.isAny (d + i) [.plus, .greater, .tilde] =
      ts.isAny i [.plus, .greater, .tilde] := by
    rw [isAny, isAny, h.kind?_eq hlo (by omega)]
  have hv : B.value (combinatorLength ts' (d + i)) = A.value (combinatorLength ts i) := by
    unfold combinatorLength
    rw [his, his, hany]
    rcases combinator_cases wm hpos with ⟨hm, hm', hlen⟩ | ⟨hm, hlen⟩ | ⟨hm, hname, hend, hlen⟩
    · have hsecond : ts'.is (d + i + 1) .bar = true := by
        rw [is, Nat.add_assoc, h.kind?_eq (by omega) (by omega)]
        exact hm'
      rw [hm, hm', hsecond]
      rfl
    · have hno : ts.is i .bar = false := Bool.eq_false_iff.2 fun hb =>
        clash (isAny_single hb) hm (by decide)
      rw [hno, hm]
      rfl
    · have hno : ts.is i .bar = false := Bool.eq_false_iff.2 fun hb => by
        cases eq_of_is hb hm
      have hno' : ts.isAny i [.plus, .greater, .tilde] = false :=
        not_isAny_of_isAny (isAny_single hm) (by decide)
      have hs : ts.Recurs softWalls ts' d (i + 1) (i + 1 + A.len .ident (i + 1)) :=
        h.upTo (by omega) (by omega) (by omega) hend (by decide)
      have hsame := hs.ident (A := A) (B := B) (Nat.le_refl (i + 1)) (by omega)
      have hend' : ts'.is (d + (i + 1 + A.len .ident (i + 1))) .slash = true := by
        rw [is, h.kind?_eq (by omega) (by omega)]
        exact hend
      rw [hno, hno', hm]
      change B.value (lengthOf .ident (d + i + 1) >>= _) = A.value (lengthOf .ident (i + 1) >>= _)
      rw [A.value_bind, B.value_bind, A.value_lengthOf, B.value_lengthOf, Nat.add_assoc d,
        hsame.len, Nat.add_assoc d, hend, hend']
      rfl
  refine Reading.agrees_of_sole (r := .combinator) (u := ())
    (combinatorLength_measures (s := .top) (Nat.zero_le i))
    (combinatorLength_measures (s := .top) (Nat.zero_le _)) rfl rfl hv ?_
  rwa [Reading.len_eq_of_sole (r := .combinator) (u := ())
    (combinatorLength_measures (s := .top) (Nat.zero_le i)) rfl] at hle

end LessCss
