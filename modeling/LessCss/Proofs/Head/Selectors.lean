import LessCss.Proofs.Head.Values

/-! Selectors where a stream ends. -/

namespace LessCss

open Lookahead Grammar Tokens

variable {ts ts' : Tokens} {A : Reading ts false} {B : Reading ts' false} {i j : Nat}

/-- A namespace that starts at token `i` does not go on behind the shorter stream. -/
def Reading.Clear (B : Reading ts' false) (ts : Tokens) (i : Nat) : Prop :=
  i < ts.size → i + B.len .namespacePart i ≤ ts.size

theorem namespacePart_head (wm : ts.WellMarked) (hpos : 0 < A.len .namespacePart i) :
    ts.isAny i nameHeads = true ∨ ts.is i .bar = true ∧ A.len .namespacePart i = 1 := by
  obtain ⟨m, ht, hlen⟩ := A.exists_of_len hpos
  rcases namespace_cases (A.value_of_tell wm rfl ht) with ⟨_, hname, _⟩ | ⟨_, hbar, hone⟩
  · rw [nameOrStar_eq] at hname
    exact Or.inl (ident_head wm hname)
  · exact Or.inr ⟨hbar, hlen ▸ hone⟩

theorem len_namespacePart_eq_zero {ks : List Token.Kind} (wm : ts.WellMarked)
    (hany : ts.isAny i ks = true) (hks : ∀ k ∈ ks, k ∉ .bar :: nameHeads) :
    A.len .namespacePart i = 0 := by
  refine Nat.eq_zero_of_not_pos fun hpos => clash hany ?_ hks
  rcases namespacePart_head wm hpos with hh | ⟨hh, _⟩
  · exact isAny_of_isAny hh fun k hk => List.mem_cons_of_mem _ hk
  · exact isAny_of_is hh List.mem_cons_self

/-- The namespace of a compound belongs to it. -/
theorem namespacePart_le_compound (wm : ts.WellMarked) (hpos : 0 < A.len .compound i) :
    A.len .namespacePart i ≤ A.len .compound i := by
  rcases compound_lead wm hpos with ⟨htype, hle⟩ | hpart
  · rcases typeSelector_cases htype with ⟨_, hlen⟩ | ⟨_, _, hlen⟩ <;> omega
  · rw [len_namespacePart_eq_zero wm hpart (by decide)]
    exact Nat.zero_le _

theorem namespacePart_le_combinator (wm : ts.WellMarked) (hpos : 0 < A.len .combinator i) :
    A.len .namespacePart i ≤ A.len .combinator i := by
  rcases combinator_head wm hpos with hmark | ⟨hbar, _⟩
  · rw [len_namespacePart_eq_zero wm hmark (by decide)]
    exact Nat.zero_le _
  · rcases Nat.eq_zero_or_pos (A.len .namespacePart i) with hz | hspace
    · omega
    · rcases namespacePart_head wm hspace with hh | ⟨_, hone⟩
      · exact (clash hh (isAny_single hbar) (by decide)).elim
      · omega

section
variable (h : ts.Head ts')
include h

/-! ## Type selectors -/

omit h in
theorem value_namespaceMatch (A : Reading ts false) (i : Nat) : A.value (namespaceMatch ts i) =
    if 0 < A.len .ident i ∧ ts.is (i + A.len .ident i +
      (ts.is (i + A.len .ident i) .blockComment).toNat) .bar = true then
      Match.of? (i + A.len .ident i + (ts.is (i + A.len .ident i) .blockComment).toNat + 1 - i) .named
    else if ts.is i .bar = true then Match.of? 1 .barOnly else none := by
  have hname : A.value (lengthOf .ident i <|> tokenLength ts [.asterisk] i) = A.len .ident i :=
    nameOrStar_eq A i
  simp only [namespaceMatch, A.value_bind, hname, apply_ite A.value, A.value_tokensBetween,
    A.value_pure, Bool.and_eq_true, decide_eq_true_eq]

theorem namespacePart_keeps (i : Nat) : A.Keeps B .namespacePart i := by
  refine Reading.keeps_of_body h fun hi hle => ?_
  change ∀ m, B.value (namespaceMatch ts' i) = some m → _ at hle
  change A.value (namespaceMatch ts i) = B.value (namespaceMatch ts' i)
  rw [value_namespaceMatch] at hle
  rw [value_namespaceMatch, value_namespaceMatch]
  have hname := (ident_keeps (A := A) (B := B) h i).len
  rcases Nat.lt_or_ge ts.size (i + B.len .ident i) with hover | hfits
  · -- the name goes on, so there is no bar behind what is left of it
    have hany : ts.isAny (i + A.len .ident i) [.blockComment, .bar] = false :=
      ident_over h hover (by decide)
    have hcomment := is_of_not_isAny (k := .blockComment) hany (by decide)
    have hbar := is_of_not_isAny (k := .bar) hany (by decide)
    have hhead : ts'.is i .bar = false := Bool.eq_false_iff.2 fun his => by
      have := len_ident_of_is (A := B) h.right.wm his (by decide)
      omega
    have hof := fun n (s : NamespaceShape) (hn : 0 < n) => Match.of?_pos hn s
    rw [hcomment, Bool.toNat_false, Nat.add_zero, hbar, h.is_cut i, hhead]
    unfold Bool.toNat at *
    grind
  · rw [hname hfits]
    have hof := fun n (s : NamespaceShape) (hn : 0 < n) => Match.of?_pos hn s
    simp only [h.is_cut] at *
    unfold Bool.toNat at *
    grind

omit h in
theorem value_typeSelectorLength (A : Reading ts false) (i : Nat) :
    A.value (typeSelectorLength ts i) =
      if ts.is (i + A.len .namespacePart i) .asterisk = true then A.len .namespacePart i + 1
      else lengthen (A.len .ident (i + A.len .namespacePart i)) (A.len .namespacePart i) := by
  rw [typeSelectorLength, A.value_bind, A.value_lengthOf]
  split <;> rfl

/-- A type selector is kept where its namespace ends in the shorter stream. -/
theorem typeSelector_kept (hspace : i + B.len .namespacePart i ≤ ts.size) :
    ts.Kept i (A.value (typeSelectorLength ts i)) (B.value (typeSelectorLength ts' i)) := by
  intro hle
  have hname := (ident_keeps (A := A) (B := B) h (i + B.len .namespacePart i)).len
  rw [value_typeSelectorLength] at *
  rw [value_typeSelectorLength, (namespacePart_keeps (A := A) (B := B) h i).len hspace, h.is_cut]
  unfold Kept lengthen at *
  grind

/-! ## The parent selector -/

theorem parentSuffix_kept (i : Nat) :
    ts.Kept i (A.value (parentSuffixLength ts i)) (B.value (parentSuffixLength ts' i)) := by
  intro hle
  have hscan : ∀ j, ts.Kept j (A.value (lengthOf .number j <|> lengthOf .ident j))
      (B.value (lengthOf .number j <|> lengthOf .ident j)) :=
    fun j => kept_orElse (number_keeps h j).len (ident_keeps h j).len
  have hge := (B.trail_walkWhile ts'.size (fun j => lengthOf .number j <|> lengthOf .ident j) i).le
  rw [parentSuffixLength, B.value_bind, B.value_tokensBetween] at hle
  rw [parentSuffixLength, parentSuffixLength, A.value_bind, B.value_bind, A.value_tokensBetween,
    B.value_tokensBetween, walkWhile_kept h hscan (by omega)]

theorem parent_kept (i : Nat) :
    ts.Kept i (A.value (parentLength ts i)) (B.value (parentLength ts' i)) := by
  intro hle
  have hsuffix := parentSuffix_kept (A := A) (B := B) h (i + 1)
  simp only [parentLength, apply_ite A.value, apply_ite B.value, A.value_bind, B.value_bind,
    A.value_pure, B.value_pure, h.is_cut] at hle ⊢
  unfold Kept at *
  grind

/-! ## Pseudo-elements -/

omit h in
theorem value_pseudoElementLength (A : Reading ts false) (i : Nat) :
    A.value (pseudoElementLength ts i) =
      if ts.is i .colon = true ∧ ts.is (i + 1) .colon = true then
        (A.value (nameMatch (i + 2))).elim 0 (·.length + 2)
      else 0 := by
  rw [pseudoElementLength]
  simp only [Bool.and_eq_true]
  split
  · rw [A.value_bind]
    cases A.value (nameMatch (i + 2)) <;> rfl
  · rfl

theorem pseudoElement_kept (i : Nat) :
    ts.Kept i (A.value (pseudoElementLength ts i)) (B.value (pseudoElementLength ts' i)) := by
  intro hle
  rw [value_pseudoElementLength] at hle
  rw [value_pseudoElementLength, value_pseudoElementLength, h.is_cut, h.is_cut]
  by_cases hcolons : ts'.is i .colon = true ∧ ts'.is (i + 1) .colon = true
  · rw [if_pos hcolons] at hle ⊢
    rcases Nat.lt_or_ge (i + 1) ts.size with hi | hi
    · rw [if_pos (by simp [hcolons, hi]; omega), name_kept h hi fun m hm => by
        rw [hm] at hle
        change i + (m.length + 2) ≤ ts.size at hle
        omega]
    · cases hm : B.value (nameMatch (i + 2)) with
      | none => exact if_neg fun hall =>
          Nat.not_lt.2 hi (of_decide_eq_true (Bool.and_eq_true_iff.1 hall.2).1)
      | some m =>
        rw [hm] at hle
        change i + (m.length + 2) ≤ ts.size at hle
        omega
  · rw [if_neg hcolons, if_neg]
    simp only [Bool.and_eq_true]
    exact fun hall => hcolons ⟨hall.1.2, hall.2.2⟩

/-! ## Attribute selectors -/

omit h in
theorem attributeSelector_closer {m : Match AttributeShape}
    (hm : A.value (attributeSelectorMatch ts i) = some m) :
    ∃ c, ts.is c .rightSquare = true ∧ i + m.length = c + 1 := by
  obtain ⟨_, a, b, _, _, _, ⟨_, hclose, hend⟩ | ⟨_, c, _, hclose, hend⟩⟩ :=
    attributeSelector_cases hm
  · exact ⟨_, hclose, hend⟩
  · exact ⟨c, hclose, hend⟩

theorem attributeSelector_keeps (i : Nat) : A.Keeps B .attributeSelector i := by
  refine Reading.keeps_of_body h fun hi hle => ?_
  change ∀ m, B.value (attributeSelectorMatch ts' i) = some m → _ at hle
  change A.value (attributeSelectorMatch ts i) = B.value (attributeSelectorMatch ts' i)
  -- between the brackets both streams are the same
  have hclosed : ∀ c, ts.is c .rightSquare = true → i < c →
      A.value (attributeSelectorMatch ts i) = B.value (attributeSelectorMatch ts' i) := by
    intro c hc hic
    have hrecurs : ts.Recurs snugWalls ts' 0 (i + 1) c := h.recurs (i + 1) hc (by decide)
    have hagree := attributeSelectorMatch_agrees (A := A) (B := B) (i := i) hrecurs h.left.wm h.right.wm
      (by rw [Nat.zero_add, h.is_eq hi]) (fun _ => hic) (by rw [Nat.zero_add, h.is_eq (lt_of_is hc)])
    rw [Nat.zero_add] at hagree
    exact hagree.1.symm
  have hafter : ∀ {m : Match AttributeShape} {c : Nat}, ts.is i .leftSquare = true →
      ts.is c .rightSquare = true → i + m.length = c + 1 → i < c := by
    intro m c hopen hc hend
    have hpos := m.length_pos
    rcases Nat.eq_or_lt_of_le (show i ≤ c by omega) with rfl | hlt
    · cases eq_of_is hopen hc
    · exact hlt
  cases hA : A.value (attributeSelectorMatch ts i) with
  | some m =>
    obtain ⟨c, hc, hend⟩ := attributeSelector_closer hA
    rw [← hA]
    exact hclosed c hc (hafter (attributeSelector_cases hA).1 hc hend)
  | none =>
    cases hB : B.value (attributeSelectorMatch ts' i) with
    | none => rfl
    | some m =>
      obtain ⟨c, hc, hend⟩ := attributeSelector_closer hB
      have hfits := hle m hB
      have hopen := (attributeSelector_cases hB).1
      rw [h.is_eq (by omega)] at hc hopen
      rw [← hA, ← hB]
      exact hclosed c hc (hafter hopen hc hend)

/-! ## Pseudo-classes -/

/-- Parentheses that are closed in the shorter stream hold the same in both. -/
theorem parenthesized {o c : Nat} (hc : ts.closer? o .leftParen = some c) :
    ts.Parenthesized ts' 0 o c := by
  obtain ⟨hclose, hletter⟩ := h.nests.closes o c hc
  refine ⟨h.recurs (o + 1) hclose (by decide), (h.left.wm.closer_lt hc).1, hc, ?_, hletter, ?_⟩
  · rw [Nat.zero_add, Nat.zero_add]
    exact ((h.closer?_iff rfl).1 hc).1
  · rw [Nat.zero_add, h.text_eq (lt_of_is hclose)]
    exact hletter

theorem paired {o c : Nat} (hc : ts.closer? o .leftParen = some c) :
    ts.Paired ts' 0 (o + 1) c := by
  refine ⟨fun i hi hic => ?_, fun i e hi hic he => h.nests.closer_lt hc hi hic he⟩
  have hlt := Nat.lt_trans hic (h.left.wm.closer_lt hc).2
  rw [Nat.zero_add]
  cases he : ts.closer? i .leftParen with
  | some e => rw [((h.closer?_iff rfl).1 he).1, Option.map_some, Nat.zero_add]
  | none =>
    have hopen : ts.is i .leftParen = false := Bool.eq_false_iff.2 fun hopen => by
      obtain ⟨e, he', _⟩ := h.nests.nests o i c hc hi hic hopen
      rw [he] at he'
      cases he'
    exact closer?_eq_none ((h.is_eq hlt _).trans hopen)

omit h in
/-- Of the token behind the name the parentheses are tried first. -/
theorem value_pseudoClassMatch (A : Reading ts false) {n o : Nat} (hn : n = A.len .ident (i + 1))
    (ho : o = i + 1 + n) : A.value (pseudoClassMatch ts i) =
      if ts.is i .colon = true then
        (if 0 < n then ts.closer? o .leftParen else none).elim (A.value (pseudoBareMatch i)) fun c =>
          (A.value (pseudoForm o c (pseudoForms ts))).elim (A.value (pseudoBareMatch i)) fun shape =>
            Match.of? (c + 1 - i) shape
      else none := by
  subst ho hn
  unfold pseudoClassMatch
  cases ts.is i .colon with
  | false => rfl
  | true =>
    rw [if_neg (by decide), if_pos rfl, A.value_bind, A.value_lengthOf]
    dsimp only
    generalize (if 0 < A.len .ident (i + 1) then _ else _ : Option Nat) = closer
    cases closer with
    | none => rfl
    | some c =>
      dsimp only [Option.elim_some]
      rw [A.value_bind]
      cases A.value (pseudoForm (i + 1 + A.len .ident (i + 1)) c (pseudoForms ts)) <;> rfl

omit h in
theorem value_pseudoBareMatch (A : Reading ts false) (i : Nat) : A.value (pseudoBareMatch i) =
    (A.value (nameMatch (i + 1))).bind fun m => Match.of? (m.length + 1) .bare := A.value_bind _ _

theorem pseudoBare_kept (hi : i < ts.size)
    (hle : ∀ m, B.value (pseudoBareMatch i) = some m → i + m.length ≤ ts.size) :
    A.value (pseudoBareMatch i) = B.value (pseudoBareMatch i) := by
  rw [value_pseudoBareMatch] at hle
  rw [value_pseudoBareMatch, value_pseudoBareMatch, name_kept h hi fun m hm => ?_]
  rw [hm, Option.bind_some, Match.of?_pos (Nat.succ_pos _)] at hle
  have := hle _ rfl
  dsimp only at this
  omega

omit h in
theorem pseudoBare_of_ident (wm : ts.WellMarked) (hpos : 0 < A.len .ident (i + 1)) :
    ∃ m, A.value (pseudoBareMatch i) = some m ∧ m.length = A.len .ident (i + 1) + 1 := by
  have hz : A.len .interpolation (i + 1) = 0 := Nat.eq_zero_of_not_pos fun hin => by
    have := len_ident_of_is (A := A) wm (interpolation_cases wm hin).1 (by decide)
    omega
  rw [value_pseudoBareMatch, nameMatch, A.value_firstOf_cons, A.value_firstOf_cons,
    A.value_lengthOf, A.value_lengthOf, hz, Match.of?_zero, Option.none_or, Match.of?_pos hpos,
    Option.some_or, Option.bind_some, Match.of?_pos (Nat.succ_pos _)]
  exact ⟨_, rfl, rfl⟩

/-- The arguments of a pseudo-class take the same form in both streams. -/
theorem pseudoForm_eq {o c : Nat} (hc : ts.closer? o .leftParen = some c) :
    A.value (pseudoForm o c (pseudoForms ts)) = B.value (pseudoForm o c (pseudoForms ts')) := by
  have hparens := parenthesized h hc
  have hgroup := (selectors_agree (A := A) (B := B) hparens.inside (paired h hc) h.nests h.left.wm
    h.right.wm (Nat.le_refl _) hparens.lt).group
  have hform := hparens.pseudoForm_agrees h.left.wm h.right.wm hgroup
  rw [Nat.zero_add, Nat.zero_add] at hform
  exact hform.symm

theorem pseudoClass_keeps (i : Nat) : A.Keeps B .pseudoClass i := by
  refine Reading.keeps_of_body h fun hi hle => ?_
  change ∀ m, B.value (pseudoClassMatch ts' i) = some m → _ at hle
  change A.value (pseudoClassMatch ts i) = B.value (pseudoClassMatch ts' i)
  obtain ⟨n, hn⟩ : ∃ n, n = B.len .ident (i + 1) := ⟨_, rfl⟩
  obtain ⟨o, ho⟩ : ∃ o, o = i + 1 + n := ⟨_, rfl⟩
  have hA : o ≤ ts.size → _ := fun hfits => value_pseudoClassMatch A (n := n) (o := o)
    (hn.trans ((ident_keeps (A := A) (B := B) h (i + 1)).len (by omega)).symm) ho
  rw [← h.is_eq hi] at hA
  rw [value_pseudoClassMatch B hn ho] at *
  cases hcolon : ts'.is i .colon with
  | false =>
    rw [value_pseudoClassMatch A rfl rfl, if_neg (by rw [← h.is_eq hi, hcolon]; decide),
      if_neg (by decide)]
  | true =>
    rw [hcolon, if_pos rfl] at hA
    rw [if_pos hcolon] at hle
    rw [if_pos rfl]
    have hbare := pseudoBare_kept (A := A) (B := B) h hi
    rcases Nat.eq_zero_or_pos n with rfl | hpos
    · rw [if_neg (Nat.lt_irrefl 0), Option.elim_none] at hA hle ⊢
      rw [hA (by omega), hbare hle]
    rw [if_pos hpos] at hA hle ⊢
    -- a name alone ends in the shorter stream with the whole
    have hfits : (∀ m, B.value (pseudoBareMatch i) = some m → i + m.length ≤ ts.size) →
        o ≤ ts.size := fun hle => by
      obtain ⟨m, hm, hlen⟩ := pseudoBare_of_ident (A := B) (i := i) h.right.wm (hn ▸ hpos)
      have := hle m hm
      omega
    cases hc : ts'.closer? o .leftParen with
    | none =>
      rw [hc] at hle
      rw [hA (hfits hle), h.closer?_eq_none rfl hc]
      exact hbare hle
    | some c =>
      have hoc := (h.right.wm.closer_lt hc).1
      rw [hc, Option.elim_some] at hle
      rw [Option.elim_some]
      cases hform : B.value (pseudoForm o c (pseudoForms ts')) with
      | none =>
        rw [hform, Option.elim_none] at hle
        rw [hA (hfits hle), hbare hle, Option.elim_none]
        rcases Nat.lt_or_ge c ts.size with hlt | hge
        · have hc' := (h.closer?_iff rfl).2 ⟨hc, hlt⟩
          rw [hc', Option.elim_some, pseudoForm_eq (B := B) h hc', hform, Option.elim_none]
        · rw [h.closer?_left_out hc rfl hge, Option.elim_none]
      | some shape =>
        rw [hform, Option.elim_some, Match.of?_pos (by omega)] at hle
        have hlt := hle _ rfl
        dsimp only at hlt
        have hc' := (h.closer?_iff rfl).2 ⟨hc, by omega⟩
        rw [hA (by omega), hc', Option.elim_some, pseudoForm_eq (B := B) h hc', hform,
          Option.elim_some, Option.elim_some]

/-! ## Compounds -/

theorem compoundPart_kept (i : Nat) :
    ts.Kept i (A.value (compoundPartLength ts i)) (B.value (compoundPartLength ts' i)) :=
  kept_orElse (idSelector_keeps h i).len <| kept_orElse (classSelector_keeps h i).len <|
    kept_orElse (attributeSelector_keeps h i).len <|
      kept_orElse (pseudoElement_kept h i) (pseudoClass_keeps h i).len

omit h in
theorem value_compoundMatch (A : Reading ts false) {lead : Nat}
    (hlead : lead = A.value (typeSelectorLength ts i <|> parentLength ts i)) :
    A.value (compoundMatch ts i) = Match.of?
      (A.value (walkWhile ts.size (compoundPartLength ts) (i + lead)) - i)
      (if lead = 0 then .untyped else .typed) := by
  subst hlead
  unfold compoundMatch
  rw [A.value_bind, A.value_bind, A.value_bind, A.value_tokensBetween, A.value_pure]

/-- A compound is kept where its namespace ends in the shorter stream. -/
theorem compound_keeps (hspace : B.Clear ts i) : A.Keeps B .compound i := by
  refine Reading.keeps_of_body h fun hi hle => ?_
  change ∀ m, B.value (compoundMatch ts' i) = some m → _ at hle
  change A.value (compoundMatch ts i) = B.value (compoundMatch ts' i)
  obtain ⟨lead, hlead⟩ : ∃ n, n = B.value (typeSelectorLength ts' i <|> parentLength ts' i) :=
    ⟨_, rfl⟩
  have hge := (B.trail_walkWhile ts'.size (compoundPartLength ts') (i + lead)).le
  rw [value_compoundMatch B hlead] at *
  have hend : B.value (walkWhile ts'.size (compoundPartLength ts') (i + lead)) ≤ ts.size := by
    have := end_le_of_match (Nat.le_of_lt hi) hle
    omega
  have hlead' : A.value (typeSelectorLength ts i <|> parentLength ts i) = lead := by
    rw [hlead]
    exact kept_orElse (typeSelector_kept h (hspace hi)) (parent_kept h i) (by omega)
  rw [value_compoundMatch A hlead'.symm, walkWhile_kept h (compoundPart_kept h) hend]

/-! ## Selectors -/

omit h in
theorem afterCompound_eq (A : Reading ts false) {s p c g q : Nat} (hs : s = A.len .spacing j)
    (hp : p = j + s) (hc : c = A.len .combinator p) (hg : g = A.len .spacing (p + c))
    (hq : q = p + c + g) : A.value (afterCompound j) =
      if c = 0 then if s = 0 then .last 0 else .go (lengthen (A.len .compound p) s)
      else if A.len .compound q = 0 then .last (s + c) else .go (s + c + g + A.len .compound q) := by
  subst hq hg hc hp hs
  unfold afterCompound
  rw [A.value_bind, A.value_lengthOf, A.value_bind, A.value_lengthOf]
  split
  · split
    · rfl
    · rw [A.value_bind]
      rfl
  · dsimp only
    rw [A.value_bind, A.value_lengthOf, A.value_bind, A.value_lengthOf]
    simp only [← Nat.add_assoc]
    split
    · next hz => rw [if_pos hz]; rfl
    · next hn => rw [if_neg hn]; rfl

omit h in
theorem afterCombinator_eq (A : Reading ts false) {s p c g q : Nat} (hs : s = A.len .spacing j)
    (hp : p = j + s) (hc : c = A.len .compound p) (hg : g = A.len .spacing (p + c))
    (hq : q = p + c + g) : A.value (afterCombinator j) =
      if c = 0 then .last 0
      else if A.len .combinator q = 0 then .last (s + c)
      else .go (s + c + g + A.len .combinator q) := by
  subst hq hg hc hp hs
  unfold afterCombinator
  rw [A.value_bind, A.value_lengthOf, A.value_bind, A.value_lengthOf]
  split
  · next hz => rw [if_pos hz]; rfl
  · next hn =>
    rw [if_neg hn]
    dsimp only
    rw [A.value_bind, A.value_lengthOf, A.value_bind, A.value_lengthOf]
    simp only [← Nat.add_assoc]
    split
    · next hz => rw [if_pos hz]; rfl
    · next hn => rw [if_neg hn]; rfl

/-- A compound behind spacing is the same in both streams if it ends in the shorter one, and if
there is none, then where no namespace goes on. -/
theorem len_compound_after_spacing (hi : i ≤ ts.size)
    (hle : 0 < B.len .compound (i + B.len .spacing i) →
      i + B.len .spacing i + B.len .compound (i + B.len .spacing i) ≤ ts.size)
    (hclear : B.len .compound (i + B.len .spacing i) = 0 → B.Clear ts (i + B.len .spacing i)) :
    A.len .compound (i + A.len .spacing i) = B.len .compound (i + B.len .spacing i) := by
  refine len_after_spacing h hi (fun _ => compound_keeps h fun hlt => ?_) hle
  rcases Nat.eq_zero_or_pos (B.len .compound (i + B.len .spacing i)) with hz | hpos
  · exact hclear hz hlt
  · have := namespacePart_le_compound h.right.wm hpos
    have := hle hpos
    omega

section
variable (hj : j < ts.size) (hle : j + (B.value (afterCompound j)).length ≤ ts.size)
  (hclear : ∀ e, ¬ (0 < (B.value (afterCompound j)).length ∧
    (B.value (afterCompound j)).more = true) → e = j + (B.value (afterCompound j)).length →
      B.Clear ts (e + B.len .spacing e))
include hj hle hclear

/-- A round behind a compound that no combinator follows. -/
theorem afterCompound_kept_apart (hz : B.len .combinator (j + B.len .spacing j) = 0) :
    A.value (afterCompound j) = B.value (afterCompound j) := by
  obtain ⟨s, hs⟩ : ∃ s, s = B.len .spacing j := ⟨_, rfl⟩
  obtain ⟨p, hp⟩ : ∃ p, p = j + s := ⟨_, rfl⟩
  have hspacing := spacing_eq_min (A := A) (B := B) h (Nat.le_of_lt hj)
  have hcombinator := len_after_spacing (A := A) (B := B) h (Nat.le_of_lt hj)
    (fun _ => combinator_keeps h _) (by omega)
  have hcompound := len_compound_after_spacing (A := A) (B := B) h (Nat.le_of_lt hj)
  rw [afterCompound_eq A rfl rfl rfl rfl rfl, if_pos (hcombinator.trans hz)]
  have hno : B.len .combinator p = 0 := by rw [hp, hs, hz]
  rw [afterCompound_eq B hs hp rfl rfl rfl, if_pos hno] at hle hclear ⊢
  rw [← hs, ← hp] at hcompound
  rcases Nat.eq_zero_or_pos s with hsz | hspos
  · rw [if_pos hsz, if_pos (by omega)]
  rw [if_neg (by omega)] at hle hclear ⊢
  rw [if_neg (by omega)]
  unfold Step.go lengthen at *
  rcases Nat.eq_zero_or_pos (B.len .compound p) with hm | hm
  · rw [if_pos hm] at hclear
    rw [hcompound (by omega) fun _ => hp ▸ hs ▸ hclear j (by simp) rfl, hm, if_pos rfl, if_pos rfl]
  · rw [if_neg (by omega)] at hle
    dsimp only at hle
    rw [hcompound (by omega) (by omega), show A.len .spacing j = s by omega]

/-- A round behind a compound that a combinator follows. -/
theorem afterCompound_kept_joined (hpos : 0 < B.len .combinator (j + B.len .spacing j)) :
    A.value (afterCompound j) = B.value (afterCompound j) := by
  obtain ⟨s, hs⟩ : ∃ s, s = B.len .spacing j := ⟨_, rfl⟩
  obtain ⟨p, hp⟩ : ∃ p, p = j + s := ⟨_, rfl⟩
  obtain ⟨c, hc⟩ : ∃ c, c = B.len .combinator p := ⟨_, rfl⟩
  obtain ⟨g, hg⟩ : ∃ g, g = B.len .spacing (p + c) := ⟨_, rfl⟩
  obtain ⟨q, hq⟩ : ∃ q, q = p + c + g := ⟨_, rfl⟩
  have hspacing := spacing_eq_min (A := A) (B := B) h (Nat.le_of_lt hj)
  have hcombinator := len_after_spacing (A := A) (B := B) h (Nat.le_of_lt hj)
    (fun _ => combinator_keeps h _)
  rw [← hs, ← hp, ← hc] at hpos hcombinator
  have hn : ¬ c = 0 := by omega
  rw [afterCompound_eq A rfl rfl rfl rfl rfl]
  rw [afterCompound_eq B hs hp hc hg hq, if_neg hn] at *
  unfold Step.go Step.last at *
  have hfits : p + c ≤ ts.size := by
    split at hle <;> (dsimp only at hle; omega)
  have hs' : A.len .spacing j = s := by omega
  rw [hcombinator fun _ => hfits, if_neg hn, hs', ← hp]
  have hgap := spacing_eq_min (A := A) (B := B) h hfits
  have hcompound := len_compound_after_spacing (A := A) (B := B) h hfits
  rw [← hg, ← hq] at hcompound
  rcases Nat.eq_zero_or_pos (B.len .compound q) with hm | hm
  · rw [if_pos hm] at hclear ⊢
    have hzero := hcompound (by omega) fun _ => hq ▸ hg ▸ hclear (p + c) (by simp) (by
      dsimp only
      omega)
    rw [if_pos (hzero.trans hm)]
  · have hm' : ¬ B.len .compound q = 0 := by omega
    rw [if_neg hm'] at hle ⊢
    dsimp only at hle
    have heq := hcompound (by omega) (by omega)
    rw [heq, if_neg hm', show A.len .spacing (p + c) = g by omega]

/-- A round behind a compound is kept, where no namespace goes on if it is the last one. -/
theorem afterCompound_kept : A.value (afterCompound j) = B.value (afterCompound j) := by
  rcases Nat.eq_zero_or_pos (B.len .combinator (j + B.len .spacing j)) with hz | hpos
  · exact afterCompound_kept_apart h hj hle hclear hz
  · exact afterCompound_kept_joined h hj hle hclear hpos

end

/-- A round behind a combinator is kept, where no namespace goes on if it is the last one. -/
theorem afterCombinator_kept (hj : j < ts.size)
    (hle : j + (B.value (afterCombinator j)).length ≤ ts.size)
    (hclear : ∀ e, ¬ (0 < (B.value (afterCombinator j)).length ∧
      (B.value (afterCombinator j)).more = true) → e = j + (B.value (afterCombinator j)).length →
        B.Clear ts (e + B.len .spacing e)) :
    A.value (afterCombinator j) = B.value (afterCombinator j) := by
  obtain ⟨s, hs⟩ : ∃ s, s = B.len .spacing j := ⟨_, rfl⟩
  obtain ⟨p, hp⟩ : ∃ p, p = j + s := ⟨_, rfl⟩
  obtain ⟨c, hc⟩ : ∃ c, c = B.len .compound p := ⟨_, rfl⟩
  obtain ⟨g, hg⟩ : ∃ g, g = B.len .spacing (p + c) := ⟨_, rfl⟩
  obtain ⟨q, hq⟩ : ∃ q, q = p + c + g := ⟨_, rfl⟩
  have hspacing := spacing_eq_min (A := A) (B := B) h (Nat.le_of_lt hj)
  have hcompound := len_compound_after_spacing (A := A) (B := B) h (Nat.le_of_lt hj)
  rw [← hs, ← hp, ← hc] at hcompound
  rw [afterCombinator_eq A rfl rfl rfl rfl rfl]
  rw [afterCombinator_eq B hs hp hc hg hq] at *
  unfold Step.go Step.last at *
  rcases Nat.eq_zero_or_pos c with hz | hpos
  · rw [if_pos hz] at hclear ⊢
    rw [if_pos ((hcompound (by omega) fun _ => hp ▸ hs ▸ hclear j (by simp) rfl).trans hz)]
  · have hn : ¬ c = 0 := by omega
    rw [if_neg hn] at hle ⊢
    have hfits : p + c ≤ ts.size := by
      split at hle <;> (dsimp only at hle; omega)
    have hs' : A.len .spacing j = s := by omega
    rw [hcompound (fun _ => hfits) (by omega), if_neg hn, hs', ← hp]
    have hgap := spacing_eq_min (A := A) (B := B) h hfits
    have hcombinator := len_after_spacing (A := A) (B := B) h hfits fun _ => combinator_keeps h _
    rw [← hg, ← hq] at hcombinator
    rcases Nat.eq_zero_or_pos (B.len .combinator q) with hm | hm
    · rw [if_pos hm, if_pos ((hcombinator (by omega)).trans hm)]
    · have hm' : ¬ B.len .combinator q = 0 := by omega
      rw [if_neg hm'] at hle ⊢
      dsimp only at hle
      have heq := hcombinator (by omega)
      rw [heq, if_neg hm', show A.len .spacing (p + c) = g by omega]

/-- The rest of a selector is kept, where no namespace goes on behind it. -/
theorem selectorRest_kept {step : Nat → Lookahead Step} {e : Nat}
    (hstep : ∀ j, j < ts.size → j + (B.value (step j)).length ≤ ts.size →
      (∀ e, ¬ (0 < (B.value (step j)).length ∧ (B.value (step j)).more = true) →
        e = j + (B.value (step j)).length → B.Clear ts (e + B.len .spacing e)) →
      A.value (step j) = B.value (step j))
    (he : e ≤ ts.size) (hclear : B.Clear ts (e + B.len .spacing e))
    (hwalk : B.value (walk ts'.size step j) = e) : A.value (walk ts.size step j) = e := by
  refine walk_kept (I := fun _ => True) h (fun _ _ => trivial) (fun k _ hk hend hle => ?_) he trivial
    hwalk
  refine hstep k hk hle fun l hlast hl => ?_
  rw [B.value_walk, if_pos (h.lt_size hk), if_neg hlast] at hend
  rw [hl, hend]
  exact hclear

omit h in
theorem value_selectorMatch (A : Reading ts false) (i : Nat) : A.value (selectorMatch ts i) =
    if 0 < A.len .compound i then
      Match.of? (A.value (walk ts.size afterCompound (i + A.len .compound i)) - i) .compound
    else if 0 < A.len .combinator i then
      Match.of? (A.value (walk ts.size afterCombinator (i + A.len .combinator i)) - i) .combinator
    else none := by
  unfold selectorMatch
  rw [A.value_bind, A.value_lengthOf]
  split
  · next hz =>
    rw [if_neg (by omega), A.value_bind, A.value_lengthOf]
    split
    · next hz' => rw [if_neg (by omega), A.value_pure]
    · next hn =>
      rw [if_pos (Nat.pos_of_ne_zero hn), A.value_bind, A.value_bind, A.value_tokensBetween,
        A.value_pure]
  · next hn =>
    rw [if_pos (Nat.pos_of_ne_zero hn), A.value_bind, A.value_bind, A.value_tokensBetween,
      A.value_pure]

/-- A selector is kept, where no namespace goes on behind it, or at its start if there is none. -/
theorem selector_keeps (hspace : B.len .selector i = 0 → B.Clear ts i)
    (hclear : ∀ e, e = i + B.len .selector i → B.Clear ts (e + B.len .spacing e)) :
    A.Keeps B .selector i := by
  intro hle
  rcases Nat.lt_or_ge i ts.size with hi | hi
  · have hlen : B.len .selector i = Answer.length (r := .selector) (B.value (selectorMatch ts' i)) :=
      congrArg Answer.length (B.tell_eq_value (h.lt_size hi))
    rw [A.tell_eq_value hi, B.tell_eq_value (h.lt_size hi)]
    change A.value (selectorMatch ts i) = B.value (selectorMatch ts' i)
    rw [value_selectorMatch] at hlen
    rw [value_selectorMatch, value_selectorMatch]
    rcases Nat.eq_zero_or_pos (B.len .compound i) with hz | hpos
    · have hn : ¬ 0 < B.len .compound i := by omega
      rw [if_neg hn] at hlen ⊢
      rcases Nat.eq_zero_or_pos (B.len .combinator i) with hz' | hpos
      · rw [if_neg (show ¬ 0 < B.len .combinator i by omega)] at hlen ⊢
        have hcompound := (compound_keeps (A := A) (B := B) h (hspace hlen)).len (by omega)
        have hcombinator := (combinator_keeps (A := A) (B := B) h i).len (by omega)
        rw [if_neg (by omega), if_neg (by omega)]
      · rw [if_pos hpos, Reading.length_of?] at hlen
        rw [if_pos hpos]
        have hge := (B.trail_walk ts'.size afterCombinator (i + B.len .combinator i)).le
        have hcombinator := (combinator_keeps (A := A) (B := B) h i).len (by omega)
        have hcompound := (compound_keeps (A := A) (B := B) (i := i) h fun _ => by
          have := namespacePart_le_combinator (A := B) (i := i) h.right.wm hpos
          omega).len (by omega)
        rw [if_neg (by omega), hcombinator, if_pos hpos, selectorRest_kept h
          (fun j => afterCombinator_kept h) (by omega) (hclear _ (by omega)) rfl]
    · rw [if_pos hpos, Reading.length_of?] at hlen
      rw [if_pos hpos]
      have hge := (B.trail_walk ts'.size afterCompound (i + B.len .compound i)).le
      have hcompound := (compound_keeps (A := A) (B := B) (i := i) h fun _ => by
        have := namespacePart_le_compound (A := B) (i := i) h.right.wm hpos
        omega).len (by omega)
      rw [hcompound, if_pos hpos, selectorRest_kept h (fun j => afterCompound_kept h) (by omega)
        (hclear _ (by omega)) rfl]
  · rw [A.past_end _ i hi, B.tell_eq_none (by omega)]

end

end LessCss
