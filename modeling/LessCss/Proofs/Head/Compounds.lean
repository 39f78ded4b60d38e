import LessCss.Proofs.Head.Nodes

/-! Nodes of selectors at the head of a stream. What is built between brackets is told of a window
of both streams; the rest goes by what the rules keep. -/

namespace LessCss

open Lookahead Builder Grammar Tokens

variable {ts ts' : Tokens} {A : Reading ts false} {B : Reading ts' false} {s i j : Nat}

section
variable (h : ts.Head ts')
include h

/-! ## Type selectors and the parent selector -/

/-- The name of a namespace and the comment behind it, if the bar is not left out. -/
theorem namespaceNodes_remade (hpos : 0 < B.len .ident i) (hlt : i + B.len .ident i < ts.size) :
    Remakes A B s (namespaceNodes ts) (namespaceNodes ts') i := by
  have hname : Remakes A B s
      (branch ts .namespaceName (single (choose (starts .ident) (identNode ts) (leaf ts .ident 1))))
      (branch ts' .namespaceName
        (single (choose (starts .ident) (identNode ts') (leaf ts' .ident 1)))) i :=
    Remakes.branch h .namespaceName (remakes_choose_starts (ident_keeps h i).len
      (fun hpos => (identNode_gives h.right.wm hpos).endsAt h.right.wm)
      (fun _ => identNode_remade h i) fun _ => remakes_mark h .ident i).single
  have hend : EndsAt B s (branch ts' .namespaceName
      (single (choose (starts .ident) (identNode ts') (leaf ts' .ident 1)))) i
      (i + B.len .ident i) :=
    (GivesAll.branch (k := .namespaceName) (gives_choose_starts
      (fun hpos => identNode_gives h.right.wm hpos) fun hz => absurd hz (Nat.ne_of_gt hpos)).single
      ⟨rfl, rfl⟩ (Nat.lt_add_of_pos_right hpos)).endsAt h.right.wm
  refine hname.thenAt hend fun name => remakes_cursor ?_
  rw [← h.is_eq hlt]
  exact (remakes_given fun _ => (blockCommentNode_remade h _).single).then fun comment _ =>
    remakes_pure (name :: comment)

theorem namespacePartNode_remade (hpos : 0 < B.len .namespacePart i) :
    Remakes A B s (namespacePartNode ts) (namespacePartNode ts') i := by
  refine remakes_of_fits ((namespacePartNode_gives h.right.wm hpos).endsAt h.right.wm)
    (Nat.le_add_right i _) fun hle => ?_
  obtain ⟨m, ht, hlen⟩ := B.exists_of_len hpos
  refine Remakes.branch h .namespacePart (remakes_tell (namespacePart_keeps h i hle) ?_)
  rw [ht]
  refine Remakes.then (remakes_given fun hnamed => ?_) fun lead _ =>
    (remakes_mark h .namespaceSeparator _).then fun bar _ => remakes_pure (lead ++ [bar])
  rcases namespace_cases (B.value_of_tell h.right.wm rfl ht) with ⟨_, hname, _, hend⟩ | ⟨hs, _⟩
  · rw [nameOrStar_eq] at hname hend
    exact namespaceNodes_remade h hname (by omega)
  · simp only [Answer.shape?, Option.map_some, hs] at hnamed
    exact absurd hnamed (by decide)

theorem typeSelectorNode_remade (hpos : 0 < B.value (typeSelectorLength ts' i)) :
    Remakes A B s (typeSelectorNode ts) (typeSelectorNode ts') i := by
  refine remakes_of_fits ((typeSelectorNode_gives h.right.wm hpos).endsAt h.right.wm)
    (Nat.le_add_right i _) fun hle => ?_
  have hlead : Remakes A B s (optionally (starts .namespacePart) (single (namespacePartNode ts)))
      (optionally (starts .namespacePart) (single (namespacePartNode ts'))) i :=
    remakes_choose_starts (namespacePart_keeps h i).len
      (fun hn => (namespacePartNode_gives h.right.wm hn).single.endsAt h.right.wm)
      (fun hn => (namespacePartNode_remade h hn).single) fun _ => remakes_pure []
  have hend : EndsAt B s (optionally (starts .namespacePart) (single (namespacePartNode ts'))) i
      (i + B.len .namespacePart i) :=
    (givesAll_optionally fun hn => (namespacePartNode_gives h.right.wm hn).single).endsAt h.right.wm
  have hlt : i + B.len .namespacePart i < ts.size := by
    rcases typeSelector_cases hpos with ⟨_, hlen⟩ | ⟨_, _, hlen⟩ <;> omega
  refine Remakes.branch h .typeSelector (hlead.thenAt hend fun lead => Remakes.then ?_ fun name _ =>
    remakes_pure (lead ++ [name]))
  refine remakes_cursor ?_
  rw [h.is_eq hlt]
  split
  · exact remakes_mark h .ident _
  · exact identNode_remade h _

theorem parentSuffixNode_remade (i : Nat) :
    Remakes A B s (parentSuffixNode ts) (parentSuffixNode ts') i := by
  refine Remakes.branch h .parentSuffix (remakes_collect (I := fun _ => True) h
    (fun _ _ _ _ _ _ _ => trivial) (fun j _ => ?_) trivial)
  refine remakesRound_starts (number_keeps h j).len
    (fun hpos => ((numberNode_gives h.right.wm hpos).endsAt h.right.wm).map _)
    (fun _ => (numberNode_remade h j).chunk) ?_
  exact remakesRound_starts (ident_keeps h j).len
    (fun hpos => ((identNode_gives h.right.wm hpos).endsAt h.right.wm).map _)
    (fun _ => (identNode_remade h j).chunk) remakesRound_none

theorem parentNodes_remade (i : Nat) : Remakes A B s (parentNodes ts) (parentNodes ts') i :=
  (remakes_mark h .parentSelector i).then fun parent j => Remakes.then
    (remakes_choose_sees (parentSuffix_kept h j)
      (fun hpos => (parentSuffixNode_gives h.right.wm hpos).single.endsAt h.right.wm)
      (fun _ => (parentSuffixNode_remade h j).single) fun _ => remakes_pure [])
    fun suffix _ => remakes_pure (parent :: suffix)

/-! ## Attribute selectors and pseudo-classes -/

/-- The whole of the shorter stream recurs in the longer one. -/
theorem recurs_whole (lo : Nat) : ts.Recurs (ts'.kind? ts.size).toList ts' 0 lo ts.size := by
  refine ⟨Nat.le_refl _, fun i _ hi => ?_, fun k hk => ?_, fun k hk => ?_⟩
  · rw [Nat.zero_add]
    exact h.token i hi
  · rw [kind?, Array.getElem?_eq_none (Nat.le_refl _)] at hk
    cases hk
  · rw [Nat.zero_add] at hk
    rw [hk]
    exact List.mem_singleton_self k

theorem attributeSelectorNode_remade (hpos : 0 < B.len .attributeSelector i) :
    Remakes A B s (attributeSelectorNode ts) (attributeSelectorNode ts') i := by
  refine remakes_of_fits ((attributeSelectorNode_gives h.right.wm hpos).endsAt h.right.wm)
    (Nat.le_add_right i _) fun hle => ?_
  have ht := attributeSelector_keeps (A := A) h i hle
  have hlen := Reading.len_congr ht
  refine (attributeSelectorNode_copies (recurs_whole h 0) h.left.wm h.right.wm (Nat.zero_le i)
    ⟨?_, by omega⟩ (by omega)).remakes (Nat.le_add_right i _)
  rw [Nat.zero_add, ht]

theorem pseudoElementNode_remade (i : Nat) :
    Remakes A B s (pseudoElementNode ts) (pseudoElementNode ts') i :=
  Remakes.branch h .pseudoElement (remakes_skip (anyNameNode_remade h _).single)

theorem pseudoArgumentsNode_remade {shape : PseudoShape} {c : Nat}
    (hc : ts.closer? i .leftParen = some c) (hargs : Arguments A shape i c) :
    Remakes A B s (pseudoArgumentsNode ts shape) (pseudoArgumentsNode ts' shape) i := by
  intro hs
  have hlt := h.left.wm.closer_lt hc
  have hin := (parenthesized h hc).entersAlike (paired h hc) h.nests A B h.left.wm h.right.wm
  exact (pseudoArgumentsNode_copies (recurs_whole h 0) h.left.wm h.right.wm (Nat.zero_le i) hlt.2 hs
    hin hargs).remakes (by omega) hs

theorem pseudoClassNode_remade (hpos : 0 < B.len .pseudoClass i) :
    Remakes A B s (pseudoClassNode ts) (pseudoClassNode ts') i := by
  refine remakes_of_fits ((pseudoClassNode_gives h.right.wm hpos).endsAt h.right.wm)
    (Nat.le_add_right i _) fun hle => ?_
  obtain ⟨m, ht, hlen⟩ := B.exists_of_len hpos
  have hkeep := pseudoClass_keeps (A := A) h i hle
  refine Remakes.branch h .pseudoClass (remakes_tell hkeep (remakes_check (remakes_skip ?_)))
  rw [ht] at hkeep ⊢
  change Remakes A B s (if m.shape = .bare then single (anyNameNode ts)
      else do return [← identNode ts, ← pseudoArgumentsNode ts m.shape])
    (if m.shape = .bare then single (anyNameNode ts')
      else do return [← identNode ts', ← pseudoArgumentsNode ts' m.shape]) (i + 1)
  by_cases hbare : m.shape = .bare
  · rw [if_pos hbare, if_pos hbare]
    exact (anyNameNode_remade h _).single
  · rw [if_neg hbare, if_neg hbare]
    rcases (pseudoClass_cases h.right.wm ht).2 with
      ⟨hs, _⟩ | ⟨o, c, hname, rfl, hc, hend, _⟩
    · exact absurd hs hbare
    rcases (pseudoClass_cases h.left.wm hkeep).2 with ⟨hs, _⟩ | ⟨o, c', _, rfl, hc', _, hargs⟩
    · exact absurd hs hbare
    have hlt := (h.right.wm.closer_lt hc).1
    rw [(ident_keeps (A := A) (B := B) h (i + 1)).len (by omega)] at hc' hargs
    refine (identNode_remade h _).thenAt ((identNode_gives h.right.wm hname).endsAt h.right.wm)
      fun name => ?_
    exact (pseudoArgumentsNode_remade h hc' hargs).then fun arguments _ =>
      remakes_pure [name, arguments]

theorem pseudoNode_remade (hpos : 0 < B.value (pseudoLength ts' i)) :
    Remakes A B s (pseudoNode ts) (pseudoNode ts') i := by
  refine remakes_choose_sees (pseudoElement_kept h i)
    (fun hel => (pseudoElementNode_gives h.right.wm hel).endsAt h.right.wm)
    (fun _ => pseudoElementNode_remade h i) fun hz => pseudoClassNode_remade h ?_
  rwa [pseudoLength, B.value_orElse, B.value_lengthOf, if_pos hz] at hpos

/-! ## Compounds -/

theorem compoundPart_remade (i : Nat) :
    RemakesRound A B s (compoundPart ts) (compoundPart ts') i := by
  refine remakesRound_starts (idSelector_keeps h i).len
    (fun hpos => ((idNode_gives h.right.wm hpos).endsAt h.right.wm).map _)
    (fun hpos => (idNode_remade h hpos).chunk) ?_
  refine remakesRound_starts (classSelector_keeps h i).len
    (fun hpos => ((classNode_gives h.right.wm hpos).endsAt h.right.wm).map _)
    (fun hpos => (classNode_remade h hpos).chunk) ?_
  refine remakesRound_starts (attributeSelector_keeps h i).len
    (fun hpos => ((attributeSelectorNode_gives h.right.wm hpos).endsAt h.right.wm).map _)
    (fun hpos => (attributeSelectorNode_remade h hpos).chunk) ?_
  exact remakesRound_sees (kept_orElse (pseudoElement_kept h i) (pseudoClass_keeps h i).len)
    (fun hpos => ((pseudoNode_gives h.right.wm hpos).endsAt h.right.wm).map _)
    (fun hpos => (pseudoNode_remade h hpos).chunk) remakesRound_none

theorem compoundLeadNodes_remade
    (hpos : 0 < B.value (typeSelectorLength ts' i <|> parentLength ts' i)) :
    Remakes A B s (compoundLeadNodes ts) (compoundLeadNodes ts') i := by
  have hkept : ts.Kept i (A.value (typeSelectorLength ts i)) (B.value (typeSelectorLength ts' i)) := by
    rcases Nat.eq_zero_or_pos (B.value (typeSelectorLength ts' i)) with hz | hty
    · -- before the parent selector there is no namespace
      rw [B.value_orElse, if_pos hz] at hpos
      intro hle
      refine typeSelector_kept h ?_ hle
      rw [len_namespacePart_eq_zero h.right.wm (isAny_single (parent_head hpos)) (by decide)]
      omega
    · exact typeSelector_found h hty
  exact remakes_choose_sees hkept
    (fun hty => (typeSelectorNode_gives h.right.wm hty).single.endsAt h.right.wm)
    (fun hty => (typeSelectorNode_remade h hty).single) fun _ => parentNodes_remade h i

theorem compoundNode_remade (hpos : 0 < B.len .compound i) :
    Remakes A B s (compoundNode ts) (compoundNode ts') i := by
  refine remakes_of_fits ((compoundNode_gives h.right.wm hpos).endsAt h.right.wm)
    (Nat.le_add_right i _) fun hle => ?_
  obtain ⟨m, ht, hlen⟩ := B.exists_of_len hpos
  obtain ⟨lead, hlead, hshape, _⟩ := compound_cases (B.value_of_tell h.right.wm rfl ht)
  refine Remakes.branch h .compoundSelector (remakes_tell (compound_found h hpos hle) ?_)
  rw [ht]
  refine remakes_check (remakes_cursor ?_)
  refine Remakes.then (remakes_given fun hty => compoundLeadNodes_remade h ?_) fun lead j => ?_
  · rw [← hlead]
    refine Nat.pos_of_ne_zero fun hz => ?_
    simp only [Answer.shape?, Option.map_some, hshape, if_pos hz] at hty
    exact absurd hty (by decide)
  · refine Remakes.then (remakes_collect (I := fun _ => True) h (fun _ _ _ _ _ _ _ => trivial)
      (fun j _ => compoundPart_remade h j) trivial) fun parts _ => ?_
    exact remakes_cursor (remakes_check (remakes_pure (lead ++ parts)))

/-! ## Selectors -/

theorem combinatorNode_remade (i : Nat) :
    Remakes A B s (combinatorNode ts) (combinatorNode ts') i :=
  remakes_leafOf h .combinator (combinator_keeps h i).len

theorem selectorPiece_remade (hpiece : SelectorPiece B i j) :
    Remakes A B s
      (choose (starts .spacing) (spacingNodes ts)
        (choose (starts .combinator) (single (combinatorNode ts)) (single (compoundNode ts))))
      (choose (starts .spacing) (spacingNodes ts')
        (choose (starts .combinator) (single (combinatorNode ts')) (single (compoundNode ts')))) i := by
  refine remakes_choose_starts (spacing_keeps h i).len (fun _ => spacingNodes_endsAt h.right.wm i)
    (fun _ => spacingNodes_remade h i) fun hs => ?_
  refine remakes_choose_starts (combinator_keeps h i).len
    (fun hc => (combinatorNode_gives h.right.wm hc).single.endsAt h.right.wm)
    (fun _ => (combinatorNode_remade h i).single) fun hc => (compoundNode_remade h ?_).single
  cases hpiece with
  | spacing pos => omega
  | combinator pos => omega
  | compound pos => exact pos

theorem selectorNode_remade (hpos : 0 < B.len .selector i)
    (hclear : ∀ e, e = i + B.len .selector i → B.Clear ts (e + B.len .spacing e)) :
    Remakes A B s (selectorNode ts) (selectorNode ts') i := by
  refine remakes_of_fits ((selectorNode_gives h.right.wm hpos).endsAt h.right.wm)
    (Nat.le_add_right i _) fun hle => ?_
  have hlen := (selector_found (A := A) h hpos hclear).len hle
  refine Remakes.branch h .selector (remakes_cursor (remakes_look hlen ?_))
  exact remakes_collectTrail (selector_trail h.right.wm hpos)
    (fun j l hpiece => (selectorPiece_gives h.right.wm hpiece).endsAt h.right.wm)
    fun j l _ hpiece => selectorPiece_remade h hpiece

/-! ## Lists -/

omit h in
/-- A list that goes on has a comma and an element next, and the rest behind it. -/
theorem commaList_step {r : Rule} {stop : Nat}
    (hwalk : B.value (walkWhile ts'.size (afterComma ts' r) j) = stop) (hlt : j < stop) :
    ∃ c e, c = j + B.len .spacing j ∧ ts'.is c .comma = true ∧
      e = c + 1 + B.len .spacing (c + 1) ∧ 0 < B.len r e ∧
      B.value (walkWhile ts'.size (afterComma ts' r) (e + B.len r e)) = stop := by
  rw [value_walkWhile] at hwalk
  split at hwalk
  · next hround =>
    obtain ⟨c, e, hc, hcomma, he, hel, hend⟩ := afterComma_cases hround.2
    exact ⟨c, e, hc, hcomma, he, hel, by rwa [← hend]⟩
  · omega

/-- A list whose elements are remade where the rest of the list follows them. -/
theorem commaListNodes_remade {r : Rule} {element element' : Builder Node} {stop : Nat}
    (hpath : ∀ j, ts'.Path j (j + B.len r j)) (hpos : 0 < B.len r i)
    (hwalk : B.value (walkWhile ts'.size (afterComma ts' r) (i + B.len r i)) = stop)
    (hgives : ∀ j, 0 < B.len r j → Gives B element' j (j + B.len r j))
    (hel : ∀ j, ts'.Path i j → 0 < B.len r j →
      B.value (walkWhile ts'.size (afterComma ts' r) (j + B.len r j)) = stop →
        Remakes A B s element element' j) :
    Remakes A B s (commaListNodes ts stop element) (commaListNodes ts' stop element') i := by
  have wm := h.right.wm
  refine (hel i (path_self ts' i) hpos hwalk).thenAt ((hgives i hpos).endsAt wm) fun first => ?_
  refine Remakes.then ?_ fun rest _ => remakes_pure (first :: rest)
  have hbetween : ∀ {j}, ts'.is (j + B.len .spacing j) .comma = true → ts'.Path j
      (j + B.len .spacing j + 1 + B.len .spacing (j + B.len .spacing j + 1)) := fun his =>
    (spacing_path h.right _).trans ((path_token his rfl).trans (spacing_path h.right _))
  refine remakes_collectTo
    (I := fun j => ts'.Path i j ∧ B.value (walkWhile ts'.size (afterComma ts' r) j) = stop)
    (fun j front l hj hs hlt hret => ?_) (fun j hj hlt => ?_) ⟨hpath i, hwalk⟩
  · obtain ⟨c, e, rfl, hcomma, rfl, hpos, hrest⟩ := commaList_step hj.2 hlt
    have hend : EndsAt B s (do
        return (← spacingNodes ts') ++ [← delimiterNode ts'] ++ (← spacingNodes ts') ++ [← element'])
        j _ :=
      (spacingNodes_endsAt wm j).bind (Nat.le_add_right j _) fun _ =>
        ((gives_mark (k := .delimiter) ⟨rfl, rfl⟩ hcomma rfl).endsAt wm).bind (Nat.le_succ _)
          fun _ => (spacingNodes_endsAt wm _).bind (Nat.le_add_right _ _) fun _ =>
            ((hgives _ hpos).endsAt wm).map _
    obtain rfl := hend hs front l hret
    exact ⟨(hj.1.trans (hbetween hcomma)).trans (hpath _), hrest⟩
  · obtain ⟨c, e, rfl, hcomma, rfl, hpos, hrest⟩ := commaList_step hj.2 hlt
    refine (spacingNodes_remade h j).thenAt (spacingNodes_endsAt wm j) fun before => ?_
    refine (remakes_mark h .delimiter _).thenAt
      ((gives_mark (k := .delimiter) ⟨rfl, rfl⟩ hcomma rfl).endsAt wm) fun delimiter => ?_
    refine (spacingNodes_remade h _).thenAt (spacingNodes_endsAt wm _) fun after => ?_
    exact (hel _ (hj.1.trans (hbetween hcomma)) hpos hrest).then fun element _ =>
      remakes_pure (before ++ [delimiter] ++ after ++ [element])

/-- A list of selectors that is found in both streams, where nothing that is cut follows one of
them. -/
theorem selectorGroupNodes_remade (hpos : 0 < B.len .selectorGroup i)
    (hgroup : A.len .selectorGroup i = B.len .selectorGroup i)
    (hclear : ∀ j, ts'.Path i j → B.value (walkWhile ts'.size (afterComma ts' .selector) j) =
      i + B.len .selectorGroup i → B.Clear ts (j + B.len .spacing j)) :
    Remakes A B s (selectorGroupNodes ts) (selectorGroupNodes ts') i := by
  have hlen := B.len_of_sole (r := .selectorGroup) (u := ()) h.right.wm rfl (B.lt_of_len hpos) rfl
  obtain ⟨hfirst, hend⟩ := commaList_cases (hlen ▸ hpos)
  rw [← hlen] at hend
  refine remakes_cursor (remakes_look hgroup ?_)
  rw [B.value_lengthOf]
  refine Remakes.then (commaListNodes_remade h (selector_path h.right) hfirst hend.symm
    (fun j => selectorNode_gives h.right.wm) fun j hij hj hrest => ?_) fun nodes _ =>
      remakes_cursor (remakes_check (remakes_pure nodes))
  exact selectorNode_remade h hj fun _ hl =>
    hl ▸ hclear _ (hij.trans (selector_path h.right j)) hrest

end

end LessCss
