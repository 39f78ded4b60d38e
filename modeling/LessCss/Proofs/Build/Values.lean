import LessCss.Proofs.Build.Terms

/-! Building values, declarations and the insides of groups and argument lists. A part of a value is
one of several forms; the form that the lookahead found picks the builder. -/

namespace LessCss

open Lookahead Builder Grammar Tokens

variable {ts : Tokens} {capped : Bool} {A : Reading ts capped} {i j k : Nat}

/-! ## Functions and fragments -/

theorem function_cases (wm : ts.WellMarked) (h : 0 < A.value (functionLength ts i)) :
    0 < A.len .ident i ∧ ∃ c, ts.closer? (i + A.len .ident i) .leftParen = some c ∧
      i + A.value (functionLength ts i) = c + 1 := by
  unfold functionLength at h ⊢
  rw [A.value_bind, A.value_lengthOf] at h ⊢
  split at h
  · cases h
  · next hn =>
    obtain ⟨c, hc, hlen, hlt⟩ := throughCloser_cases wm h
    exact ⟨Nat.pos_of_ne_zero hn, c, hc, by omega⟩

theorem functionNode_gives (wm : ts.WellMarked) (h : 0 < A.value (functionLength ts i)) :
    Gives A (functionNode ts) i (i + A.value (functionLength ts i)) := by
  obtain ⟨hpos, c, hc, hlen⟩ := function_cases wm h
  have hlt := wm.closer_lt hc
  rw [hlen]
  refine GivesAll.branch (k := .function) (fun E lo hs => ?_) ⟨rfl, rfl⟩ (by omega)
  refine (identNode_gives wm hpos).then hs fun name hname hs => ?_
  refine (argumentsNode_gives wm hc).then hs fun args hargs _ => ?_
  exact ⟨rfl, hname.single.append hargs.single⟩

theorem fragmentNode_gives (wm : ts.WellMarked) (h : 0 < A.len .fragment i) :
    Gives A (fragmentNode ts) i (i + A.len .fragment i) := by
  obtain ⟨m, ht, hlen⟩ := A.exists_of_len h
  obtain ⟨a, ha, hs, hl, hpos⟩ := A.alternative wm rfl rfl ht
  rw [← hlen]
  intro E lo hc
  refine runs_ask.2 ?_
  rw [ht]
  simp only [List.mem_cons, List.not_mem_nil, or_false] at ha
  simp only [Answer.shape?, Option.map_some]
  rcases ha with rfl | rfl | rfl | rfl | rfl | rfl | rfl | rfl | rfl | rfl | rfl | rfl | rfl
    | rfl <;> rw [hl, hs]
  · exact bracketsNode_gives wm hpos E lo hc
  · exact parenthesesNode_gives wm hpos E lo hc
  · exact (gives_token (k := .string) ⟨rfl, rfl⟩ hpos rfl) E lo hc
  · exact varListNode_gives wm hpos E lo hc
  · exact varNode_gives wm hpos E lo hc
  · exact percentageNode_gives wm hpos E lo hc
  · exact dimensionNode_gives wm hpos E lo hc
  · exact numberNode_gives wm hpos E lo hc
  · exact uriNode_gives wm hpos E lo hc
  · exact expressionNode_gives wm hpos E lo hc
  · exact functionNode_gives wm hpos E lo hc
  · exact identNode_gives wm hpos E lo hc
  · exact classNode_gives wm hpos E lo hc
  · exact (gives_token (k := .unary) ⟨rfl, rfl⟩ hpos rfl) E lo hc

/-! ## Groups and heads of at-rules -/

theorem preludePartNodes_gives (wm : ts.WellMarked) {m : Match PreludePart}
    (h : A.tell .preludePart i = some m) :
    GivesAll A (preludePartNodes ts m.shape) i (i + m.length) := by
  obtain ⟨a, ha, hs, hl, hpos⟩ := A.alternative wm rfl rfl h
  simp only [List.mem_cons, List.not_mem_nil, or_false] at ha
  rcases ha with rfl | rfl | rfl | rfl <;> rw [hl, hs]
  · exact (colorNode_gives hpos).single
  · exact (fragmentNode_gives wm hpos).single
  · exact spacingNodes_gives wm A i
  · exact (gives_token (k := .operator) ⟨rfl, rfl⟩ hpos rfl).single

theorem preludeNodes_gives (wm : ts.WellMarked) (A : Reading ts capped) (i : Nat) :
    GivesAll A (preludeNodes ts) i (A.value (preludeEnd ts i)) := by
  refine givesAll_collectWhile fun j E lo hc => runs_ask.2 ?_
  rw [A.value_lengthOf, Reading.len]
  cases ht : A.tell .preludePart j with
  | none => exact givesRound_none E lo hc
  | some m =>
    exact (preludePartNodes_gives wm ht).then hc fun ns hns _ =>
      ⟨rfl, hns, iff_of_true rfl (Nat.lt_add_of_pos_right m.length_pos)⟩

/-! ## Values -/

theorem valuePartNode_gives (wm : ts.WellMarked) {m : Match ValuePart}
    (h : A.tell .valuePart i = some m) : Gives A (valuePartNode ts m.shape) i (i + m.length) := by
  obtain ⟨a, ha, hs, hl, hpos⟩ := A.alternative wm rfl rfl h
  simp only [List.mem_cons, List.not_mem_nil, or_false] at ha
  rcases ha with rfl | rfl | rfl | rfl | rfl | rfl | rfl | rfl | rfl | rfl <;>
    rw [hl, hs]
  · exact escapedStringNode_gives hpos
  · exact interpolationNode_gives wm hpos
  · exact varNode_gives wm hpos
  · exact colorNode_gives hpos
  · exact blockNode_gives wm hpos
  · exact progidNode_gives wm hpos
  · exact fragmentNode_gives wm hpos
  · exact atKeywordNode_gives wm hpos
  · exact gives_token (k := .operator) ⟨rfl, rfl⟩ hpos rfl
  · exact importantNode_gives wm hpos

/-- One round of a value: spacing and an element; a block is the last. -/
def valueRound (j : Nat) : Lookahead Step := do
  let spacing ← lengthOf .spacing j
  match ← find .valuePart (j + spacing) with
  | some m => return ⟨spacing + m.length, m.shape != .block⟩
  | none => return .last 0

theorem value_valueRound (j : Nat) : A.value (valueRound j) =
    match A.tell .valuePart (j + A.len .spacing j) with
    | some m => ⟨A.len .spacing j + m.length, m.shape != .block⟩
    | none => .last 0 := by
  rw [valueRound, A.value_bind, A.value_lengthOf, A.value_bind, A.value_find]
  cases A.tell .valuePart (j + A.len .spacing j) with
  | none => rfl
  | some m => rfl

theorem len_value (wm : ts.WellMarked) (h : 0 < A.len .value i) :
    i + A.len .value i = A.value (walk ts.size valueRound i) := by
  have he := A.len_of_sole (r := .value) (u := ()) wm rfl (A.lt_of_len h) rfl
  have hv : A.value (valueLength ts i) = A.value (walk ts.size valueRound i) - i :=
    A.value_bind _ _
  omega

theorem valueNode_gives (wm : ts.WellMarked) (h : 0 < A.len .value i) :
    Gives A (valueNode ts) i (i + A.len .value i) := by
  rw [len_value wm h]
  have hlt : i < A.value (walk ts.size valueRound i) := by
    have := len_value wm h
    omega
  refine GivesAll.branch (k := .value) (givesAll_collect fun j hj E lo hc => ?_) ⟨rfl, rfl⟩ hlt
  refine runs_look.2 ⟨⟨_, lengthOf_top .spacing j⟩, runs_askAhead.2 ?_⟩
  rw [value_valueRound, A.value_lengthOf]
  cases ht : A.tell .valuePart (j + A.len .spacing j) with
  | none => exact ⟨rfl, .nil, iff_of_false Bool.false_ne_true fun h => Nat.lt_irrefl j h.1⟩
  | some m =>
    refine (spacingNodes_gives wm A j).then hc fun before hbefore hc => ?_
    refine (valuePartNode_gives wm ht).then hc fun part hpart _ => ?_
    have hpos := m.length_pos
    refine ⟨Nat.add_assoc j _ _, hbefore.append hpart.single, ?_⟩
    exact (and_iff_right (by omega)).symm

/-! ## Declarations -/

theorem propertyNode_gives (wm : ts.WellMarked) (h : 0 < A.value (propertyLength i)) :
    Gives A (propertyNode ts) i (i + A.value (propertyLength i)) := by
  refine GivesAll.branch (k := .property) ?_ ⟨rfl, rfl⟩ (by omega)
  rw [propertyLength, A.value_orElse, A.value_lengthOf, A.value_lengthOf] at h ⊢
  refine (gives_choose_starts (fun hv => ?_) (fun hz => ?_)).single
  · rw [if_neg (by omega)]
    exact varNode_gives wm hv
  · rw [if_pos hz] at h ⊢
    exact identNode_gives wm h

/-- The tokens behind the property of a declaration, behind the spacing there, and behind the
spacing behind the colon. -/
theorem declaration_cases (wm : ts.WellMarked) (h : 0 < A.len .declaration i) :
    ∃ p a b, 0 < A.value (propertyLength i) ∧ p = i + A.value (propertyLength i) ∧
      a = p + A.len .spacing p ∧ ts.is a .colon = true ∧ b = a + 1 + A.len .spacing (a + 1) ∧
      0 < A.len .value b ∧ i + A.len .declaration i = b + A.len .value b := by
  have he := A.len_of_sole (r := .declaration) (u := ()) wm rfl (A.lt_of_len h) rfl
  unfold declarationLength at he
  rw [A.value_bind] at he
  split at he
  · rw [A.value_pure] at he
    omega
  · next hp =>
    rw [A.value_bind, A.value_lengthOf] at he
    dsimp only at he
    split at he
    · next hcolon =>
      rw [A.value_bind, A.value_lengthOf, A.value_bind, A.value_lengthOf, A.value_through] at he
      split at he
      · omega
      · exact ⟨_, _, _, Nat.pos_of_ne_zero hp, rfl, rfl, hcolon, rfl, by omega, by omega⟩
    · rw [A.value_pure] at he
      omega

theorem declarationNode_gives (wm : ts.WellMarked) (h : 0 < A.len .declaration i) :
    Gives A (declarationNode ts) i (i + A.len .declaration i) := by
  obtain ⟨p, a, b, hpos, rfl, rfl, hcolon, rfl, hval, hlen⟩ := declaration_cases wm h
  refine GivesAll.branch (k := .declaration) ?_ ⟨rfl, rfl⟩ (by omega)
  rw [hlen]
  intro E lo hc
  refine (propertyNode_gives wm hpos).then hc fun prop hprop hc => ?_
  refine (spacingNodes_gives wm A _).then hc fun before hbefore hc => ?_
  refine (gives_mark (k := .propertyDelimiter) ⟨rfl, rfl⟩ hcolon rfl).then hc fun d hd hc => ?_
  refine (spacingNodes_gives wm A _).then hc fun after hafter hc => ?_
  refine (valueNode_gives wm hval).then hc fun value hvalue _ => ?_
  exact ⟨rfl, (((hprop.single.append hbefore).append hd.single).append hafter).append hvalue.single⟩

/-! ## Argument lists -/

theorem argumentNodes_gives (wm : ts.WellMarked) {m : Match Argument}
    (h : A.tell .argument i = some m) : GivesAll A (argumentNodes ts m.shape) i (i + m.length) := by
  obtain ⟨a, ha, hs, hl, hpos⟩ := A.alternative wm rfl rfl h
  simp only [List.mem_cons, List.not_mem_nil, or_false] at ha
  rcases ha with rfl | rfl | rfl | rfl | rfl | rfl | rfl | rfl | rfl | rfl | rfl | rfl | rfl | rfl |
    rfl | rfl | rfl | rfl | rfl <;> rw [hl, hs]
  · exact (escapedStringNode_gives hpos).single
  · exact (declarationNode_gives wm hpos).single
  · exact (varListNode_gives wm hpos).single
  · exact (varNode_gives wm hpos).single
  · exact spacingNodes_gives wm A i
  · exact (gives_token (k := .unary) ⟨rfl, rfl⟩ hpos rfl).single
  · exact (gives_token (k := .operator) ⟨rfl, rfl⟩ hpos rfl).single
  · exact (gives_token (k := .delimiter) ⟨rfl, rfl⟩ hpos rfl).single
  · exact (gives_token (k := .declarationDelimiter) ⟨rfl, rfl⟩ hpos rfl).single
  · exact (gives_token (k := .string) ⟨rfl, rfl⟩ hpos rfl).single
  · exact (percentageNode_gives wm hpos).single
  · exact (dimensionNode_gives wm hpos).single
  · exact (numberNode_gives wm hpos).single
  · exact (uriNode_gives wm hpos).single
  · exact (functionNode_gives wm hpos).single
  · exact (identNode_gives wm hpos).single
  · exact (colorNode_gives hpos).single
  · exact (blockNode_gives wm hpos).single
  · exact (parenthesesNode_gives wm hpos).single

end LessCss
