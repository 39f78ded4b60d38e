import LessCss.Proofs.Head.Remakes

/-! Nodes of values at the head of a stream: spacing, names, literals, groups, values and
declarations. -/

namespace LessCss

open Lookahead Builder Grammar Tokens

variable {ts ts' : Tokens} {A : Reading ts false} {B : Reading ts' false} {s i j : Nat}

/-! ## Spacing -/

section
variable (h : ts.Head ts')
include h

theorem spaceNode_remade (i : Nat) : Remakes A B s (spaceNode ts) (spaceNode ts') i :=
  remakes_leafOf h _ (space_kept h i)

/-- A leaf of one token that is made of its text. -/
theorem remakes_textLeaf (kind : Node.Kind) (f : String → String) (i : Nat) :
    Remakes A B s
      (do let i ← cursor; skip 1; make (.leaf kind (f (ts.text i)) (ts.position i)))
      (do let i ← cursor; skip 1; make (.leaf kind (f (ts'.text i)) (ts'.position i))) i := by
  rintro _ _ _ ⟨⟩
  refine ⟨Nat.le_succ i, fun hk => ?_⟩
  change (_, _) = (_, _)
  rw [h.text_eq hk, h.position_eq (Nat.le_of_lt hk)]

theorem blockCommentNode_remade (i : Nat) :
    Remakes A B s (blockCommentNode ts) (blockCommentNode ts') i :=
  remakes_textLeaf h .blockComment (fun t => Text.dropBack "*/" (Text.dropFront "/*" t)) i

theorem lineCommentNode_remade (i : Nat) :
    Remakes A B s (lineCommentNode ts) (lineCommentNode ts') i :=
  remakes_textLeaf h .lineComment (Text.dropFront "//") i

theorem spacingChunk_remade (i : Nat) : RemakesRound A B s (spacingChunk ts (ts.kind? i))
    (spacingChunk ts' (ts'.kind? i)) i := by
  have hkind : i < ts.size → ts.kind? i = ts'.kind? i := fun hi => (h.kind?_eq hi).symm
  have hround : ∀ {x : Builder Chunk} {y y' : Builder Node} {j : Nat},
      (i < ts.size → x = do return ⟨[← y], true⟩) → Remakes A B s y y' i → EndsAt B s y' i j →
      i < j → RemakesRound A B s x (do return ⟨[← y'], true⟩) i := by
    intro x y y' j hx hy hend hij
    refine Remakes.round ?_ (hend.map _) hij
    rcases Nat.lt_or_ge i ts.size with hi | hi
    · rw [hx hi]
      exact hy.chunk
    · exact remakes_of_fits (hend.map _) (Nat.le_of_lt hij) fun hj => by omega
  cases hany : ts'.isAny i spacingKinds with
  | false =>
    have hnone : ts.isAny i spacingKinds = false := by rw [h.isAny_cut, hany, Bool.and_false]
    rw [spacingChunk_of_other hany, spacingChunk_of_other hnone]
    exact remakesRound_none
  | true =>
    rcases spacing_cases.1 hany with hb | hk | hk
    · have hpos := ((value_spaceLength (A := B) h.right.wm i).1 (blank_iff.2 hb)).1
      rw [spacingChunk_of_blank hb]
      refine hround (fun hi => ?_) (spaceNode_remade h i)
        ((spaceNode_gives h.right.wm hpos).endsAt h.right.wm) (by omega)
      exact spacingChunk_of_blank (by rw [← h.isAny_eq hi]; exact hb)
    · rw [hk]
      refine hround (fun hi => ?_) (blockCommentNode_remade h i)
        ((blockCommentNode_gives (is_iff.2 hk)).endsAt h.right.wm) (Nat.lt_succ_self i)
      rw [hkind hi, hk]
      rfl
    · rw [hk]
      refine hround (fun hi => ?_) (lineCommentNode_remade h i)
        ((lineCommentNode_gives (is_iff.2 hk)).endsAt h.right.wm) (Nat.lt_succ_self i)
      rw [hkind hi, hk]
      rfl

theorem spacingNodes_remade (i : Nat) : Remakes A B s (spacingNodes ts) (spacingNodes ts') i :=
  remakes_collect (I := fun _ => True) h (fun _ _ _ _ _ _ _ => trivial)
    (fun j _ => spacingChunk_remade h j) trivial

omit h in
theorem spacingNodes_endsAt (wm : ts'.WellMarked) (i : Nat) :
    EndsAt B s (spacingNodes ts') i (i + B.len .spacing i) := (spacingNodes_gives wm B i).endsAt wm

/-! ## Names -/

theorem identNode_remade (i : Nat) : Remakes A B s (identNode ts) (identNode ts') i := by
  have hleaf : Remakes A B s (leaf ts .ident (A.len .ident i)) (leaf ts' .ident (B.len .ident i)) i :=
    remakes_leaf h .ident (ident_keeps h i).len
  exact hleaf

theorem interpolationNode_remade (i : Nat) :
    Remakes A B s (interpolationNode ts) (interpolationNode ts') i :=
  Remakes.branch h .interpolation <| remakes_skip <|
    (identNode_remade h _).then fun n _ => remakes_skip (remakes_pure [n])

theorem atKeywordNode_remade (i : Nat) :
    Remakes A B s (atKeywordNode ts) (atKeywordNode ts') i :=
  Remakes.branch h .atKeyword (remakes_skip (identNode_remade h _).single)

theorem nameNode_remade (form : Name) (i : Nat) :
    Remakes A B s (nameNode ts form) (nameNode ts' form) i := by
  cases form with
  | interpolation => exact interpolationNode_remade h i
  | ident => exact identNode_remade h i

theorem anyNameNode_remade (i : Nat) : Remakes A B s (anyNameNode ts) (anyNameNode ts') i :=
  remakes_choose_starts (interpolation_keeps h i).len
    (fun hpos => (interpolationNode_gives h.right.wm hpos).endsAt h.right.wm)
    (fun _ => interpolationNode_remade h i) fun _ => identNode_remade h i

theorem classNode_remade (hpos : 0 < B.len .classSelector i) :
    Remakes A B s (classNode ts) (classNode ts') i :=
  Remakes.branch h .classSelector <|
    remakes_ask (classSelector_keeps h i)
      ((classNode_gives h.right.wm hpos).endsAt h.right.wm).content
      (remakes_skip (nameNode_remade h _ _).single)

theorem idNode_remade (hpos : 0 < B.len .idSelector i) :
    Remakes A B s (idNode ts) (idNode ts') i :=
  Remakes.branch h .idSelector <|
    remakes_ask (idSelector_keeps h i)
      ((idNode_gives h.right.wm hpos).endsAt h.right.wm).content
      (remakes_skip (nameNode_remade h _ _).single)

theorem classOrIdNode_remade (hpos : 0 < B.value (classOrIdLength i)) :
    Remakes A B s (classOrIdNode ts) (classOrIdNode ts') i := by
  refine remakes_choose_starts (classSelector_keeps h i).len
    (fun hclass => (classNode_gives h.right.wm hclass).endsAt h.right.wm)
    (fun hclass => classNode_remade h hclass) fun hz => idNode_remade h ?_
  rwa [classOrIdLength, B.value_orElse, B.value_lengthOf, B.value_lengthOf, if_pos hz] at hpos

/-! ## Variables -/

/-- A variable's name may be given by another variable, and so on. -/
theorem varNode_remade (hpos : 0 < B.len .var i) : Remakes A B s (varNode ts) (varNode ts') i := by
  generalize hn : ts'.size - i = n
  induction n using Nat.strongRecOn generalizing i s with
  | ind n ih =>
    have hlt := B.lt_of_len hpos
    refine Remakes.branch h .var (remakes_skip ?_)
    refine remakes_choose_starts (var_keeps h _).len
      (fun hvar => enter_endsAt h.right.wm (show Interior.var.Ready B _ from hvar) fun _ hk => hk) (fun hvar => ?_)
      fun _ => (identNode_remade h _).single
    refine remakes_enter fun x _ hx => ?_
    have hready : Interior.var.Ready B (i + 1) := hvar
    have hret := (Interior.meaning_eq_ok_iff h.right.wm hready).1 hx
    obtain ⟨hle, hA⟩ := (ih (ts'.size - (i + 1)) (by omega) hvar rfl).single (s := i + 1)
      (Nat.le_refl _) x.1 x.2 hret
    exact ⟨hle, fun hk => Plan.Returns.meaning h.left.wm (hA hk)⟩

theorem varListNode_remade (hpos : 0 < B.value (varListLength ts' i)) :
    Remakes A B s (varListNode ts) (varListNode ts') i :=
  Remakes.branch h .varList <| (varNode_remade h (varList_cases hpos).1).then fun name _ =>
    remakes_skip (remakes_pure [name])

/-! ## Literals -/

theorem numberNode_remade (i : Nat) : Remakes A B s (numberNode ts) (numberNode ts') i :=
  remakes_leafOf h .number (number_keeps h i).len

theorem dimensionNode_remade (i : Nat) :
    Remakes A B s (dimensionNode ts) (dimensionNode ts') i := by
  refine Remakes.branch h .dimension <| (numberNode_remade h i).then fun number l =>
    remakes_cursor ?_
  exact (remakes_leaf h .ident (unitLength_kept h l)).then fun unit _ =>
    remakes_pure [number, unit]

theorem percentageNode_remade (i : Nat) :
    Remakes A B s (percentageNode ts) (percentageNode ts') i :=
  Remakes.branch h .percentage <| (numberNode_remade h i).then fun n _ =>
    remakes_skip (remakes_pure [n])

theorem escapedStringNode_remade (i : Nat) :
    Remakes A B s (escapedStringNode ts) (escapedStringNode ts') i := by
  rintro _ _ _ ⟨⟩
  refine ⟨Nat.le_add_right i 2, fun hk => ?_⟩
  change (_, _) = (_, _)
  rw [h.text_eq hk, h.position_eq (Nat.le_trans (Nat.le_add_right i 2) hk)]

theorem importantNode_remade (i : Nat) : Remakes A B s (importantNode ts) (importantNode ts') i :=
  remakes_leafOf h .important (important_keeps h i).len

theorem colorNode_remade (i : Nat) : Remakes A B s (colorNode ts) (colorNode ts') i := by
  rintro _ _ _ ⟨⟩
  have hle : ∀ n, i ≤ i + (n + 1) := fun n => Nat.le_add_right i _
  refine ⟨hle _, fun hk => ?_⟩
  change i + (unitLength ts' (i + 1) + 1) ≤ ts.size at hk
  have hunit : unitLength ts (i + 1) = unitLength ts' (i + 1) :=
    unitLength_kept h (i + 1) (by omega)
  change (_, _) = (_, _)
  rw [hunit, h.join_eq (Nat.le_add_right (i + 1) _) (by omega),
    h.position_eq (Nat.le_trans (hle _) hk)]

/-! ## Verbatim texts -/

theorem rawEnd_eq {close : Nat} (hc : close ≤ ts.size) (j : Nat) :
    rawEnd ts close j = rawEnd ts' close j := by
  fun_induction rawEnd ts close j with
  | case1 j hlt hany => rw [rawEnd, if_pos hlt, h.isAny_eq (by omega), if_pos hany]
  | case2 j hlt hany ih =>
    rw [ih, eq_comm, rawEnd, if_pos hlt, h.isAny_eq (by omega), if_neg hany]
  | case3 j hge => rw [rawEnd, if_neg hge]

theorem rawNode_remade {close : Nat} (hc : close ≤ ts.size) (i : Nat) :
    Remakes A B s (rawNode ts close) (rawNode ts' close) i := by
  rintro _ _ _ ⟨⟩
  have hle : i ≤ rawEnd ts' close i := rawEnd_le close i
  refine ⟨hle, fun hk => ?_⟩
  change (_, _) = (_, _)
  rw [rawEnd_eq h hc, h.join_eq hle hk, h.position_eq (Nat.le_trans hle hk)]

theorem stringNode_remade (i : Nat) : Remakes A B s (stringNode ts) (stringNode ts') i :=
  remakes_mark h .string i

theorem uriNode_remade (hpos : 0 < B.value (uriLength ts' i)) :
    Remakes A B s (uriNode ts) (uriNode ts') i := by
  have hend := (uriNode_gives h.right.wm hpos).endsAt (s := s) h.right.wm
  refine remakes_of_fits hend (Nat.le_add_right _ _) fun hle => ?_
  have hclose : A.value (lastToken (uriLength ts) i) = B.value (lastToken (uriLength ts') i) := by
    rw [value_lastToken, value_lastToken, uri_kept h i hle]
  refine Remakes.branch h .uri (remakes_look hclose ?_)
  have hc : B.value (lastToken (uriLength ts') i) ≤ ts.size := by
    rw [value_lastToken]
    omega
  generalize B.value (lastToken (uriLength ts') i) = close at hc
  refine remakes_skip ((spacingNodes_remade h _).then fun before _ => ?_)
  refine Remakes.then ?_ fun body _ => (spacingNodes_remade h _).then fun after _ =>
    remakes_expectAt fun _ => remakes_skip (remakes_pure (before ++ [body] ++ after))
  refine remakes_choose_sees (token_kept h _ _) (fun hs => ?_) (fun _ => stringNode_remade h _)
    fun _ => rawNode_remade h hc _
  exact (gives_token (k := .string) ⟨rfl, rfl⟩ hs rfl).endsAt h.right.wm

theorem expressionNode_remade (hpos : 0 < B.value (expressionLength ts' i)) :
    Remakes A B s (expressionNode ts) (expressionNode ts') i := by
  have hend := (expressionNode_gives h.right.wm hpos).endsAt (s := s) h.right.wm
  refine remakes_of_fits hend (Nat.le_add_right _ _) fun hle => ?_
  have hclose : A.value (lastToken (expressionLength ts) i) =
      B.value (lastToken (expressionLength ts') i) := by
    rw [value_lastToken, value_lastToken, expression_kept h i hle]
  have hc : i + 2 ≤ B.value (lastToken (expressionLength ts') i) := by
    rw [value_lastToken]
    unfold expressionLength at hpos ⊢
    split at hpos
    · next he =>
      obtain ⟨c, _, hlen, hlt, _⟩ := throughCloser_cases h.right.wm hpos
      rw [if_pos he, hlen]
      omega
    · cases hpos
  refine remakes_cursor (remakes_look hclose ?_)
  generalize B.value (lastToken (expressionLength ts') i) = close at hc
  rintro _ _ _ ⟨⟩
  refine ⟨Nat.le_trans (Nat.le_add_right i 2) (Nat.le_succ_of_le hc), fun hk => ?_⟩
  change (_, _) = (_, _)
  rw [h.join_eq hc (Nat.le_of_lt hk), h.position_eq (Nat.le_trans (Nat.le_add_right i 2)
    (Nat.le_trans hc (Nat.le_of_lt hk)))]

theorem progidNode_remade (i : Nat) : Remakes A B s (progidNode ts) (progidNode ts') i :=
  remakes_leafOf h .progid (progid_keeps h i).len

end

/-! ## Insides -/

/-- Insides that end before a closer of the shorter stream are built there as in the longer one, if
they start behind token `s`. -/
def Reading.KeepsInsides (B : Reading ts' false) (ts : Tokens) (s : Nat) : Prop :=
  ∀ (part : Interior) (i : Nat) (x : List Node × Nat), s < i → part.Ready B i → ts.Inside ts' i →
    part.meaning ts' i = .ok x → part.meaning ts i = .ok x

/-- What is built up to a closer of the shorter stream is built inside. -/
theorem inside_of_meaning (h : ts.Head ts') {k : Token.Kind} (hk : k.opens?.isSome = true) {o c : Nat}
    (hc : ts'.closer? o k = some c) (hlt : c < ts.size) {part : Interior} {ns : List Node}
    (hready : part.Ready B i) (hx : part.meaning ts' i = .ok (ns, c)) : ts.Inside ts' i := by
  obtain ⟨l, hl, his⟩ := h.right.linked.closes_closer hk hc
  exact ⟨c, l, hl, by rwa [← h.is_eq hlt], Interior.meaning_path h.right hready hx⟩

section
variable {k : Token.Kind} {c : Nat} {part : Nat → Interior}

theorem remakes_enclosed {closer? closer?' : Nat → Option Nat} {inner : Nat → Builder (List Node)}
    (hc' : closer?' i = some c) (hc : c < ts.size → closer? i = some c) (hic : i < c)
    (hinner : c < ts.size → Remakes A B s (inner c) (inner c) (i + 1))
    (hend : EndsAt B s (inner c) (i + 1) c) :
    Remakes A B s (enclosed closer? inner) (enclosed closer?' inner) i := by
  intro hs ns k hret
  obtain ⟨j, hj, rfl⟩ := (returns_enclosed hc').1 hret
  obtain rfl := hend (Nat.le_succ_of_le hs) ns j hj
  refine ⟨by omega, fun hlt => (returns_enclosed (hc hlt)).2 ⟨j, ?_, rfl⟩⟩
  exact ((hinner hlt) (Nat.le_succ_of_le hs) ns j hj).2 (Nat.le_of_lt hlt)

theorem filling_endsAt : EndsAt B s (filling part c) i c :=
  fun _ _ _ hret => (returns_filling.1 hret).1

/-- Without a closer nothing is built. -/
theorem remakes_enclosed_none {closer? closer?' : Nat → Option Nat}
    {inner inner' : Nat → Builder (List Node)} (hc : closer?' i = none) :
    Remakes A B s (enclosed closer? inner) (enclosed closer?' inner') i := by
  intro _ ns k hret
  rw [enclosed, returns_cursor, hc] at hret
  exact hret.elim

variable (h : ts.Head ts') (hin : B.KeepsInsides ts s)
include h hin

/-- An inside that has to fill its brackets. -/
theorem filling_remade (hk : k.opens?.isSome = true) (hc : ts'.closer? j k = some c)
    (hlt : c < ts.size) (hready : (part c).Ready B i) :
    Remakes A B s (filling part c) (filling part c) i := by
  intro _ ns l hret
  obtain ⟨rfl, hi, hx⟩ := returns_filling.1 hret
  have hinside := inside_of_meaning h hk hc hlt hready hx
  exact ⟨(Interior.meaning_path h.right hready hx).le, fun _ => returns_filling.2
    ⟨rfl, ⟨hi.1, Nat.le_of_lt hinside.lt⟩, hin _ _ _ hi.1 hready hinside hx⟩⟩

/-- An inside that fills its brackets, as the lookahead has found. -/
theorem enter_remade (hk : k.opens?.isSome = true) (hc : ts'.closer? j k = some c)
    (hlt : c < ts.size) (hready : (part c).Ready B i)
    (hends : ∀ l, (part c).Ends B i l → l = c) :
    Remakes A B s (enter (part c)) (enter (part c)) i := by
  refine remakes_enter fun x hi hx => ?_
  obtain ⟨ns, l⟩ := x
  obtain rfl : l = c := hends l ((meaning_formed h.right.wm
    (Parser.tell_eq_meanings h.right.wm B) _ _ _ hx).filled hready).2
  have hinside := inside_of_meaning h hk hc hlt hready hx
  exact ⟨(Interior.meaning_path h.right hready hx).le, fun _ => hin _ _ _ hi hready hinside hx⟩

end

/-! ## Groups -/

section
variable (h : ts.Head ts') (hin : B.KeepsInsides ts s)
include h hin

theorem groupNode_remade {k : Token.Kind} {c : Nat} (kind : Node.Kind) (hk : k.opens?.isSome = true)
    (hc : ts'.closer? i k = some c) : Remakes A B s (groupNode ts kind) (groupNode ts' kind) i := by
  refine Remakes.branch h kind (remakes_enclosed (closer_of_closer? hc)
    (fun hlt => closer_of_closer? ((h.closer?_iff hk).2 ⟨hc, hlt⟩)) (h.right.wm.closer_lt hc).1
    (fun hlt => filling_remade h hin hk hc hlt ⟨i, k, c, rfl, hk, hc⟩) filling_endsAt)

theorem parenthesesNode_remade (hpos : 0 < B.value (parenthesesLength ts' i)) :
    Remakes A B s (parenthesesNode ts) (parenthesesNode ts') i := by
  obtain ⟨c, hc, _⟩ := throughCloser_cases h.right.wm hpos
  exact groupNode_remade h hin .parentheses rfl hc

theorem bracketsNode_remade (hpos : 0 < B.value (bracketsLength ts' i)) :
    Remakes A B s (bracketsNode ts) (bracketsNode ts') i := by
  obtain ⟨c, hc, _⟩ := throughCloser_cases h.right.wm hpos
  exact groupNode_remade h hin .brackets rfl hc

/-- A branch of brackets of one kind. -/
theorem bracketed_remade (kind : Node.Kind) {k : Token.Kind} (hk : k.opens?.isSome = true)
    {part : Nat → Interior} (i : Nat)
    (hready : ∀ c, ts'.closer? i k = some c → (part c).Ready B (i + 1)) :
    Remakes A B s (branch ts kind (enclosed (ts.closer? · k) (filling part)))
      (branch ts' kind (enclosed (ts'.closer? · k) (filling part))) i := by
  refine Remakes.branch h kind ?_
  cases hc : ts'.closer? i k with
  | none => exact remakes_enclosed_none hc
  | some c =>
    exact remakes_enclosed hc (fun hlt => (h.closer?_iff hk).2 ⟨hc, hlt⟩)
      (h.right.wm.closer_lt hc).1 (fun hlt => filling_remade h hin hk hc hlt (hready c hc))
      filling_endsAt

theorem argumentsNode_remade (i : Nat) :
    Remakes A B s (argumentsNode ts) (argumentsNode ts') i :=
  bracketed_remade h hin .arguments rfl i fun c hc => ⟨i, .leftParen, c, rfl, rfl, hc⟩

theorem blockNode_remade (i : Nat) : Remakes A B s (blockNode ts) (blockNode ts') i :=
  bracketed_remade h hin .block rfl i fun c hc => ⟨i, .leftCurly, c, rfl, rfl, hc⟩

/-! ## Values -/

theorem functionNode_remade (i : Nat) :
    Remakes A B s (functionNode ts) (functionNode ts') i :=
  Remakes.branch h .function <| (identNode_remade h i).then fun name _ =>
    (argumentsNode_remade h hin _).then fun arguments _ => remakes_pure [name, arguments]

theorem fragmentNode_remade (hdots : B.DotsEnd ts i) (hpos : 0 < B.len .fragment i) :
    Remakes A B s (fragmentNode ts) (fragmentNode ts') i := by
  refine remakes_ask (fragment_keeps h hdots)
    ((fragmentNode_gives h.right.wm hpos).endsAt h.right.wm) ?_
  obtain ⟨m, ht, _⟩ := B.exists_of_len hpos
  obtain ⟨a, ha, hs, _, hlead⟩ := B.alternative h.right.wm rfl rfl ht
  rw [ht]
  simp only [List.mem_cons, List.not_mem_nil, or_false] at ha
  simp only [Answer.shape?, Option.map_some]
  rcases ha with rfl | rfl | rfl | rfl | rfl | rfl | rfl | rfl | rfl | rfl | rfl | rfl | rfl
    | rfl <;> rw [hs]
  · exact bracketsNode_remade h hin hlead
  · exact parenthesesNode_remade h hin hlead
  · exact stringNode_remade h i
  · exact varListNode_remade h hlead
  · exact varNode_remade h hlead
  · exact percentageNode_remade h i
  · exact dimensionNode_remade h i
  · exact numberNode_remade h i
  · exact uriNode_remade h hlead
  · exact expressionNode_remade h hlead
  · exact functionNode_remade h hin i
  · exact identNode_remade h i
  · exact classNode_remade h hlead
  · exact remakes_mark h .unary i

theorem preludePartNodes_remade (hdots : B.DotsEnd ts i) {m : Match PreludePart}
    (ht : B.tell .preludePart i = some m) :
    Remakes A B s (preludePartNodes ts m.shape) (preludePartNodes ts' m.shape) i := by
  obtain ⟨a, ha, hs, _, hlead⟩ := B.alternative h.right.wm rfl rfl ht
  simp only [List.mem_cons, List.not_mem_nil, or_false] at ha
  rcases ha with rfl | rfl | rfl | rfl <;> rw [hs]
  · exact (colorNode_remade h i).single
  · exact (fragmentNode_remade h hin hdots hlead).single
  · exact spacingNodes_remade h i
  · exact (remakes_mark h .operator i).single

omit hin in
theorem preludeRound_endsAt (j : Nat) : EndsAt B s (do
    match (← ask .preludePart).shape? with
    | some part => return ⟨← preludePartNodes ts' part, true⟩
    | none => return ⟨[], false⟩ : Builder Chunk) j (j + B.len .preludePart j) := by
  intro hs c l hret
  rw [returns_ask] at hret
  rw [Reading.len]
  cases ht : B.tell .preludePart j with
  | none =>
    rw [ht] at hret
    exact (Prod.mk.inj hret).2.symm
  | some m =>
    rw [ht] at hret
    exact ((preludePartNodes_gives h.right.wm ht).endsAt h.right.wm).map _ hs c l hret

/-- A head of an at-rule, or the inside of a group. -/
theorem preludeNodes_remade {e : Nat} (he : B.value (preludeEnd ts' i) = e)
    (hdots : ∀ j, ts'.Path i j → B.value (preludeEnd ts' j) = e → B.DotsEnd ts j) :
    Remakes A B s (preludeNodes ts) (preludeNodes ts') i := by
  refine remakes_collect (I := fun j => ts'.Path i j ∧ B.value (preludeEnd ts' j) = e) h
    (fun j c l hj hs hlt hret => ?_) (fun j hj => ⟨?_, fun hs c hret => ?_⟩) ⟨path_self ts' i, he⟩
  · obtain rfl := preludeRound_endsAt h j hs c l hret
    refine ⟨hj.1.trans (preludePart_path h.right j), ?_⟩
    have hwalk := hj.2
    rw [preludeEnd, value_walkWhile, B.value_lengthOf] at hwalk
    split at hwalk
    · exact hwalk
    · next hno =>
      rw [Nat.eq_zero_of_not_pos fun hpos => hno ⟨hlt, hpos⟩, Nat.add_zero]
      exact hj.2
  · have hdotsj := hdots j hj.1 hj.2
    refine remakes_ask (preludePart_keeps h hdotsj) (preludeRound_endsAt h j) ?_
    cases ht : B.tell .preludePart j with
    | none => exact remakes_pure _
    | some m =>
      exact (preludePartNodes_remade h hin hdotsj ht).then fun ns _ =>
        remakes_pure (⟨ns, true⟩ : Chunk)
  · have hend := preludeRound_endsAt h j hs c j hret
    rw [returns_ask, B.tell_eq_none (by omega)] at hret
    exact congrArg Chunk.nodes (Prod.mk.inj hret).1.symm

omit h hin in
/-- A variable is not told to be a fragment. -/
theorem len_var_of_fragment (wm : ts'.WellMarked) {m : Match ValuePart}
    (ht : B.tell .valuePart i = some m) (hs : m.shape = .fragment) : B.len .var i = 0 := by
  refine Nat.eq_zero_of_not_pos fun hvar => ?_
  have hbody := B.value_of_tell wm rfl ht
  change B.value (firstOf i _) = some m at hbody
  rw [B.value_firstOf_cons, B.value_firstOf_cons, B.value_firstOf_cons, B.value_lengthOf .var,
    Match.of?_pos hvar, Option.some_or] at hbody
  have hshape : m.shape = .escapedString ∨ m.shape = .interpolation ∨ m.shape = .var := by
    rcases Option.or_eq_some_iff.1 hbody with he | ⟨_, hbody⟩
    · exact Or.inl (of?_eq_some he).1
    · rcases Option.or_eq_some_iff.1 hbody with he | ⟨_, he⟩
      · exact Or.inr (Or.inl (of?_eq_some he).1)
      · exact Or.inr (Or.inr (congrArg Match.shape (Option.some.inj he)).symm)
  rw [hs] at hshape
  exact absurd hshape (by decide)

theorem valuePartNode_remade {m : Match ValuePart} (ht : B.tell .valuePart i = some m) :
    Remakes A B s (valuePartNode ts m.shape) (valuePartNode ts' m.shape) i := by
  obtain ⟨a, ha, hs, _, hlead⟩ := B.alternative h.right.wm rfl rfl ht
  simp only [List.mem_cons, List.not_mem_nil, or_false] at ha
  rcases ha with rfl | rfl | rfl | rfl | rfl | rfl | rfl | rfl | rfl | rfl <;> rw [hs]
  · exact escapedStringNode_remade h i
  · exact interpolationNode_remade h i
  · exact varNode_remade h hlead
  · exact colorNode_remade h i
  · exact blockNode_remade h hin i
  · exact progidNode_remade h i
  · have hvar := len_var_of_fragment h.right.wm ht hs
    exact fragmentNode_remade h hin (fun hpos => absurd hvar (Nat.ne_of_gt hpos)) hlead
  · exact atKeywordNode_remade h i
  · exact remakes_mark h .operator i
  · exact importantNode_remade h i

omit hin in
theorem valueRound_endsAt (j : Nat) : EndsAt B s (do
    match (← askAhead .valuePart (← look (lengthOf .spacing))).shape? with
    | some part =>
      let before ← spacingNodes ts'
      return ⟨before ++ [← valuePartNode ts' part], part != .block⟩
    | none => return ⟨[], false⟩ : Builder Chunk) j (j + (B.value (valueRound j)).length) := by
  rw [value_valueRound]
  rintro hs c l hret
  change ((match (B.tell .valuePart (j + B.len .spacing j)).shape? with
    | some part => do
      let before ← spacingNodes ts'
      return ⟨before ++ [← valuePartNode ts' part], part != .block⟩
    | none => return ⟨[], false⟩ : Builder Chunk) j).Returns B s (c, l) at hret
  cases ht : B.tell .valuePart (j + B.len .spacing j) with
  | none =>
    rw [ht] at hret
    exact (Prod.mk.inj hret).2.symm
  | some m =>
    rw [ht] at hret
    obtain ⟨⟨before, k⟩, hbefore, hret⟩ := Plan.returns_bind.1 hret
    obtain rfl := spacingNodes_endsAt h.right.wm j hs before k hbefore
    exact (((valuePartNode_gives h.right.wm ht).endsAt h.right.wm).map _
      (Nat.le_add_right_of_le hs) c l hret).trans (Nat.add_assoc j _ _)

theorem valueNode_remade (i : Nat) : Remakes A B s (valueNode ts) (valueNode ts') i := by
  refine Remakes.branch h .value (remakes_collect (I := fun _ => True) h
    (fun _ _ _ _ _ _ _ => trivial) (fun j _ => ⟨?_, fun hs c hret => ?_⟩) trivial)
  · refine remakes_ahead_of (fun c k hs hret hk => ?_) ?_
    · obtain rfl := valueRound_endsAt h j hs c k hret
      exact valuePart_after_spacing h (Nat.le_trans (Nat.le_add_right j _) hk) hk
    · rw [B.value_lengthOf]
      cases ht : B.tell .valuePart (j + B.len .spacing j) with
      | none => exact remakes_pure (⟨[], false⟩ : Chunk)
      | some m =>
        refine (spacingNodes_remade h j).thenAt (spacingNodes_endsAt h.right.wm j) fun before => ?_
        exact (valuePartNode_remade h hin ht).then fun part _ =>
          remakes_pure (⟨before ++ [part], m.shape != .block⟩ : Chunk)
  · have hend := valueRound_endsAt h j hs c j hret
    have hz : B.len .valuePart (j + B.len .spacing j) = 0 := by
      rw [length_valueRound] at hend
      split at hend
      · assumption
      · omega
    change ((match (B.tell .valuePart (j + B.len .spacing j)).shape? with
      | some part => do
        let before ← spacingNodes ts'
        return ⟨before ++ [← valuePartNode ts' part], part != .block⟩
      | none => return ⟨[], false⟩ : Builder Chunk) j).Returns B s (c, j) at hret
    rw [B.tell_eq_none hz] at hret
    exact congrArg Chunk.nodes (Prod.mk.inj hret).1.symm

/-! ## Declarations and arguments -/

omit hin in
theorem propertyNode_remade (i : Nat) :
    Remakes A B s (propertyNode ts) (propertyNode ts') i :=
  Remakes.branch h .property (remakes_choose_starts (var_keeps h i).len
    (fun hvar => (varNode_gives h.right.wm hvar).endsAt h.right.wm)
    (fun hvar => varNode_remade h hvar) fun _ => identNode_remade h i).single

theorem declarationNode_remade (i : Nat) :
    Remakes A B s (declarationNode ts) (declarationNode ts') i := by
  refine Remakes.branch h .declaration ((propertyNode_remade h i).then fun property _ => ?_)
  refine (spacingNodes_remade h _).then fun before _ => ?_
  refine (remakes_mark h .propertyDelimiter _).then fun delimiter _ => ?_
  refine (spacingNodes_remade h _).then fun after _ => ?_
  exact (valueNode_remade h hin _).then fun value _ =>
    remakes_pure ([property] ++ before ++ [delimiter] ++ after ++ [value])

theorem argumentNodes_remade {m : Match Argument} (ht : B.tell .argument i = some m) :
    Remakes A B s (argumentNodes ts m.shape) (argumentNodes ts' m.shape) i := by
  obtain ⟨a, ha, hs, _, hlead⟩ := B.alternative h.right.wm rfl rfl ht
  simp only [List.mem_cons, List.not_mem_nil, or_false] at ha
  rcases ha with rfl | rfl | rfl | rfl | rfl | rfl | rfl | rfl | rfl | rfl | rfl | rfl | rfl | rfl |
    rfl | rfl | rfl | rfl | rfl <;> rw [hs]
  · exact (escapedStringNode_remade h i).single
  · exact (declarationNode_remade h hin i).single
  · exact (varListNode_remade h hlead).single
  · exact (varNode_remade h hlead).single
  · exact spacingNodes_remade h i
  · exact (remakes_mark h .unary i).single
  · exact (remakes_mark h .operator i).single
  · exact (remakes_mark h .delimiter i).single
  · exact (remakes_mark h .declarationDelimiter i).single
  · exact (stringNode_remade h i).single
  · exact (percentageNode_remade h i).single
  · exact (dimensionNode_remade h i).single
  · exact (numberNode_remade h i).single
  · exact (uriNode_remade h hlead).single
  · exact (functionNode_remade h hin i).single
  · exact (identNode_remade h i).single
  · exact (colorNode_remade h i).single
  · exact (blockNode_remade h hin i).single
  · exact (parenthesesNode_remade h hin hlead).single

/-- The inside of an argument list. -/
theorem argumentsInterior_remade (close : Nat) (hi : ts.Inside ts' i) :
    Remakes A B s (argumentsInterior ts close) (argumentsInterior ts' close) i := by
  refine remakes_collectTo (I := fun j => ts.Inside ts' j)
    (fun j front l hj hs _ hret => hj.next h (argumentRound_path h.right hs hret).2)
    (fun j hj _ => ?_) hi
  refine remakes_choose_starts (declaration_keeps h j).len
    (fun hpos => (declarationNode_gives h.right.wm hpos).single.endsAt h.right.wm)
    (fun _ => (declarationNode_remade h hin j).single) fun _ => remakes_tell (hj.argument h) ?_
  cases ht : B.tell .argument j with
  | some m => exact argumentNodes_remade h hin ht
  | none =>
    exact remakes_choose_starts (classSelector_keeps h j).len
      (fun hpos => (classNode_gives h.right.wm hpos).single.endsAt h.right.wm)
      (fun hpos => (classNode_remade h hpos).single) fun _ => remakes_unexpected

end

end LessCss
