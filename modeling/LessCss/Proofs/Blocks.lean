import LessCss.Proofs.Returns

/-! Blocks as flat loops. A block is read in stretches: spacing, a statement or a semicolon, and the
spacing behind it, where a semicolon behind a statement counts to the stretch only if spacing
follows. The stretches are measured ahead and then built by their form. What comes out is what a
plain loop makes that takes spacing, one statement or one semicolon at a time, and that has to end
at the closer. -/

namespace LessCss

open Lookahead Builder Grammar Tokens

/-! ## How statements start -/

section
variable {ts : Tokens} {capped : Bool} {A : Reading ts capped} {i : Nat}

/-- The kinds with which a statement of a block starts. -/
def itemHeads : List Token.Kind :=
  nameHeads ++ partHeads ++ [.bar, .plus, .greater, .tilde, .slash, .atSign]

theorem not_is_of_isAny {k : Token.Kind} {ks : List Token.Kind} (h : ts.isAny i ks = true)
    (hk : k ∉ ks) : ts.is i k = false := by
  rw [Bool.eq_false_iff]
  intro hi
  obtain ⟨l, hl, he⟩ := isAny_iff.1 h
  cases he.symm.trans (is_iff.1 hi)
  exact hk hl

theorem selector_head (wm : ts.WellMarked) (h : 0 < A.len .selector i) :
    ts.isAny i itemHeads = true := by
  have hstart : 0 < A.len .compound i ∨ 0 < A.len .combinator i := by
    obtain ⟨m, ht, _⟩ := A.exists_of_len h
    have hbody := A.value_of_tell wm rfl ht
    unfold Rule.body selectorMatch at hbody
    rw [A.value_bind, A.value_lengthOf] at hbody
    split at hbody
    · rw [A.value_bind, A.value_lengthOf] at hbody
      split at hbody
      · cases hbody
      · next hn => exact Or.inr (Nat.pos_of_ne_zero hn)
    · next hn => exact Or.inl (Nat.pos_of_ne_zero hn)
  rcases hstart with hstart | hstart
  · rcases compound_head wm hstart with hh | ⟨hh, _⟩
    · exact isAny_of_isAny hh fun k hk => List.mem_append_left _ hk
    · exact isAny_of_is hh (by decide)
  · rcases combinator_head wm hstart with hh | ⟨hh, _⟩
    · exact isAny_of_isAny hh (by decide)
    · exact isAny_of_is hh (by decide)

theorem property_head (wm : ts.WellMarked) (h : 0 < A.value (propertyLength i)) :
    ts.isAny i (.atSign :: nameHeads) = true := by
  rw [propertyLength, A.value_orElse, A.value_lengthOf, A.value_lengthOf] at h
  split at h
  · exact isAny_of_isAny (ident_head wm h) fun k hk => List.mem_cons_of_mem _ hk
  · exact isAny_of_is (var_cases wm h).1 (by decide)

theorem marked_head (wm : ts.WellMarked) {r : Rule} (hr : r = .classSelector ∨ r = .idSelector)
    (h : 0 < A.len r i) : ts.isAny i partHeads = true := by
  obtain ⟨m, ht, _⟩ := A.exists_of_len h
  rcases hr with rfl | rfl
  · have hbody := A.value_of_tell wm rfl ht
    exact isAny_of_is (markedName_cases hbody).1 (by decide)
  · have hbody := A.value_of_tell wm rfl ht
    exact isAny_of_is (markedName_cases hbody).1 (by decide)

theorem classOrId_head (wm : ts.WellMarked) (h : 0 < A.value (classOrIdLength i)) :
    ts.isAny i partHeads = true := by
  rw [classOrIdLength, A.value_orElse, A.value_lengthOf, A.value_lengthOf] at h
  split at h
  · exact marked_head wm (Or.inr rfl) h
  · exact marked_head wm (Or.inl rfl) h

theorem extend_head (wm : ts.WellMarked) (h : 0 < A.len .extend i) :
    ts.isAny i (nameHeads ++ partHeads) = true := by
  obtain ⟨m, ht, _⟩ := A.exists_of_len h
  have hbody := A.value_of_tell wm rfl ht
  obtain ⟨target, _, htarget, _⟩ := extend_cases hbody
  obtain ⟨a, ha, _, _, hpos⟩ := A.alternative wm rfl rfl htarget
  simp only [List.mem_cons, List.not_mem_nil, or_false] at ha
  rcases ha with rfl | rfl | rfl | rfl
  · exact isAny_of_is (parent_head hpos) (by decide)
  · exact isAny_of_isAny (ident_head wm hpos) fun k hk => List.mem_append_left _ hk
  · exact isAny_of_isAny (marked_head wm (Or.inl rfl) hpos) fun k hk => List.mem_append_right _ hk
  · exact isAny_of_isAny (marked_head wm (Or.inr rfl) hpos) fun k hk => List.mem_append_right _ hk

theorem atRule_head (wm : ts.WellMarked) (h : 0 < A.len .atRule i) : ts.is i .atSign = true := by
  obtain ⟨m, ht, hlen⟩ := A.exists_of_len h
  have hpos := m.length_pos
  obtain ⟨inner, hinner, hcases⟩ := atRule_cases wm ht
  rcases hcases with ⟨_, hl⟩ | ⟨_, hl⟩ | ⟨_, hl⟩ | ⟨_, hl⟩ <;> rw [hl] at hpos
  · obtain ⟨_, _, _, _, hkey, _⟩ := keyframesRule_cases hpos
    exact (atKeyword_cases hkey).1
  · obtain ⟨j, _, hhead, _⟩ := rulesRule_cases wm hinner hpos
    exact (atKeyword_cases (atRuleHead_cases hhead).1).1
  · obtain ⟨j, hhead, _⟩ := blockRule_cases hpos
    exact (atKeyword_cases (atRuleHead_cases hhead).1).1
  · obtain ⟨j, hhead, _⟩ := bareRule_cases hpos
    exact (atKeyword_cases (atRuleHead_cases hhead).1).1

/-- A statement starts with none of the marks that end one, and not with spacing. -/
theorem blockItem_head (wm : ts.WellMarked) (h : 0 < A.len .blockItem i) :
    ts.isAny i itemHeads = true := by
  obtain ⟨m, ht, _⟩ := A.exists_of_len h
  obtain ⟨a, ha, _, _, hpos⟩ := A.alternative wm rfl rfl ht
  have hnames : ∀ k ∈ nameHeads ++ partHeads, k ∈ itemHeads := fun k hk => List.mem_append_left _ hk
  simp only [List.mem_cons, List.not_mem_nil, or_false] at ha
  rcases ha with rfl | rfl | rfl | rfl | rfl | rfl
  · have hone := (condition_cases wm hpos).1
    exact isAny_of_isAny (ident_head (A := A) wm (by omega)) fun k hk =>
      hnames k (List.mem_append_left _ hk)
  · exact isAny_of_isAny (extend_head wm hpos) hnames
  · obtain ⟨hgroup, _⟩ := ruleset_cases wm hpos
    have he := A.len_of_sole (r := .selectorGroup) (u := ()) wm rfl (A.lt_of_len hgroup) rfl
    exact selector_head wm (commaList_cases (he ▸ hgroup)).1
  · obtain ⟨_, _, _, hprop, _⟩ := declaration_cases wm hpos
    exact isAny_of_isAny (property_head wm hprop) (by decide)
  · exact isAny_of_is (atRule_head wm hpos) (by decide)
  · obtain ⟨m, ht, _⟩ := A.exists_of_len hpos
    have hbody := A.value_of_tell wm rfl ht
    obtain ⟨_, hhead, _⟩ := mixinCall_cases hbody
    exact isAny_of_isAny (classOrId_head wm (callHead_cases hhead).1) fun k hk =>
      hnames k (List.mem_append_right _ hk)

end

/-! ## The flat loop -/

namespace Grammar

variable (ts : Tokens)

/-- One round of a plain loop over a block: spacing, or else a statement, or else a semicolon. -/
def flatRound : Builder (List Node) :=
  choose (starts .spacing) (spacingNodes ts) <|
    choose (starts .blockItem) (single (blockItemNode ts)) do
      if ts.is (← cursor) .semicolon then single (declarationDelimiterNode ts) else unexpected

/-- The inside of a block, read by a plain loop that has to end at the closer. -/
def flatInterior (close : Nat) : Builder (List Node) := do
  let nodes ← collectTo close (flatRound ts)
  expectAt close
  return nodes

/-- A block, read by a plain loop. -/
def flatBlockNode : Builder Node :=
  branch ts .block (enclosed (ts.closer? · .leftCurly) (flatInterior ts))

end Grammar

section
variable {ts : Tokens} {A : Reading ts false} {lo i j c : Nat} {ns : List Node}

theorem not_spacing_of_item (wm : ts.WellMarked) (h : 0 < A.len .blockItem i) :
    A.len .spacing i = 0 :=
  len_spacing_eq_zero wm (not_isAny_of_isAny (blockItem_head wm h) (by decide))

theorem nothing_at_semicolon (wm : ts.WellMarked) (h : ts.is i .semicolon = true) :
    A.len .spacing i = 0 ∧ A.len .blockItem i = 0 := by
  have hsemi := isAny_of_is h (List.mem_singleton_self _)
  refine ⟨len_spacing_eq_zero wm (not_isAny_of_isAny hsemi (by decide)), ?_⟩
  refine Nat.eq_zero_of_not_pos fun hp => ?_
  rw [not_isAny_of_isAny (blockItem_head wm hp) (l := [.semicolon]) (by decide)] at hsemi
  cases hsemi

theorem spacingNodes_returns_nil (wm : ts.WellMarked) (h : A.len .spacing i = 0) :
    (spacingNodes ts i).Returns A lo ([], i) := by
  refine returns_collectFrom_end fun _ => ?_
  rw [returns_cursor]
  have hno : ∀ k ∈ spacingKinds, ts.kind? i ≠ some k := by
    intro k hk he
    have hpos := (spacing_pos (A := A) wm).2 (isAny_iff.2 ⟨k, hk, he⟩)
    omega
  generalize ts.kind? i = kind at hno ⊢
  split
  · exact absurd rfl (hno _ (by decide))
  · exact absurd rfl (hno _ (by decide))
  · exact absurd rfl (hno _ (by decide))
  · exact absurd rfl (hno _ (by decide))
  · exact absurd rfl (hno _ (by decide))
  · rfl

theorem flatRound_of_spacing (h : 0 < A.len .spacing i) :
    (flatRound ts i).Returns A lo = (spacingNodes ts i).Returns A lo := returns_of_starts h

theorem flatRound_of_item (wm : ts.WellMarked) (h : 0 < A.len .blockItem i) :
    (flatRound ts i).Returns A lo = (single (blockItemNode ts) i).Returns A lo := by
  rw [flatRound, returns_of_not_starts (not_spacing_of_item wm h), returns_of_starts h]

theorem flatRound_of_semicolon (wm : ts.WellMarked) (h : ts.is i .semicolon = true) :
    (flatRound ts i).Returns A lo = (single (declarationDelimiterNode ts) i).Returns A lo := by
  obtain ⟨hs, hi⟩ := nothing_at_semicolon (A := A) wm h
  rw [flatRound, returns_of_not_starts hs, returns_of_not_starts hi]
  change ((if ts.is i .semicolon = true then single (declarationDelimiterNode ts) else unexpected)
    i).Returns A lo = _
  rw [if_pos h]

theorem delimiter_gives (h : ts.is i .semicolon = true) :
    Gives A (declarationDelimiterNode ts) i (i + 1) :=
  gives_mark (k := .declarationDelimiter) ⟨rfl, rfl⟩ h rfl

theorem flatRound_runs (wm : ts.WellMarked) {E : Nat → Prop} (hc : Site ts E lo i)
    (hd : ts.Deferred i) :
    (flatRound ts).Runs A E lo i fun ns l => Tiles ts i l ns ∧ i < l := by
  refine runs_choose_starts (fun hs => ?_) fun _ => runs_choose_starts (fun hi => ?_) fun _ =>
    runs_cursor.2 ?_
  · exact (spacingNodes_gives wm A i).moves (by omega) hc
  · exact (blockItemNode_gives wm hi).single.moves (by omega) hc
  · split
    · next hsemi => exact (delimiter_gives hsemi).single.moves (Nat.lt_succ_self i) hc
    · exact hc.deferred i hd

theorem flatRound_moves (wm : ts.WellMarked) (hd : ts.Deferred i) (hlo : lo ≤ i)
    (h : (flatRound ts i).Returns A lo (ns, j)) : i < j :=
  (Plan.Meets.of_returns wm (flatRound_runs (E := fun _ => True) wm ⟨fun _ _ => trivial, hlo⟩ hd)
    h).2

/-! ## Stretches and rounds -/

/-- The nodes that the plain loop makes from a token on, if it ends at the closer. -/
abbrev Flat (A : Reading ts false) (lo c : Nat) : Nat → List Node → Prop :=
  Rounds A lo c (flatRound ts) c

/-- Where a round of the plain loop is known, it is the first one. -/
theorem cut_flat {x : Builder (List Node)} (wm : ts.WellMarked) (hc : ts.is c .rightCurly = true)
    (hd : ts.Deferred i) (hlo : lo ≤ i) (hi : ts.is i .rightCurly = false)
    (hx : (flatRound ts i).Returns A lo = (x i).Returns A lo) :
    Cut A lo x (Flat A lo c) i ns ↔ Flat A lo c i ns := by
  have hmoves : ∀ front j, (flatRound ts i).Returns A lo (front, j) → i < j :=
    fun front j => flatRound_moves wm hd hlo
  rcases Nat.lt_or_ge i c with hlt | hge
  · have hrounds : Flat A lo c i ns ↔ _ := Rounds.cut_iff hlt hmoves
    rw [Cut, hx] at hrounds
    exact hrounds.symm
  · constructor
    · rintro ⟨front, back, j, -, hfirst, hrest⟩
      have := hmoves front j (hx ▸ hfirst)
      have := hrest.le
      omega
    · intro h
      obtain rfl : i = c := Nat.le_antisymm h.le hge
      rw [hc] at hi
      cases hi

theorem cut_spacing (wm : ts.WellMarked) (hc : ts.is c .rightCurly = true) (hd : ts.Deferred i)
    (hlo : lo ≤ i) : Cut A lo (spacingNodes ts) (Flat A lo c) i ns ↔ Flat A lo c i ns := by
  rcases Nat.eq_zero_or_pos (A.len .spacing i) with hz | hpos
  · exact cut_none (spacingNodes_returns_nil wm hz)
  · refine cut_flat wm hc hd hlo ?_ (flatRound_of_spacing hpos)
    exact not_is_of_isAny ((spacing_pos wm).1 hpos) (by decide)

theorem cut_item (wm : ts.WellMarked) (hc : ts.is c .rightCurly = true) (hd : ts.Deferred i)
    (hlo : lo ≤ i) (h : 0 < A.len .blockItem i) :
    Cut A lo (single (blockItemNode ts)) (Flat A lo c) i ns ↔ Flat A lo c i ns :=
  cut_flat wm hc hd hlo (not_is_of_isAny (blockItem_head wm h) (by decide)) (flatRound_of_item wm h)

theorem cut_semicolon (wm : ts.WellMarked) (hc : ts.is c .rightCurly = true) (hd : ts.Deferred i)
    (hlo : lo ≤ i) (h : ts.is i .semicolon = true) :
    Cut A lo (single (declarationDelimiterNode ts)) (Flat A lo c) i ns ↔ Flat A lo c i ns :=
  cut_flat wm hc hd hlo (not_is_of_isAny (isAny_of_is h (List.mem_singleton_self _)) (by decide))
    (flatRound_of_semicolon wm h)

/-- A semicolon and the spacing behind it. -/
def delimiterTail (ts : Tokens) : Builder (List Node) := do
  return (← single (declarationDelimiterNode ts)) ++ (← spacingNodes ts)

/-- What a stretch holds behind the spacing it starts with. -/
def chunkTail (ts : Tokens) : ChunkShape → Builder (List Node)
  | .delimitedItem => do return (← single (blockItemNode ts)) ++ (← delimiterTail ts)
  | .item => do return (← single (blockItemNode ts)) ++ (← spacingNodes ts)
  | .delimiter => delimiterTail ts
  | .spacing => return []

theorem blockChunkNodes_eq (shape : ChunkShape) :
    blockChunkNodes ts shape = do return (← spacingNodes ts) ++ (← chunkTail ts shape) := by
  cases shape <;> simp [blockChunkNodes, chunkTail, delimiterTail, single]

/-- Behind the spacing at its start, a stretch is a few rounds of the plain loop. -/
theorem cut_chunkTail (wm : ts.WellMarked) (hc : ts.is c .rightCurly = true) (hd : ts.Deferred j)
    (hlo : lo ≤ j) {shape : ChunkShape} {e : Nat} (h : ChunkRest A shape j e) :
    Cut A lo (chunkTail ts shape) (Flat A lo c) j ns ↔ Flat A lo c j ns := by
  have hspacing : ∀ {i : Nat} {ns : List Node}, j ≤ i →
      (Cut A lo (spacingNodes ts) (Flat A lo c) i ns ↔ Flat A lo c i ns) :=
    fun hi => cut_spacing wm hc (hd.mono hi) (Nat.le_trans hlo hi)
  have hdelimiter : ∀ {i : Nat} {ns : List Node}, j ≤ i → ts.is i .semicolon = true →
      (Cut A lo (delimiterTail ts) (Flat A lo c) i ns ↔ Flat A lo c i ns) := by
    intro i ns hi hsemi
    rw [delimiterTail, cut_append, Cut.congr fun front k back hk => ?_]
    · exact cut_semicolon wm hc (hd.mono hi) (Nat.le_trans hlo hi) hsemi
    · obtain rfl := (delimiter_gives hsemi).single.ends wm (Nat.le_trans hlo hi) hk
      exact hspacing (Nat.le_succ_of_le hi)
  match shape, h with
  | .delimitedItem, ⟨hitem, k, hk, hsemi, _⟩ =>
    rw [chunkTail, cut_append, Cut.congr fun front l back hl => ?_]
    · exact cut_item wm hc hd hlo hitem
    · obtain rfl := (blockItemNode_gives wm hitem).single.ends wm hlo hl
      exact hdelimiter (Nat.le_add_right ..) (hk ▸ hsemi)
  | .item, ⟨hitem, _⟩ =>
    rw [chunkTail, cut_append, Cut.congr fun front l back hl => ?_]
    · exact cut_item wm hc hd hlo hitem
    · obtain rfl := (blockItemNode_gives wm hitem).single.ends wm hlo hl
      exact hspacing (Nat.le_add_right ..)
  | .delimiter, ⟨hsemi, _⟩ => exact hdelimiter (Nat.le_refl j) hsemi
  | .spacing, _ => exact cut_none rfl

/-- A stretch is a few rounds of the plain loop. -/
theorem cut_chunk (wm : ts.WellMarked) (hc : ts.is c .rightCurly = true) (hd : ts.Deferred i)
    (hlo : lo ≤ i) {m : Match ChunkShape} (ht : A.tell .blockChunk i = some m) :
    Cut A lo (blockChunkNodes ts m.shape) (Flat A lo c) i ns ↔ Flat A lo c i ns := by
  have hrest := blockChunk_cases (A.value_of_tell wm rfl ht)
  rw [blockChunkNodes_eq, cut_append, Cut.congr fun front j back hj => ?_]
  · exact cut_spacing wm hc hd hlo
  · obtain rfl := (spacingNodes_gives wm A i).ends wm hlo hj
    exact cut_chunkTail wm hc (hd.mono (Nat.le_add_right ..)) (Nat.le_add_right_of_le hlo) hrest

/-- Where there is no stretch, there is nothing that one could start with. -/
theorem nothing_of_no_chunk (h : A.value (blockChunkMatch ts i) = none) :
    A.len .spacing i = 0 ∧ A.len .blockItem i = 0 ∧ ts.is i .semicolon = false := by
  have hnot : ∀ {n : Nat} {shape : ChunkShape}, Match.of? n shape = none → n = 0 := by
    intro n shape hn
    refine Nat.eq_zero_of_not_pos fun hp => ?_
    rw [Match.of?_pos hp] at hn
    cases hn
  unfold blockChunkMatch at h
  rw [A.value_bind, A.value_lengthOf, A.value_bind, A.value_find] at h
  dsimp only at h
  split at h
  · next item hitem =>
    have hpos := item.length_pos
    rw [A.value_bind] at h
    split at h
    · have hz := hnot h
      omega
    · have hz := hnot h
      omega
  · next hitem =>
    split at h
    · have hz := hnot h
      omega
    · next hsemi =>
      have hz : A.len .spacing i = 0 := hnot h
      rw [hz] at hitem hsemi
      exact ⟨hz, congrArg Answer.length hitem, Bool.eq_false_iff.2 hsemi⟩

/-- Where there is no stretch, the plain loop fails too. -/
theorem flatRound_of_no_chunk (wm : ts.WellMarked) (hi : i < ts.size)
    (ht : A.tell .blockChunk i = none) : ¬ (flatRound ts i).Returns A lo (ns, j) := by
  obtain ⟨hspacing, hitem, hsemi⟩ := nothing_of_no_chunk ((A.tell_eq wm rfl hi).symm.trans ht)
  rw [flatRound, returns_of_not_starts hspacing, returns_of_not_starts hitem, returns_cursor,
    hsemi]
  exact id

theorem returns_found {r : Rule} {nodes : r.Shape → Builder (List Node)} {m : Match r.Shape}
    (ht : A.tell r i = some m) :
    (found r nodes i).Returns A lo = (nodes m.shape i).Returns A lo := by
  rw [found, returns_ask, ht]
  rfl

theorem not_returns_found {r : Rule} {nodes : r.Shape → Builder (List Node)}
    (ht : A.tell r i = none) (x : List Node × Nat) : ¬ (found r nodes i).Returns A lo x := by
  rw [found, returns_ask, ht]
  exact id

/-- The stretches of a block from a token up to the closer are the rounds of the plain loop. -/
theorem rounds_chunk_iff (wm : ts.WellMarked) (hc : ts.is c .rightCurly = true)
    (hd : ts.Deferred i) (hlo : lo ≤ i) :
    Rounds A lo c (found .blockChunk (blockChunkNodes ts)) c i ns ↔ Flat A lo c i ns := by
  have hlast := lt_of_is hc
  generalize hn : c - i = n
  induction n using Nat.strongRecOn generalizing i ns with
  | ind n ih =>
    subst hn
    rcases Nat.lt_or_ge i c with hlt | hge
    · cases ht : A.tell .blockChunk i with
      | some m =>
        have hround : (found .blockChunk (blockChunkNodes ts) i).Returns A lo =
            (blockChunkNodes ts m.shape i).Returns A lo := returns_found ht
        have hends : ∀ front j, (blockChunkNodes ts m.shape i).Returns A lo (front, j) →
            j = i + m.length := fun front j => (blockChunkNodes_gives wm ht).ends wm hlo
        have hpos := m.length_pos
        rw [Rounds.cut_iff hlt (by rw [hround]; intro front j hj; have := hends front j hj; omega),
          Cut, hround, ← cut_chunk wm hc hd hlo ht]
        refine Cut.congr fun front j back hj => ?_
        have hj := hends front j hj
        exact ih _ (by omega) (hd.mono (by omega)) (by omega) rfl
      | none =>
        exact iff_of_false (Rounds.not_of_fails hlt fun _ _ => not_returns_found ht _)
          (Rounds.not_of_fails hlt fun _ _ => flatRound_of_no_chunk wm (by omega) ht)
    · rw [Rounds.end_iff hge, Flat, Rounds.end_iff hge]

/-! ## Blocks -/

theorem blockInterior_eq (ts : Tokens) (c : Nat) :
    blockInterior ts c = collectTo c (found .blockChunk (blockChunkNodes ts)) := by
  unfold blockInterior found
  congr 2
  funext a
  cases a.shape? with
  | none => rfl
  | some shape => rfl

/-- The inside of a block and the plain loop give the same nodes. -/
theorem blockInterior_iff_flat (wm : ts.WellMarked) (hc : ts.is c .rightCurly = true)
    (hd : ts.Deferred i) :
    (blockInterior ts c i).Returns A i (ns, c) ↔
      (collectTo c (flatRound ts) i).Returns A i (ns, c) := by
  have hlast := lt_of_is hc
  have hchunk : ∀ m front l, i ≤ m → m < c →
      (found .blockChunk (blockChunkNodes ts) m).Returns A i (front, l) → m < l ∧ i ≤ l := by
    intro m front l hm _ hl
    cases ht : A.tell .blockChunk m with
    | some chunk =>
      rw [returns_found ht] at hl
      have := (blockChunkNodes_gives wm ht).ends wm hm hl
      have := chunk.length_pos
      omega
    | none => exact absurd hl (not_returns_found ht _)
  have hflat : ∀ m front l, i ≤ m → m < c → (flatRound ts m).Returns A i (front, l) →
      m < l ∧ i ≤ l := by
    intro m front l hm _ hl
    have hml := flatRound_moves wm (hd.mono hm) hm hl
    exact ⟨hml, Nat.le_trans hm (Nat.le_of_lt hml)⟩
  rw [blockInterior_eq, returns_collectTo_iff (Nat.le_refl i) hchunk,
    returns_collectTo_iff (Nat.le_refl i) hflat]
  exact rounds_chunk_iff wm hc hd (Nat.le_refl i)

theorem flatBlockNode_runs (wm : ts.WellMarked) (h : ts.closer? i .leftCurly = some c) :
    (flatBlockNode ts).Runs A (fun _ => True) (i + 1) i fun n k => k = c + 1 ∧
      Covers ts i (c + 1) n := by
  have hlt := wm.closer_lt h
  have hd := deferred_of_closer? h (Nat.lt_succ_self i)
  have hinner : (flatInterior ts c).Runs A (fun _ => True) (i + 1) (i + 1) fun ns k =>
      k = c ∧ Tiles ts (i + 1) c ns := by
    refine runs_bind.2 ((runs_collectTo_some ⟨fun _ _ => trivial, Nat.le_refl _⟩
      fun j hj hs => flatRound_runs wm hs (hd.mono hj)).mono fun ns k htiles => ?_)
    refine runs_bind.2 (runs_cursor.2 ?_)
    split
    · exact trivial
    · next hk =>
      obtain rfl : k = c := Decidable.byContradiction hk
      exact ⟨rfl, htiles⟩
  refine runs_cursor.2 (runs_bind.2 (runs_cursor.2 ?_))
  simp only [h]
  refine runs_skip.2 (runs_bind.2 (hinner.mono fun ns k hk => ?_))
  obtain ⟨rfl, htiles⟩ := hk
  exact runs_make (.branch ⟨h, rfl, rfl⟩ (Nat.lt_succ_of_lt hlt.1) htiles)

/-- A block and the plain loop give the same node, which ends at the closer, or both give none. -/
theorem blockNode_iff_flat (wm : ts.WellMarked) (h : ts.closer? i .leftCurly = some c)
    (hc : ts.is c .rightCurly = true) {node : Node} :
    (blockNode ts i).eval ts = .ok (node, j) ↔ (flatBlockNode ts i).eval ts = .ok (node, j) := by
  obtain ⟨A, -⟩ := Parser.exists_plain_reading wm
  have hlt := wm.closer_lt h
  have hentered : ts.Entered (i + 1) := ⟨i, .leftCurly, c, rfl, rfl, h⟩
  have hblock : Gives A (blockNode ts) i (c + 1) :=
    enclosed_gives wm h h ⟨h, rfl, rfl⟩ rfl fun hd => hd
  have hmeets := hblock (fun _ => True) i ⟨fun _ _ => trivial, Nat.le_refl i⟩
  rw [Plan.Meets.eval_eq_ok_iff wm hmeets,
    Plan.Meets.eval_eq_ok_iff wm (flatBlockNode_runs (A := A) wm h), blockNode, flatBlockNode,
    returns_branch, returns_branch]
  refine exists_congr fun ns => and_congr ?_ Iff.rfl
  rw [returns_enclosed h, returns_enclosed h]
  refine exists_congr fun k => and_congr ?_ Iff.rfl
  rw [returns_filling, flatInterior, returns_expectAt]
  refine and_congr Iff.rfl ?_
  rw [and_iff_right ⟨Nat.lt_succ_self i, Nat.le_trans hlt.1 (Nat.le_of_lt hlt.2)⟩,
    Interior.meaning_eq_ok_iff (A := A) wm (show (Interior.block c).Ready A (i + 1) from hentered)]
  exact blockInterior_iff_flat wm hc hentered.deferred

end

/-- The closer of a brace is a brace. -/
theorem Token.is_rightCurly_of_closer? {tokens : List Token} {i c : Nat}
    (h : Tokens.closer? (link tokens) i .leftCurly = some c) :
    Tokens.is (link tokens) c .rightCurly = true := by
  obtain ⟨t, ht, hcloser⟩ := Option.bind_eq_some_iff.1 (closer_of_closer? h)
  obtain ⟨-, b, k, hb, hk, hkb⟩ := link_closer tokens ht hcloser
  have hkind := is_iff.1 (is_of_closer? h)
  rw [kind?, ht, Option.map_some, Option.some.injEq] at hkind
  rw [hkind] at hb
  cases hb
  cases k <;> first | exact is_iff.2 hk | cases hkb

namespace Parser

/-- In every state that a parse without a cap can be in, and at every brace that has a closer, a
block is built exactly if the plain loop over spacing, statements and semicolons builds one; both
give the same node, and end at the same token. -/
theorem block_is_flat_loop {tokens : List Token} {s : State}
    (hs : Reachable (Token.link tokens) none s) {i c : Nat}
    (h : Tokens.closer? (Token.link tokens) i .leftCurly = some c) (depth : Nat) (node : Node)
    (k : Nat) :
    let built := fun x : Builder Node => (((x i).run (host (Token.link tokens) none fun part j =>
      construct (Token.link tokens) none part j depth)).run s).1
    built (blockNode (Token.link tokens)) = .ok (node, k) ↔
      built (flatBlockNode (Token.link tokens)) = .ok (node, k) := by
  intro built
  have wm := Token.link_wellMarked tokens
  have htransparent := hs.transparent wm
  have hbuilt : ∀ x, built x = (x i).eval (Token.link tokens) :=
    fun x => htransparent.built (x i) depth
  rw [hbuilt, hbuilt]
  exact blockNode_iff_flat wm h (Token.is_rightCurly_of_closer? h)

/-- A semicolon with nothing before it, and one with nothing behind it, are rounds of their own. -/
theorem block_is_flat_loop_semicolons :
    let ts := Token.lex "\x7b;a:b;\x7d"
    let built := fun x : Builder Node => (((x 0).run (host ts none fun part j =>
      construct ts none part j 0)).run (.start 7)).1
    Reachable ts none (.start 7) ∧ ts.closer? 0 .leftCurly = some 6 ∧
    built (flatBlockNode ts) = .ok (.branch .block
      [.leaf .declarationDelimiter ";" ⟨1, 2⟩,
       .branch .declaration
        [.branch .property [.leaf .ident "a" ⟨1, 3⟩] ⟨1, 3⟩, .leaf .propertyDelimiter ":" ⟨1, 4⟩,
         .branch .value [.leaf .ident "b" ⟨1, 5⟩] ⟨1, 5⟩] ⟨1, 3⟩,
       .leaf .declarationDelimiter ";" ⟨1, 6⟩] ⟨1, 1⟩, 7) := by
  intro ts built
  have hsize : ts.size = 7 := by decide +kernel
  have hreach : Reachable ts none (.start 7) := by
    rw [← hsize]
    exact .refl
  have hcloser : ts.closer? 0 .leftCurly = some 6 := by decide +kernel
  refine ⟨hreach, hcloser, (block_is_flat_loop hreach hcloser 0 _ _).1 ?_⟩
  decide +kernel

end Parser

end LessCss
