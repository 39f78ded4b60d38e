import LessCss.Proofs.Blocks

/-! Selectors piece by piece. Looking ahead goes through a selector in one of two loops, the one for
selectors that start with a compound and the other for those that start with a combinator; the
builder takes spacing, combinators and compounds one by one. The second loop wants a combinator
behind every compound, so it covers what the first one does only if no spacing stands for a
combinator. -/

namespace LessCss

open Lookahead Builder Grammar Tokens Node Node.Kind

variable {ts : Tokens} {A : Reading ts false} {lo i j k stop : Nat} {part : SelectorLead} {n : Node}
  {ns gs : List Node}

/-! ## Rounds of a loop -/

/-- A round that goes on from token `j` to token `k`. -/
theorem value_walk_go {step : Nat → Lookahead Step} (hj : j < stop) (hjk : j < k)
    (hs : A.value (step j) = .go (k - j)) :
    A.value (walk stop step j) = A.value (walk stop step k) := by
  rw [A.value_walk, if_pos hj, hs, if_pos ⟨Nat.sub_pos_of_lt hjk, rfl⟩]
  exact congrArg (fun m => A.value (walk stop step m)) (Nat.add_sub_cancel' (Nat.le_of_lt hjk))

/-- A last round, from token `j` to token `k`. -/
theorem value_walk_last {step : Nat → Lookahead Step} (hj : j < stop) (hjk : j ≤ k)
    (hs : A.value (step j) = .last (k - j)) : A.value (walk stop step j) = k := by
  rw [A.value_walk, if_pos hj, hs, if_neg fun h => Bool.false_ne_true h.2]
  exact Nat.add_sub_cancel' hjk

/-- A combinator behind a compound is taken with the compound behind it. -/
theorem value_afterCompound {a e c : Nat} (ha : a = j + A.len .spacing j)
    (hpos : 0 < A.len .combinator a) (he : e = a + A.len .combinator a)
    (hc : c = e + A.len .spacing e) (hcpos : 0 < A.len .compound c) :
    A.value (afterCompound j) = .go (c + A.len .compound c - j) := by
  have hlead : j + (A.len .spacing j + A.len .combinator a) = e := by omega
  rw [afterCompound, A.value_bind, A.value_lengthOf, A.value_bind, A.value_lengthOf, ← ha,
    if_neg (Nat.ne_of_gt hpos)]
  dsimp only
  rw [hlead, A.value_bind, A.value_lengthOf, A.value_bind, A.value_lengthOf, ← hc]
  split
  · next hz => omega
  · rw [A.value_pure]
    congr 1
    omega

/-- A compound behind a combinator is taken with the combinator behind it, if there is one. -/
theorem value_afterCombinator {a e c : Nat} (ha : a = j + A.len .spacing j)
    (hpos : 0 < A.len .compound a) (he : e = a + A.len .compound a)
    (hc : c = e + A.len .spacing e) : A.value (afterCombinator j) =
      if A.len .combinator c = 0 then .last (e - j) else .go (c + A.len .combinator c - j) := by
  have hlead : j + (A.len .spacing j + A.len .compound a) = e := by omega
  rw [afterCombinator, A.value_bind, A.value_lengthOf, A.value_bind, A.value_lengthOf, ← ha]
  split
  · next hz => omega
  · dsimp only
    rw [hlead, A.value_bind, A.value_lengthOf, A.value_bind, A.value_lengthOf, ← hc]
    split
    · next hz => rw [if_pos hz, A.value_pure, ← hlead, Nat.add_sub_cancel_left]
    · next hn =>
      rw [if_neg hn, A.value_pure]
      congr 1
      omega

/-! ## How far a selector reaches -/

theorem len_selector (wm : ts.WellMarked) (hi : i < ts.size) {m : Nat} {lead : SelectorLead}
    (h : A.value (selectorMatch ts i) = Match.of? m lead) : A.len .selector i = m := by
  rw [Reading.len, A.tell_eq wm rfl hi]
  change Answer.length (r := .selector) (A.value (selectorMatch ts i)) = m
  rw [h, Reading.length_of?]

/-- A selector that starts with a compound goes as far as the loop behind compounds. -/
theorem selector_of_compound (wm : ts.WellMarked) (h : 0 < A.len .compound i) :
    i + A.len .selector i = A.value (walk ts.size afterCompound (i + A.len .compound i)) := by
  obtain ⟨m, hm⟩ := Nat.exists_eq_add_one.2 h
  have hle := (walk_afterCompound_rest A ts.size (i + A.len .compound i)).le
  have hbody : A.value (selectorMatch ts i) =
      Match.of? (A.value (walk ts.size afterCompound (i + A.len .compound i)) - i) .compound := by
    rw [selectorMatch, A.value_bind, A.value_lengthOf, hm]
    exact A.value_bind _ _
  rw [len_selector wm (A.lt_of_len h) hbody]
  omega

/-- A selector that starts with a combinator goes as far as the loop behind combinators. -/
theorem selector_of_combinator (wm : ts.WellMarked) (h : 0 < A.len .combinator i) :
    i + A.len .selector i = A.value (walk ts.size afterCombinator (i + A.len .combinator i)) := by
  obtain ⟨m, hm⟩ := Nat.exists_eq_add_one.2 h
  have hle := (walk_afterCombinator_rest A ts.size (i + A.len .combinator i)).le
  have hcompound : A.len .compound i = 0 := by
    by_contra hne
    rw [combinator_of_compound wm (Nat.pos_of_ne_zero hne)] at h
    exact Nat.lt_irrefl 0 h
  have hbody : A.value (selectorMatch ts i) =
      Match.of? (A.value (walk ts.size afterCombinator (i + A.len .combinator i)) - i)
        .combinator := by
    rw [selectorMatch, A.value_bind, A.value_lengthOf, hcompound]
    change A.value (lengthOf .combinator i >>= _) = _
    rw [A.value_bind, A.value_lengthOf, hm]
    exact A.value_bind _ _
  rw [len_selector wm (A.lt_of_len h) hbody]
  omega

/-! ## What the builder makes of a selector -/

/-- The builder of a part of a selector. -/
def SelectorLead.node (ts : Tokens) : SelectorLead → Builder Node
  | .compound => compoundNode ts
  | .combinator => combinatorNode ts

theorem part_gives (wm : ts.WellMarked) (part : SelectorLead) (h : 0 < A.len part.rule i) :
    Gives A (part.node ts) i (i + A.len part.rule i) := by
  cases part with
  | compound => exact compoundNode_gives wm h
  | combinator => exact combinatorNode_gives wm h

theorem spacing_of_part (wm : ts.WellMarked) (part : SelectorLead) (h : 0 < A.len part.rule i) :
    A.len .spacing i = 0 := by
  cases part with
  | compound => exact spacing_of_compound wm h
  | combinator => exact spacing_of_combinator wm h

theorem returns_selectorRound (wm : ts.WellMarked) (part : SelectorLead)
    (h : 0 < A.len part.rule i) :
    (selectorRound ts i).Returns A lo = (single (part.node ts) i).Returns A lo := by
  rw [selectorRound, returns_of_not_starts (spacing_of_part wm part h)]
  cases part with
  | compound => exact returns_of_not_starts (combinator_of_compound wm h)
  | combinator => exact returns_of_starts h

/-- The part stands in the stream from token `i` up to token `j`, and `n` is its node. -/
structure Stands (A : Reading ts false) (part : SelectorLead) (i j : Nat) (n : Node) : Prop where
  pos : 0 < A.len part.rule i
  built : (part.node ts i).Returns A 0 (n, j)

theorem Stands.end_eq (h : Stands A part i j n) (wm : ts.WellMarked) :
    j = i + A.len part.rule i :=
  (part_gives wm part h.pos).single.ends wm (Nat.zero_le i) (Plan.Returns.bind h.built rfl)

theorem Stands.start_eq (h : Stands A part i j n) : n.start = ts.position i := by
  cases part with
  | compound =>
    obtain ⟨_, _, rfl⟩ := returns_branch.1 h.built
    rfl
  | combinator =>
    rw [← (Prod.mk.inj h.built).1]
    rfl

theorem spacingNodes_end (wm : ts.WellMarked) (h : (spacingNodes ts i).Returns A 0 (gs, j)) :
    j = i + A.len .spacing i := (spacingNodes_gives wm A i).ends wm (Nat.zero_le i) h

/-- The pieces of which the builder of a selector makes the nodes, from token `i` up to the end. -/
abbrev Pieces (A : Reading ts false) : Nat → List Node → Prop :=
  Rounds A 0 ts.size (selectorRound ts) ts.size

namespace Pieces

theorem none (h : i = ts.size) : Pieces A i [] := by
  subst h
  exact .done (Nat.le_refl _)

/-- A part, and the pieces behind it. -/
theorem cons (wm : ts.WellMarked) (h : Stands A part i j n) (rest : Pieces A j ns) :
    Pieces A i (n :: ns) := by
  have hend := h.end_eq wm
  have hpos := h.pos
  have hfirst : (selectorRound ts i).Returns A 0 ([n], j) := by
    rw [returns_selectorRound wm _ hpos]
    exact Plan.Returns.bind h.built rfl
  exact .round (A.lt_of_len hpos) hfirst (by omega) rest

/-- Spacing, if there is any, and the pieces behind it. -/
theorem gap (wm : ts.WellMarked) (h : (spacingNodes ts i).Returns A 0 (gs, j))
    (rest : Pieces A j ns) : Pieces A i (gs ++ ns) := by
  have hend := spacingNodes_end wm h
  rcases Nat.eq_zero_or_pos (A.len .spacing i) with hz | hpos
  · obtain ⟨rfl, rfl⟩ := Prod.mk.inj (h.eq (spacingNodes_returns_nil wm hz))
    exact rest
  · refine .round (A.lt_of_len hpos) ?_ (by omega) rest
    rw [selectorRound, returns_of_starts hpos]
    exact h

theorem part_cases (wm : ts.WellMarked) (hpos : 0 < A.len part.rule i) (h : Pieces A i ns) :
    ∃ n back, ns = n :: back ∧ n.kind = part.kind ∧ Pieces A (i + A.len part.rule i) back := by
  cases h with
  | done => exact absurd (A.lt_of_len hpos) (Nat.lt_irrefl _)
  | round _ first _ rest =>
    obtain ⟨rfl, hn⟩ := Plan.Ensures.of_returns wm (selectorRound_part wm part hpos) first
    rw [returns_selectorRound wm part hpos] at first
    obtain ⟨⟨n, _⟩, _, he⟩ := Plan.returns_bind.1 first
    obtain ⟨rfl, rfl⟩ := Prod.mk.inj he
    obtain ⟨k, hk, he⟩ := mem_one.1 hn.1
    obtain ⟨rfl, -⟩ := List.cons.inj he
    exact ⟨n, _, rfl, List.mem_singleton.1 hk, rest⟩

/-- Pieces of which the first is a part, behind spacing if there is any. -/
theorem cases (wm : ts.WellMarked) (hpos : 0 < A.len part.rule (i + A.len .spacing i))
    (h : Pieces A i ns) : ∃ gap n back, ns = gap ++ n :: back ∧ (∀ g ∈ gap, g.kind ∈ spacings) ∧
      n.kind = part.kind ∧
      Pieces A (i + A.len .spacing i + A.len part.rule (i + A.len .spacing i)) back := by
  rcases Nat.eq_zero_or_pos (A.len .spacing i) with hz | hgap
  · have hnow : Pieces A (i + A.len .spacing i) ns := by rwa [hz]
    obtain ⟨n, back, rfl, hn, hback⟩ := hnow.part_cases wm hpos
    exact ⟨[], n, back, rfl, List.forall_mem_nil _, hn, hback⟩
  · cases h with
    | done => exact absurd (A.lt_of_len hgap) (Nat.lt_irrefl _)
    | round _ first _ rest =>
      obtain ⟨rfl, -, hg⟩ := Plan.Ensures.of_returns wm (selectorRound_spacing wm hgap) first
      obtain ⟨n, back, rfl, hn, hback⟩ := part_cases wm hpos rest
      exact ⟨_, n, back, rfl, fun g hg' => (listed_many.1 hg g hg').1, hn, hback⟩

end Pieces

/-- A stream is a selector if looking ahead covers it, and its node holds those of the pieces. -/
theorem parse_selector_iff (wm : ts.WellMarked) (A : Reading ts false) {node : Node} :
    parse ts none .selector = .ok node ↔ 0 < ts.size ∧ A.len .selector 0 = ts.size ∧
      ∃ ns, Pieces A 0 ns ∧ node = .branch .selector ns (ts.position 0) := by
  rw [Parser.parse_rule_iff (r := .selector) wm A (by decide) rfl]
  refine and_congr_right fun hsize => and_congr_right fun hlen => ?_
  have hpos : 0 < A.len .selector 0 := by rwa [hlen]
  have hmeets := selectorNode_gives wm hpos (fun _ => True) 0 ⟨fun _ _ => trivial, Nat.le_refl 0⟩
  have htrail := selector_trail wm hpos
  rw [hlen, Nat.zero_add] at hmeets htrail
  have hpieces : ∀ ns, (collectTo ts.size (selectorRound ts) 0).Returns A 0 (ns, ts.size) ↔
      Pieces A 0 ns := by
    refine fun ns => returns_collectTo_iff (I := fun m => Trail (SelectorPiece A) m ts.size)
      htrail fun m front l hm hlt hl => ?_
    cases hm with
    | refl => exact absurd hlt (Nat.lt_irrefl _)
    | step round lt rest =>
      rw [(selectorPiece_gives wm round).ends wm (Nat.zero_le m) hl]
      exact ⟨lt, rest⟩
  have hnode : (selectorNode ts 0).Returns A 0 (node, ts.size) ↔
      ∃ ns, Pieces A 0 ns ∧ node = .branch .selector ns (ts.position 0) := by
    rw [selectorNode, returns_branch]
    refine exists_congr fun ns => and_congr ?_ eq_comm
    rw [← hpieces]
    change (collectTo (0 + A.len .selector 0) (selectorRound ts) 0).Returns A 0 (ns, ts.size) ↔ _
    rw [hlen, Nat.zero_add]
  rw [← hnode, ← Plan.Meets.eval_eq_ok_iff wm hmeets]
  constructor
  · rintro ⟨k, hk⟩
    have hreturns := (Plan.Meets.eval_eq_ok_iff wm hmeets).1 hk
    obtain rfl : k = ts.size := (Plan.Meets.of_returns wm hmeets hreturns).1
    exact hk
  · exact fun hk => ⟨_, hk⟩

/-- A stream that starts with neither a compound nor a combinator is no selector. -/
theorem parse_of_no_part (wm : ts.WellMarked) (hsize : 0 < ts.size)
    (h : ∀ part : SelectorLead, A.len part.rule 0 = 0) :
    parse ts none .selector = .error (.unexpectedToken (ts.position 0).line) := by
  have hlen : A.len .selector 0 = 0 := by
    refine Nat.eq_zero_of_not_pos fun hpos => ?_
    obtain ⟨first, hfirst, -⟩ := selector_rest wm hpos
    rw [h first] at hfirst
    exact Nat.lt_irrefl 0 hfirst
  have hmeasure : (Symbol.selector.length ts 0).eval ts = 0 := by
    rw [← Parser.value_eq_eval wm A]
    exact hlen
  have hempty : ¬ ts.isEmpty = true := by simpa [Array.isEmpty] using Nat.ne_of_gt hsize
  have hfirst := Array.getElem?_eq_getElem hsize
  have hline : ts.unexpected 0 = .unexpectedToken ts[0].start.line :=
    unexpected_eq (by rw [Nat.zero_min, hfirst])
  rw [Parser.parse_eq_parsePlain wm, parsePlain, if_neg hempty]
  dsimp only
  rw [hmeasure, if_pos hsize, hline, position, hfirst]
  rfl

/-! ## Selectors whose combinators are written out -/

/-- Behind the part `last`, at token `j`, the loop behind combinators comes to the end: from here,
or behind a compound from the next combinator on, if there is anything more. -/
def Reaches (A : Reading ts false) : SelectorLead → Nat → Prop
  | .compound, j => j = ts.size ∨ 0 < A.len .combinator (j + A.len .spacing j) ∧
    A.value (walk ts.size afterCombinator
      (j + A.len .spacing j + A.len .combinator (j + A.len .spacing j))) = ts.size
  | .combinator, j => A.value (walk ts.size afterCombinator j) = ts.size

/-- A compound behind a combinator takes one round of the loop. -/
theorem reaches_combinator {a e : Nat} (ha : a = j + A.len .spacing j)
    (hpos : 0 < A.len .compound a) (he : e = a + A.len .compound a) :
    Reaches A .combinator j ↔ Reaches A .compound e := by
  have hlt := A.lt_of_len hpos
  have hstep := value_afterCombinator ha hpos he rfl
  change A.value (walk ts.size afterCombinator j) = ts.size ↔ Reaches A .compound e
  rcases Nat.eq_zero_or_pos (A.len .combinator (e + A.len .spacing e)) with hz | hc
  · rw [if_pos hz] at hstep
    rw [value_walk_last (by omega) (by omega) hstep, Reaches, hz]
    simp
  · have hnext := A.lt_of_len hc
    rw [if_neg (by omega)] at hstep
    rw [value_walk_go (by omega) (by omega) hstep, Reaches, or_iff_right (by omega),
      and_iff_right hc]

/-- The kinds of nodes, but for spacing. -/
def partKinds (ns : List Node) : List Node.Kind := (ns.map Node.kind).filter (· ∉ spacings)

theorem partKinds_append (part : SelectorLead) {gap back : List Node}
    (hgap : ∀ g ∈ gap, g.kind ∈ spacings) (hn : n.kind = part.kind) :
    partKinds (gap ++ n :: back) = part.kind :: partKinds back := by
  have hnone : (gap.map Node.kind).filter (· ∉ spacings) = [] := by simpa using hgap
  rw [partKinds, List.map_append, List.filter_append, hnone, List.nil_append, List.map_cons,
    List.filter_cons_of_pos (by simpa [hn] using part.kind_notMem), hn]
  rfl

/-- Of any two neighbours one is a combinator. -/
def Explicit (ks : List Node.Kind) : Prop := ks.IsChain fun k l => k = .combinator ∨ l = .combinator

instance (ks : List Node.Kind) : Decidable (Explicit ks) :=
  inferInstanceAs (Decidable (ks.IsChain _))

theorem explicit_combinator_cons (ks : List Node.Kind) :
    Explicit (.combinator :: ks) ↔ Explicit ks := by
  cases ks with
  | nil => exact iff_of_true (.singleton _) .nil
  | cons k ks => exact List.isChain_cons_cons.trans (and_iff_right (Or.inl rfl))

/-- The loop behind combinators comes to the end of a selector if no two compounds in it are
neighbours. -/
theorem reaches_iff_explicit (wm : ts.WellMarked) {last : SelectorLead}
    (hrest : SelectorRest A last j k) (hk : k = ts.size) (hns : Pieces A j ns) :
    Reaches A last j ↔ Explicit (last.kind :: partKinds ns) := by
  induction hrest generalizing ns with
  | nil last j =>
    subst hk
    obtain rfl := hns.eq_nil
    refine iff_of_true ?_ (.singleton _)
    cases last with
    | compound => exact Or.inl rfl
    | combinator => rw [Reaches, A.value_walk, if_neg (Nat.lt_irrefl _)]
  | @cons last j k part precedes pos rest ih =>
    obtain ⟨gap, n, back, rfl, hgap, hn, hback⟩ := hns.cases wm pos
    have hlt := A.lt_of_len pos
    rw [partKinds_append part hgap hn, Explicit, List.isChain_cons_cons, ← Explicit,
      ← ih hk hback]
    cases last with
    | compound =>
      cases part with
      | compound =>
        -- the loop finds no combinator here, though there is more
        refine iff_of_false ?_ (by simp [SelectorLead.kind])
        rintro (hj | ⟨hc, -⟩)
        · omega
        · rw [combinator_of_compound wm pos] at hc
          exact Nat.lt_irrefl 0 hc
      | combinator =>
        refine Iff.trans ?_ (and_iff_right (Or.inr rfl)).symm
        exact (or_iff_right (by omega)).trans (and_iff_right pos)
    | combinator =>
      cases part with
      | compound => exact (reaches_combinator rfl pos rfl).trans (and_iff_right (Or.inl rfl)).symm
      | combinator => exact absurd ⟨rfl, rfl⟩ precedes.1

/-- Where a stream is a selector that starts with a compound, the loop behind combinators covers it
if no two compounds in it are neighbours. -/
theorem reaches_selector_iff (wm : ts.WellMarked) (hsize : 0 < ts.size)
    (hlen : A.len .selector 0 = ts.size) (hns : Pieces A 0 ns)
    (hfirst : ns.head?.map Node.kind = some .compoundSelector) :
    0 < A.len .compound 0 ∧ (Reaches A .combinator 0 ↔ Explicit (partKinds ns)) := by
  obtain ⟨first, hpos, hrest⟩ := selector_rest (A := A) (i := 0) wm (by omega)
  have hgap := spacing_of_part wm first hpos
  have hpos' : 0 < A.len first.rule (0 + A.len .spacing 0) := by rwa [hgap]
  have hkinds : ∃ ks, partKinds ns = .compoundSelector :: ks := by
    obtain ⟨n, hn, hk⟩ := Option.map_eq_some_iff.1 hfirst
    obtain ⟨ns', rfl⟩ := List.head?_eq_some_iff.1 hn
    exact ⟨_, partKinds_append .compound (List.forall_mem_nil _) hk⟩
  have hcompound : first = .compound := by
    obtain ⟨gap, n, back, rfl, hspace, hn, -⟩ := hns.cases wm hpos'
    obtain ⟨ks, hks⟩ := hkinds
    rw [partKinds_append first hspace hn] at hks
    exact SelectorLead.kind_inj.1.1 (List.cons.inj hks).1
  subst hcompound
  have hall : SelectorRest A .combinator 0 ts.size := by
    refine .cons .compound ⟨by simp, by simp⟩ hpos' ?_
    rw [hgap, Nat.add_zero]
    rwa [hlen, Nat.zero_add (Array.size ts)] at hrest
  exact ⟨hpos, (reaches_iff_explicit wm hall rfl hns).trans (explicit_combinator_cons _)⟩

end LessCss
