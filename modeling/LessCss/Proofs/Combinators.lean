import LessCss.Proofs.Gluing
import LessCss.Proofs.Pieces
import LessCss.Proofs.Tail.Trees

/-! Combinators and what they are glued to. Each part of a selector is found in the whole and built
there as it is on its own: a combinator wherever it stands, a compound at the end and before
anything that cannot be a part of it. So tokens of compounds and combinators make up selectors, with
white space between them or without, but for two places. A name and a bar are the start of a name
with a namespace, and two bars behind a name are read so too. And behind a combinator that comes
first, spacing between two compounds does not count as a combinator. -/

namespace LessCss

open Lookahead Builder Grammar Tokens Node Node.Kind

/-! ## Behind other tokens -/

section
variable {ts ts' : Tokens} {A : Reading ts false} {B : Reading ts' false} {d j m : Nat}
  {ns : List Node} (h : ts.Tail d ts') (wm : ts.WellMarked) (wm' : ts'.WellMarked)
include h wm wm'

/-- What is returned from the tail of a stream is returned from the whole stream. -/
theorem Plan.Moves.returns {α : Type} {p p' : Plan (α × Nat)} (hp : p.Moves ts ts' d m p') {a : α}
    (ha : p.Returns A 0 (a, j)) : p'.Returns B 0 (a, d + j) := by
  induction hp with
  | done b _ =>
    obtain ⟨rfl, rfl⟩ := Prod.mk.inj ha
    rfl
  | fail i => exact ha
  | look _ ih =>
    rw [Returns, Parser.value_eq_eval wm A] at ha
    rw [Returns, Parser.value_eq_eval wm' B]
    exact ih ha
  | ask _ ih =>
    rw [Returns, Parser.tell_eq_meanings wm A] at ha
    rw [Returns, Parser.tell_eq_meanings wm' B]
    dsimp only [Parser.meanings]
    rw [h.meaning]
    exact ih ha
  | @build part i next next' hi _ ih =>
    obtain ⟨⟨_, hsize⟩, ⟨x, k⟩, hx, hnext⟩ := ha
    have hmoved := Interior.meaning_moved h wm part hi
    have hsize' := h.size
    generalize hx' : (part.later d).meaning ts' (d + i) = x' at hmoved
    rw [hx] at hmoved
    cases hmoved with
    | ok _ hj => exact ⟨⟨by omega, by omega⟩, _, hx', ih x k hj hnext⟩
  | check _ ih => exact ih ha
  | made _ ih => exact ih ha

theorem Tokens.Tail.len (A : Reading ts false) (B : Reading ts' false) (r : Rule) (i : Nat) :
    B.len r (d + i) = A.len r i := by
  rw [Reading.len, Reading.len, Parser.tell_eq_meanings wm A, Parser.tell_eq_meanings wm' B]
  exact congrArg Answer.length (h.meaning r i)

theorem Tokens.Tail.walk {step step' : Nat → Lookahead Step} (A : Reading ts false)
    (B : Reading ts' false) (hstep : ∀ j, step' (d + j) = (step j).later d) (j : Nat) :
    B.value (walk ts'.size step' (d + j)) = d + A.value (walk ts.size step j) := by
  rw [h.size, walk_later hstep, B.value_map, Parser.value_eq_eval wm' B, h.eval,
    Parser.value_eq_eval wm A]

theorem Pieces.moved (hns : Pieces A j ns) : Pieces B (d + j) ns := by
  have hmoves : Builder.Moves ts ts' d 0 (selectorRound ts) (selectorRound ts') :=
    moves_choose_starts _ (spacingNodes_moves h)
      (moves_choose_starts _ (combinatorNode_moves h).single (compoundNode_moves h).single)
  have hsize := h.size
  induction hns with
  | done _ => exact Pieces.none hsize.symm
  | @round i j front back lt first moves rest ih =>
    exact .round (by omega) ((hmoves i (Nat.zero_le i)).returns h wm wm' first) (by omega) ih

theorem reaches_moved (last : SelectorLead) (j : Nat) :
    Reaches B last (d + j) ↔ Reaches A last j := by
  have hsize := h.size
  have hwalk := h.walk wm wm' A B afterCombinator_later
  cases last with
  | compound =>
    simp only [Reaches, Nat.add_assoc, h.len wm wm' A B, hwalk]
    omega
  | combinator =>
    simp only [Reaches, hwalk]
    omega

/-- With a combinator before it, a stream that starts with a compound is covered if the loop behind
combinators comes to its end. -/
theorem covers_behind_combinator {nc : Node} {gs : List Node} {k : Nat}
    (hc : Stands B .combinator 0 k nc) (hgap : (spacingNodes ts' k).Returns B 0 (gs, d))
    (hpos : 0 < A.len .compound 0) :
    B.len .selector 0 = ts'.size ↔ Reaches A .combinator 0 := by
  have hlead : k = 0 + B.len .combinator 0 := hc.end_eq wm'
  have hcompound : B.len .compound d = A.len .compound 0 := h.len wm wm' A B .compound 0
  have hnogap : 0 = 0 + A.len .spacing 0 := by rw [spacing_of_compound wm hpos]
  have hwalk := selector_of_combinator wm' hc.pos
  rw [← hlead, Nat.zero_add] at hwalk
  calc B.len .selector 0 = ts'.size
      ↔ Reaches B .combinator k := by rw [hwalk, Reaches]
    _ ↔ Reaches B .compound (d + A.len .compound 0) :=
        reaches_combinator (spacingNodes_end wm' hgap) (by omega) (by rw [hcompound])
    _ ↔ Reaches A .compound (A.len .compound 0) := reaches_moved h wm wm' .compound _
    _ ↔ Reaches A .combinator 0 := (reaches_combinator hnogap hpos (Nat.zero_add _).symm).symm

end

/-! ## Parts of a longer stream -/

/-- The production of a part of a selector. -/
def SelectorLead.symbol : SelectorLead → Symbol
  | .compound => .compoundSelector
  | .combinator => .combinator

/-- The kinds with which a part of a selector starts. -/
def SelectorLead.heads : SelectorLead → List Token.Kind
  | .compound => .bar :: (nameHeads ++ partHeads)
  | .combinator => [.bar, .plus, .greater, .tilde, .slash]

theorem part_head {ts : Tokens} {A : Reading ts false} {i : Nat} (wm : ts.WellMarked)
    (part : SelectorLead) (h : 0 < A.len part.rule i) : ts.isAny i part.heads = true := by
  cases part with
  | compound =>
    rcases compound_head wm h with hh | ⟨hh, _⟩
    · exact isAny_of_isAny hh fun k hk => List.mem_cons_of_mem _ hk
    · exact isAny_of_is hh (by decide)
  | combinator =>
    rcases combinator_head wm h with hh | ⟨hh, _⟩
    · exact isAny_of_isAny hh (by decide)
    · exact isAny_of_is hh (by decide)

theorem SelectorLead.node_moves {ts ts' : Tokens} {d lo : Nat} (h : ts.Tail d ts')
    (part : SelectorLead) : Builder.Moves ts ts' d lo (part.node ts) (part.node ts') := by
  cases part with
  | compound => exact compoundNode_moves h
  | combinator => exact combinatorNode_moves h

section
variable {all front x g back : List Token} {n : Node} {gs : List Node}

theorem exists_cons_of_isAny {ks : List Token.Kind} (h : Tokens.isAny (Token.link x) 0 ks = true) :
    ∃ t rest, x = t :: rest ∧ t.kind ∈ ks := by
  obtain ⟨k, hk, he⟩ := isAny_iff.1 h
  rw [Token.kind?_link] at he
  cases x with
  | nil => cases he
  | cons t rest =>
    cases he
    exact ⟨t, rest, rfl, hk⟩

/-- Tokens that go on behind a part start with a token of its heads. -/
theorem head_of_part (part : SelectorLead) {A : Reading (Token.link x) false}
    (h : 0 < A.len part.rule 0) (hx : x <+: all) :
    ∃ t rest, all = t :: rest ∧ t.kind ∈ part.heads := by
  obtain ⟨back, rfl⟩ := hx
  obtain ⟨t, rest, rfl, ht⟩ := exists_cons_of_isAny (part_head (Token.link_wellMarked x) part h)
  exact ⟨t, rest ++ back, rfl, ht⟩

theorem not_spacing_of_part (part : SelectorLead) {A : Reading (Token.link x) false}
    (h : 0 < A.len part.rule 0) (hx : x <+: all) :
    ∀ t, all.head? = some t → t.kind ∉ spacingKinds := by
  have hheads : ∀ k ∈ part.heads, k ∉ spacingKinds := by cases part <;> decide
  obtain ⟨t, rest, rfl, ht⟩ := head_of_part part h hx
  rintro _ ⟨⟩
  exact hheads _ ht

/-- Behind other tokens, a stream that starts with a part is a tail. -/
theorem tail_of_part (part : SelectorLead) (hall : all = front ++ x)
    {A : Reading (Token.link x) false} (h : 0 < A.len part.rule 0) :
    Tokens.Tail front.length (Token.link x) (Token.link all) := by
  have hheads : ∀ k ∈ part.heads, k ≠ .atSign := by cases part <;> decide
  obtain ⟨t, rest, rfl, ht⟩ := head_of_part part h (List.prefix_refl x)
  rw [hall]
  exact Token.link_tail front (hheads _ ht)

/-- A part that is the whole stream. -/
theorem stands_of_parse (part : SelectorLead) (A : Reading (Token.link x) false)
    (h : parse (Token.link x) none part.symbol = .ok n) : Stands A part 0 x.length n := by
  have wm := Token.link_wellMarked x
  have hparse : 0 < Array.size (Token.link x) ∧ A.len part.rule 0 = Array.size (Token.link x) ∧
      ∃ k, (part.node (Token.link x) 0).eval (Token.link x) = .ok (n, k) := by
    cases part with
    | compound => exact (Parser.parse_rule_iff (r := .compound) wm A (by decide) rfl).1 h
    | combinator => exact (Parser.parse_rule_iff (r := .combinator) wm A (by decide) rfl).1 h
  obtain ⟨hsize, hcover, k, hk⟩ := hparse
  have hpos : 0 < A.len part.rule 0 := by rwa [hcover]
  have hmeets := part_gives wm part hpos (fun _ => True) 0 ⟨fun _ _ => trivial, Nat.le_refl 0⟩
  have hstands : Stands A part 0 k n := ⟨hpos, (Plan.Meets.eval_eq_ok_iff wm hmeets).1 hk⟩
  have hend := hstands.end_eq wm
  rw [hcover, Token.size_link, Nat.zero_add] at hend
  rwa [← hend]

/-- A part at the end of a longer stream. -/
theorem stands_last (part : SelectorLead) (h : parse (Token.link x) none part.symbol = .ok n)
    (hall : all = front ++ x) (B : Reading (Token.link all) false) :
    Stands B part front.length (front.length + x.length) n := by
  have wm := Token.link_wellMarked x
  have wm' := Token.link_wellMarked all
  obtain ⟨A, -⟩ := Parser.exists_plain_reading wm
  obtain ⟨hpos, hbuilt⟩ := stands_of_parse part A h
  have htail := tail_of_part part hall hpos
  refine ⟨?_, (part.node_moves htail 0 (Nat.le_refl 0)).returns htail wm wm' hbuilt⟩
  rwa [← htail.len wm wm' A B] at hpos

/-- A combinator stands wherever its tokens do. -/
theorem combinator_stands (h : parse (Token.link x) none .combinator = .ok n)
    (hall : all = front ++ (x ++ back)) (B : Reading (Token.link all) false) :
    Stands B .combinator front.length (front.length + x.length) n := by
  subst hall
  have wm := Token.link_wellMarked x
  obtain ⟨A, -⟩ := Parser.exists_plain_reading wm
  have hstands := stands_of_parse .combinator A h
  have hend := hstands.end_eq wm
  obtain ⟨hpos, hbuilt⟩ := hstands
  have hrecurs : Tokens.Recurs (back.map Token.kind) (Token.link x)
      (Token.link (front ++ (x ++ back))) front.length 0 x.length :=
    Token.link_recurs front x back fun t ht => List.mem_map_of_mem (List.mem_of_head? ht)
  have hfound : A.Agrees B front.length x.length .combinator 0 :=
    combinator_agrees_of_found hrecurs wm (Nat.le_refl 0) hpos (Nat.le_of_eq hend.symm)
  obtain ⟨n', hn', hcopy⟩ := combinatorNode_copies (s := 0) hrecurs (Nat.le_refl 0) hfound hpos
  obtain ⟨rfl, he⟩ := Prod.mk.inj (hn'.eq hbuilt)
  rw [he] at hcopy
  exact ⟨Nat.lt_of_lt_of_eq hpos hfound.len.symm, hcopy.mono (Nat.zero_le _)⟩

/-! ## White space between parts -/

/-- The tokens are nothing, or one run of white space, and the nodes what is built of them. -/
def Gap (g : List Token) (gs : List Node) : Prop :=
  g = [] ∧ gs = [] ∨ ∃ n, parse (Token.link g) none .space = .ok n ∧ gs = [n]

/-- A run of white space that is the whole stream. -/
theorem space_cases (A : Reading (Token.link g) false)
    (h : parse (Token.link g) none .space = .ok n) : 0 < g.length ∧
      A.value (spaceLength (Token.link g) 0) = g.length ∧
      (spaceNode (Token.link g) 0).Returns A 0 (n, g.length) := by
  have wm := Token.link_wellMarked g
  obtain ⟨hpos, hcover, k, hk⟩ := (Parser.parse_eq_ok_iff wm (by decide)).1 h
  change _ ≤ (spaceLength (Token.link g) 0).eval (Token.link g) at hcover
  have hspan := value_spaceLength_eq (A := A) wm 0
  have hle : Tokens.spanEnd (Token.link g) blankKinds 0 ≤ _ := spanEnd_le (Nat.zero_le _)
  have hall : A.value (spaceLength (Token.link g) 0) = g.length := by
    rw [← Parser.value_eq_eval wm A] at hcover
    rw [Token.size_link] at hcover hle
    omega
  have hleaf : (spaceNode (Token.link g) 0).Returns A 0
      (_, 0 + A.value (spaceLength (Token.link g) 0)) := rfl
  rw [hall, Nat.zero_add] at hleaf
  obtain ⟨rfl, -⟩ := Prod.mk.inj (Except.ok.inj ((hleaf.eval wm).symm.trans hk))
  rw [Token.size_link] at hpos
  exact ⟨hpos, hall, hleaf⟩

theorem head_of_space (h : parse (Token.link g) none .space = .ok n) :
    ∃ t rest, g = t :: rest ∧ t.kind ∈ blankKinds := by
  have wm := Token.link_wellMarked g
  obtain ⟨A, -⟩ := Parser.exists_plain_reading wm
  obtain ⟨hpos, hall, -⟩ := space_cases A h
  have hspan := value_spaceLength_eq (A := A) wm 0
  exact exists_cons_of_isAny (isAny_of_lt_spanEnd (Nat.le_refl 0) (by omega))

/-- White space stands wherever its tokens do, if no spacing stands behind it. -/
theorem gap_stands (h : Gap g gs) (hback : ∀ t, back.head? = some t → t.kind ∉ spacingKinds)
    (hall : all = front ++ (g ++ back)) (B : Reading (Token.link all) false) :
    (spacingNodes (Token.link all) front.length).Returns B 0 (gs, front.length + g.length) := by
  subst hall
  have wm' := Token.link_wellMarked (front ++ (g ++ back))
  have hrecurs : Tokens.Recurs (back.head?.toList.map Token.kind) (Token.link g)
      (Token.link (front ++ (g ++ back))) front.length 0 g.length :=
    Token.link_recurs front g back fun t ht => by simp [ht]
  have hwalls : ∀ k ∈ spacingKinds, k ∉ back.head?.toList.map Token.kind := by
    intro k hk hmem
    obtain ⟨t, ht, rfl⟩ := List.mem_map.1 hmem
    exact hback t (by simpa using ht) hk
  have hend : Tokens.isAny (Token.link (front ++ (g ++ back))) (front.length + g.length)
      spacingKinds = false := by
    rw [Bool.eq_false_iff]
    intro hany
    obtain ⟨k, hk, he⟩ := isAny_iff.1 hany
    exact hwalls k hk (hrecurs.wall' k he)
  rcases h with ⟨rfl, rfl⟩ | ⟨n, hn, rfl⟩
  · exact spacingNodes_returns_nil wm' (len_spacing_eq_zero wm' hend)
  · have wm := Token.link_wellMarked g
    obtain ⟨A, -⟩ := Parser.exists_plain_reading wm
    obtain ⟨hpos, hlen, hnode⟩ := space_cases A hn
    have hblanks : ∀ k ∈ blankKinds, k ∈ spacingKinds := by decide
    have hblank := fun k hk => hwalls k (hblanks k hk)
    have hagrees := (spaceLength_agrees (A := A) (B := B) hrecurs hblank wm wm' (Nat.le_refl 0)
      (Nat.zero_le _)).1
    obtain ⟨n', hn', hcopy⟩ := spaceNode_copies (A := A) (B := B) (s := 0) hrecurs hblank wm wm'
      (Nat.le_refl 0) (Nat.zero_le _) (by omega)
    rw [hlen, Nat.zero_add] at hn' hcopy
    obtain ⟨rfl, -⟩ := Prod.mk.inj (hn'.eq hnode)
    rw [hlen, Nat.add_zero] at hagrees
    rw [← hagrees] at hend hcopy ⊢
    exact spacingNodes_of_space wm' (by omega) hend (hcopy.mono (Nat.zero_le _))

/-- Behind a compound that a combinator follows stands a soft wall. -/
theorem head_of_gap {A : Reading (Token.link x) false} (hg : Gap g gs)
    (h : 0 < A.len .combinator 0) : ∃ t rest, g ++ x = t :: rest ∧ t.kind ∈ softWalls := by
  have hheads : ∀ k ∈ SelectorLead.combinator.heads, k ∈ softWalls := by decide
  have hblanks : ∀ k ∈ blankKinds, k ∈ softWalls := by decide
  rcases hg with ⟨rfl, -⟩ | ⟨n, hn, -⟩
  · obtain ⟨t, rest, rfl, ht⟩ := head_of_part .combinator h (List.prefix_refl x)
    exact ⟨t, rest, rfl, hheads _ ht⟩
  · obtain ⟨t, rest, rfl, ht⟩ := head_of_space hn
    exact ⟨t, rest ++ x, rfl, hblanks _ ht⟩

end

/-! ## Compounds on both sides of a combinator -/

section
variable {a c b g g' back all : List Token} {n nc nb : Node} {gs gs' : List Node}

/-- The tokens are a name, and a bar stands right behind it. -/
def BarBehindName (a back : List Token) : Prop :=
  (∃ id, parse (Token.link a) none .ident = .ok id) ∧ back.head?.map Token.kind = some .bar

/-- A compound stands before a soft wall, unless it is a name and the wall is a bar. -/
theorem compound_first (h : parse (Token.link a) none .compoundSelector = .ok n)
    (hlexed : ∀ t ∈ a, t.Lexed) (hall : all = a ++ back)
    (hback : ∀ t, back.head? = some t → t.kind ∈ softWalls) (hbar : ¬ BarBehindName a back)
    (B : Reading (Token.link all) false) : Stands B .compound 0 a.length n := by
  subst hall
  have wm := Token.link_wellMarked a
  have wm' := Token.link_wellMarked (a ++ back)
  obtain ⟨A, -⟩ := Parser.exists_plain_reading wm
  have hstands := stands_of_parse .compound A h
  have hend : a.length = 0 + A.len .compound 0 := hstands.end_eq wm
  have hpos : 0 < A.len .compound 0 := hstands.pos
  have hrecurs : Tokens.Recurs softWalls (Token.link a) (Token.link (a ++ back)) 0 0 a.length :=
    Token.link_recurs [] a back hback
  have hkeeps : Tokens.Keeps (Token.link a) (Token.link (a ++ back)) 0 := by
    refine (Token.link_linked a).keeps (Token.link_linked (a ++ back))
      (show _ = [] ++ (_ ++ back.map Token.kind) from ?_)
    rw [Token.link_kinds, Token.link_kinds, List.map_append, List.nil_append]
  have hnests := Token.link_nests hlexed
  have hsize := Token.size_link a
  have hspace : A.Agrees B 0 a.length .namespacePart 0 := by
    refine namespacePart_agrees_of_end hrecurs (Nat.le_of_eq hsize) (Nat.le_refl 0) (by omega)
      fun hname => ?_
    have hident : 0 + A.len .ident 0 = _ :=
      ident_of_namespaceEnd wm hpos (by omega) (by omega)
    have hparse : ∃ id, parse (Token.link a) none .ident = .ok id :=
      ⟨_, (Parser.parse_rule_iff (r := .ident) wm A (by decide) rfl).2
        ⟨by omega, by omega, _, rfl⟩⟩
    refine Bool.eq_false_iff.2 fun hk => hbar ⟨hparse, ?_⟩
    have hkind := is_iff.1 hk
    rwa [Token.kind?_link, Nat.zero_add, List.getElem?_append_right (Nat.le_refl _), Nat.sub_self,
      ← List.head?_eq_getElem?] at hkind
  have hfound := compound_agrees_of_found hrecurs (Nat.le_of_eq hsize) wm wm' hkeeps hnests
    (Nat.le_refl 0) hpos hend.symm hspace
  obtain ⟨n', hn', hcopy⟩ := compoundNode_copies_of_found (s := 0) hrecurs (Nat.le_of_eq hsize) wm
    wm' hkeeps hnests (Nat.le_refl 0) (Nat.le_refl 0) hpos hend.symm hspace
  obtain ⟨rfl, he⟩ := Prod.mk.inj (hn'.eq hstands.built)
  rw [he, Nat.zero_add, Nat.zero_add] at hcopy
  exact ⟨Nat.lt_of_lt_of_eq hpos hfound.len.symm, hcopy⟩

/-- A combinator between two compounds, with white space around it or without. -/
theorem parse_joined (ha : parse (Token.link a) none .compoundSelector = .ok n)
    (hlexed : ∀ t ∈ a, t.Lexed) (hg : Gap g gs)
    (hc : parse (Token.link c) none .combinator = .ok nc) (hg' : Gap g' gs')
    (hb : parse (Token.link b) none .compoundSelector = .ok nb)
    (hbar : ¬ BarBehindName a (g ++ c)) :
    parse (Token.link (a ++ (g ++ (c ++ (g' ++ b))))) none .selector =
      .ok (.branch .selector (n :: (gs ++ nc :: (gs' ++ [nb]))) n.start) := by
  obtain ⟨C, -⟩ := Parser.exists_plain_reading (Token.link_wellMarked c)
  obtain ⟨D, -⟩ := Parser.exists_plain_reading (Token.link_wellMarked b)
  have hcpos := (stands_of_parse .combinator C hc).pos
  have hbpos := (stands_of_parse .compound D hb).pos
  generalize hall : a ++ (g ++ (c ++ (g' ++ b))) = all
  have wm := Token.link_wellMarked all
  obtain ⟨B, -⟩ := Parser.exists_plain_reading wm
  -- each of the five stands where its tokens do
  have hfirst : Stands B .compound 0 a.length n := by
    obtain ⟨t, rest, hnext, hwall⟩ := head_of_gap hg hcpos
    have hback : g ++ (c ++ (g' ++ b)) = t :: (rest ++ (g' ++ b)) := by
      rw [← List.append_assoc, hnext, List.cons_append]
    rw [hback] at hall
    rw [hnext] at hbar
    refine compound_first ha hlexed hall.symm ?_ (fun h => hbar ⟨h.1, h.2⟩) B
    rintro _ ⟨⟩
    exact hwall
  have hgap := gap_stands hg (not_spacing_of_part .combinator hcpos (List.prefix_append c _))
    hall.symm B
  have hcombinator := combinator_stands hc (show all = (a ++ g) ++ (c ++ (g' ++ b)) by
    simp [← hall]) B
  have hgap' := gap_stands hg' (not_spacing_of_part .compound hbpos (List.prefix_refl b))
    (show all = (a ++ g ++ c) ++ (g' ++ b) by simp [← hall]) B
  have hlast := stands_last .compound hb (show all = (a ++ g ++ c ++ g') ++ b by simp [← hall]) B
  simp only [List.length_append] at hcombinator hgap' hlast
  have hsize : Array.size (Token.link all) =
      a.length + g.length + c.length + g'.length + b.length := by
    rw [Token.size_link, ← hall]
    simp only [List.length_append]
    omega
  have hpieces : Pieces B 0 (n :: (gs ++ nc :: (gs' ++ [nb]))) :=
    .cons wm hfirst (.gap wm hgap (.cons wm hcombinator (.gap wm hgap'
      (.cons wm hlast (.none hsize.symm)))))
  have hcover : B.len .selector 0 = Array.size (Token.link all) := by
    have hlead : a.length = 0 + B.len .compound 0 := hfirst.end_eq wm
    have hend : _ = _ + B.len .compound _ := hlast.end_eq wm
    have hstep := value_afterCompound (spacingNodes_end wm hgap) hcombinator.pos
      (hcombinator.end_eq wm) (spacingNodes_end wm hgap') hlast.pos
    have hlt := B.lt_of_len hlast.pos
    have hwalk := selector_of_compound wm hfirst.pos
    rw [Nat.zero_add, ← hlead, value_walk_go (by omega) (by omega) hstep, ← hend, ← hsize,
      B.value_walk, if_neg (Nat.lt_irrefl _)] at hwalk
    exact hwalk
  rw [parse_selector_iff wm B, hfirst.start_eq]
  exact ⟨Nat.zero_lt_of_lt (B.lt_of_len hfirst.pos), hcover, _, hpieces, rfl⟩

theorem bars_of_head (hc : parse (Token.link c) none .combinator = .ok nc)
    (hbar : c.head?.map Token.kind = some .bar) :
    ∃ t u rest, c = t :: u :: rest ∧ t.kind = .bar ∧ u.kind = .bar := by
  have wm := Token.link_wellMarked c
  obtain ⟨C, -⟩ := Parser.exists_plain_reading wm
  have hfirst : Tokens.is (Token.link c) 0 .bar = true := by
    rw [is_iff, Token.kind?_link, ← List.head?_eq_getElem?, hbar]
  have hsecond : Tokens.is (Token.link c) 1 .bar = true := by
    rcases combinator_head wm (stands_of_parse .combinator C hc).pos with hany | ⟨-, hsecond⟩
    · exact (clash (isAny_single hfirst) hany (by decide)).elim
    · exact hsecond
  rw [is_iff, Token.kind?_link] at hsecond
  obtain ⟨t, ht, htk⟩ := Option.map_eq_some_iff.1 hbar
  obtain ⟨rest, rfl⟩ := List.head?_eq_some_iff.1 ht
  rw [List.getElem?_cons_succ, ← List.head?_eq_getElem?] at hsecond
  obtain ⟨u, hu, huk⟩ := Option.map_eq_some_iff.1 hsecond
  obtain ⟨rest, rfl⟩ := List.head?_eq_some_iff.1 hu
  exact ⟨t, u, rest, rfl, htk, huk⟩

/-- A bar behind a name makes a namespace of it, and nothing is left to start a selector with. -/
theorem parse_barred (ha : parse (Token.link a) none .compoundSelector = .ok n) (hg : Gap g gs)
    (hc : parse (Token.link c) none .combinator = .ok nc) (hbar : BarBehindName a (g ++ c)) :
    parse (Token.link (a ++ (g ++ (c ++ back)))) none .selector =
      .error (.unexpectedToken n.start.line) := by
  obtain ⟨⟨id, hid⟩, hbar⟩ := hbar
  have hnogap : g = [] := by
    rcases hg with ⟨rfl, -⟩ | ⟨n, hn, -⟩
    · rfl
    · obtain ⟨t, rest, rfl, ht⟩ := head_of_space hn
      rw [Option.some.inj hbar] at ht
      exact absurd ht (by decide)
  subst hnogap
  obtain ⟨t, u, rest, rfl, ht, hu⟩ := bars_of_head hc hbar
  change parse (Token.link (a ++ t :: u :: (rest ++ back))) none .selector = _
  have wm := Token.link_wellMarked a
  have wm' := Token.link_wellMarked (a ++ t :: u :: (rest ++ back))
  obtain ⟨A, -⟩ := Parser.exists_plain_reading wm
  obtain ⟨B, -⟩ := Parser.exists_plain_reading wm'
  obtain ⟨hpos, hident, -⟩ := (Parser.parse_rule_iff (r := .ident) wm A (by decide) rfl).1 hid
  have hrecurs : Tokens.Recurs softWalls (Token.link a)
      (Token.link (a ++ t :: u :: (rest ++ back))) 0 0 a.length := by
    refine Token.link_recurs [] a (t :: u :: (rest ++ back)) ?_
    rintro _ ⟨⟩
    rw [ht]
    decide
  have hsize := Token.size_link a
  have hkind : ∀ i, Tokens.kind? (Token.link (a ++ t :: u :: (rest ++ back))) (a.length + i) =
      (t :: u :: (rest ++ back))[i]?.map Token.kind := by
    intro i
    rw [Token.kind?_link, List.getElem?_append_right (Nat.le_add_right ..),
      Nat.add_sub_cancel_left]
  obtain ⟨hcompound, hcombinator⟩ := compound_eq_zero_of_bars (A := A) (B := B) hrecurs
    (Nat.le_of_eq hsize) wm' (Nat.le_refl 0) (by omega) (by omega)
    (by rw [Nat.zero_add, is_iff]; exact (hkind 0).trans (congrArg some ht))
    (by rw [Nat.zero_add, is_iff]; exact (hkind 1).trans (congrArg some hu))
  have hstart : n.start = Tokens.position (Token.link (a ++ t :: u :: (rest ++ back))) 0 :=
    (stands_of_parse .compound A ha).start_eq.trans
      (hrecurs.position_eq (Nat.le_refl 0) (by omega)).symm
  rw [hstart]
  refine parse_of_no_part (A := B) wm' ?_ fun part => ?_
  · rw [Token.size_link, List.length_append]
    omega
  · cases part with
    | compound => exact hcompound
    | combinator => exact hcombinator

end

/-- A combinator stands between any two compounds, with white space around it or without, and the
selector holds their nodes. Only if the first compound is a name and the combinator is two bars
right behind it, there is no selector. -/
theorem combinator_joins_compounds {a g c g' b : List Token} {n nc nb : Node} {gs gs' : List Node}
    (ha : parse (Token.link a) none .compoundSelector = .ok n) (hlexed : ∀ t ∈ a, t.Lexed)
    (hg : Gap g gs) (hc : parse (Token.link c) none .combinator = .ok nc) (hg' : Gap g' gs')
    (hb : parse (Token.link b) none .compoundSelector = .ok nb) :
    (¬ BarBehindName a (g ++ c) →
      parse (Token.link (a ++ (g ++ (c ++ (g' ++ b))))) none .selector =
        .ok (.branch .selector (n :: (gs ++ nc :: (gs' ++ [nb]))) n.start)) ∧
    (BarBehindName a (g ++ c) →
      parse (Token.link (a ++ (g ++ (c ++ (g' ++ b))))) none .selector =
        .error (.unexpectedToken n.start.line)) :=
  ⟨parse_joined ha hlexed hg hc hg' hb, parse_barred ha hg hc⟩

/-- Two bars right behind a class are a combinator. -/
theorem combinator_joins_compounds_behind_class :
    let tokens := fun source => (Token.lex source).toList
    parse (Token.link (tokens ".a" ++ ([] ++ (tokens "||" ++ (tokens " " ++ tokens "b"))))) none
      .selector = .ok (.branch .selector
        [.branch .compoundSelector [.branch .classSelector [.leaf .ident "a" ⟨1, 2⟩] ⟨1, 1⟩] ⟨1, 1⟩,
         .leaf .combinator "||" ⟨1, 1⟩, .leaf .space " " ⟨1, 1⟩,
         .branch .compoundSelector [.branch .typeSelector [.leaf .ident "b" ⟨1, 1⟩] ⟨1, 1⟩] ⟨1, 1⟩]
        ⟨1, 1⟩) := by
  intro tokens
  have hname : parse (Token.link (tokens ".a")) none .ident = .error (.unexpectedToken 1) := by
    decide +kernel
  have hspace : Gap (tokens " ") [.leaf .space " " ⟨1, 1⟩] := Or.inr ⟨_, by decide +kernel, rfl⟩
  refine (combinator_joins_compounds (by decide +kernel) (fun t ht => ⟨".a", t, ht, rfl, rfl⟩)
    (Or.inl ⟨rfl, rfl⟩) (by decide +kernel) hspace (by decide +kernel)).1 ?_
  rintro ⟨⟨id, hid⟩, -⟩
  rw [hname] at hid
  cases hid

/-- Two bars right behind a name are no combinator. -/
theorem bars_behind_name_do_not_join :
    ¬ ∀ (a c b : List Token) (n nc nb : Node), (∀ t ∈ a, t.Lexed) → (∀ t ∈ b, t.Lexed) →
      parse (Token.link a) none .compoundSelector = .ok n →
      parse (Token.link c) none .combinator = .ok nc →
      parse (Token.link b) none .compoundSelector = .ok nb →
      parse (Token.link (a ++ (c ++ b))) none .selector =
        .ok (.branch .selector [n, nc, nb] n.start) := by
  intro hall
  generalize hts : (Token.lex "a||b").toList = ts at *
  have hlexed : ∀ t ∈ ts, t.Lexed := fun t ht => ⟨"a||b", t, hts ▸ ht, rfl, rfl⟩
  have hjoined := hall (ts.take 1) ((ts.drop 1).take 2) (ts.drop 3)
    (.branch .compoundSelector [.branch .typeSelector [.leaf .ident "a" ⟨1, 1⟩] ⟨1, 1⟩] ⟨1, 1⟩)
    (.leaf .combinator "||" ⟨1, 2⟩)
    (.branch .compoundSelector [.branch .typeSelector [.leaf .ident "b" ⟨1, 4⟩] ⟨1, 4⟩] ⟨1, 4⟩)
    (fun t ht => hlexed t (List.mem_of_mem_take ht))
    (fun t ht => hlexed t (List.mem_of_mem_drop ht))
    (hts ▸ by decide +kernel) (hts ▸ by decide +kernel) (hts ▸ by decide +kernel)
  have herror : parse (Token.link (ts.take 1 ++ ((ts.drop 1).take 2 ++ ts.drop 3))) none
      .selector = .error (.unexpectedToken 1) := hts ▸ by decide +kernel
  rw [herror] at hjoined
  cases hjoined

/-! ## A combinator before a selector -/

/-- A combinator stands before a selector that starts with a compound, with white space between them
or without, exactly if in the selector a combinator is written between any two compounds; the nodes
of both are kept. -/
theorem combinator_prefixes_explicit_selectors {c g s : List Token} {nc ns : Node} {gs : List Node}
    (hc : parse (Token.link c) none .combinator = .ok nc) (hg : Gap g gs)
    (hs : parse (Token.link s) none .selector = .ok ns)
    (hfirst : ns.children.head?.map Node.kind = some .compoundSelector) (node : Node) :
    parse (Token.link (c ++ (g ++ s))) none .selector = .ok node ↔
      Explicit (partKinds ns.children) ∧
        node = .branch .selector (nc :: (gs ++ ns.children)) nc.start := by
  have wm := Token.link_wellMarked s
  have wm' := Token.link_wellMarked (c ++ (g ++ s))
  obtain ⟨A, -⟩ := Parser.exists_plain_reading wm
  obtain ⟨B, -⟩ := Parser.exists_plain_reading wm'
  obtain ⟨hsize, hlen, children, hpieces, rfl⟩ := (parse_selector_iff wm A).1 hs
  obtain ⟨hpos, hreaches⟩ := reaches_selector_iff wm hsize hlen hpieces hfirst
  have htail := tail_of_part .compound (List.append_assoc c g s).symm hpos
  rw [List.length_append] at htail
  have hcombinator := combinator_stands hc (List.nil_append (c ++ (g ++ s))).symm B
  rw [List.length_nil, Nat.zero_add] at hcombinator
  have hgap := gap_stands hg (not_spacing_of_part .compound hpos (List.prefix_refl s)) rfl B
  have hcover := (covers_behind_combinator htail wm wm' hcombinator hgap hpos).trans hreaches
  have hok : Explicit (partKinds children) → parse (Token.link (c ++ (g ++ s))) none .selector =
      .ok (.branch .selector (nc :: (gs ++ children)) nc.start) := by
    intro hexplicit
    have hmoved := hpieces.moved (B := B) htail wm wm'
    rw [parse_selector_iff wm' B, hcombinator.start_eq]
    exact ⟨Nat.zero_lt_of_lt (B.lt_of_len hcombinator.pos), hcover.2 hexplicit, _,
      .cons wm' hcombinator (.gap wm' hgap hmoved), rfl⟩
  constructor
  · intro hnode
    have hexplicit := hcover.1 ((parse_selector_iff wm' B).1 hnode).2.1
    rw [hok hexplicit] at hnode
    exact ⟨hexplicit, (Except.ok.inj hnode).symm⟩
  · rintro ⟨hexplicit, rfl⟩
    exact hok hexplicit

/-- A selector whose compounds have a combinator between them stands behind one more. -/
theorem combinator_prefixes_explicit_selectors_chain :
    let tokens := fun source => (Token.lex source).toList
    let chain : List Node :=
      [.branch .compoundSelector [.branch .typeSelector [.leaf .ident "a" ⟨1, 1⟩] ⟨1, 1⟩] ⟨1, 1⟩,
       .leaf .combinator ">" ⟨1, 2⟩,
       .branch .compoundSelector [.branch .typeSelector [.leaf .ident "b" ⟨1, 3⟩] ⟨1, 3⟩] ⟨1, 3⟩]
    parse (Token.link (tokens "a>b")) none .selector = .ok (.branch .selector chain ⟨1, 1⟩) ∧
    parse (Token.link (tokens "+" ++ (tokens " " ++ tokens "a>b"))) none .selector =
      .ok (.branch .selector
        (.leaf .combinator "+" ⟨1, 1⟩ :: .leaf .space " " ⟨1, 1⟩ :: chain) ⟨1, 1⟩) := by
  intro tokens chain
  have hplus : parse (Token.link (tokens "+")) none .combinator =
      .ok (.leaf .combinator "+" ⟨1, 1⟩) := by decide +kernel
  have hspace : Gap (tokens " ") [.leaf .space " " ⟨1, 1⟩] := Or.inr ⟨_, by decide +kernel, rfl⟩
  have hchain : parse (Token.link (tokens "a>b")) none .selector =
      .ok (.branch .selector chain ⟨1, 1⟩) := by decide +kernel
  exact ⟨hchain, (combinator_prefixes_explicit_selectors hplus hspace hchain rfl _).2
    ⟨by decide +kernel, rfl⟩⟩

/-- Spacing between the compounds of a selector does not count behind a combinator. -/
theorem combinator_prefixes_not_all_selectors :
    ¬ ∀ (c g s : List Token) (nc ns : Node) (gs : List Node), (∀ t ∈ s, t.Lexed) →
      parse (Token.link c) none .combinator = .ok nc → Gap g gs →
      parse (Token.link s) none .selector = .ok ns →
      ns.children.head?.map Node.kind = some .compoundSelector →
      parse (Token.link (c ++ (g ++ s))) none .selector =
        .ok (.branch .selector (nc :: (gs ++ ns.children)) nc.start) := by
  intro hall
  generalize hts : (Token.lex "> a b").toList = ts at *
  have hlexed : ∀ t ∈ ts, t.Lexed := fun t ht => ⟨"> a b", t, hts ▸ ht, rfl, rfl⟩
  have hspace : Gap ((ts.drop 1).take 1) [.leaf .space " " ⟨1, 2⟩] :=
    Or.inr ⟨_, hts ▸ by decide +kernel, rfl⟩
  have hprefixed := hall (ts.take 1) ((ts.drop 1).take 1) (ts.drop 2)
    (.leaf .combinator ">" ⟨1, 1⟩)
    (.branch .selector
      [.branch .compoundSelector [.branch .typeSelector [.leaf .ident "a" ⟨1, 3⟩] ⟨1, 3⟩] ⟨1, 3⟩,
       .leaf .space " " ⟨1, 4⟩,
       .branch .compoundSelector [.branch .typeSelector [.leaf .ident "b" ⟨1, 5⟩] ⟨1, 5⟩] ⟨1, 5⟩]
      ⟨1, 3⟩) _ (fun t ht => hlexed t (List.mem_of_mem_drop ht))
    (hts ▸ by decide +kernel) hspace (hts ▸ by decide +kernel) rfl
  have herror : parse (Token.link (ts.take 1 ++ ((ts.drop 1).take 1 ++ ts.drop 2))) none
      .selector = .error (.unexpectedToken 1) := hts ▸ by decide +kernel
  rw [herror] at hprefixed
  cases hprefixed

end LessCss
