import LessCss.Node.Traversal
import LessCss.Proofs.Lossless

/-! Where nodes start and stop. A node starts where its first token does, and stops where its last
one does: the places that a node reckons from its content and the widths of its marks are those of
the tokens. So every node is a slice of the source, and neighbours touch. -/

namespace LessCss

/-- Marks hold no line break, so their width is their length. -/
theorem Node.Kind.advance_marks (k : Node.Kind) (p : Position) :
    p.advance k.marks.1 = p.shift k.marks.1.length ∧
      p.advance k.marks.2 = p.shift k.delimiters.closing := by
  cases k <;> exact ⟨rfl, rfl⟩

open Tokens

variable {ts : Tokens} {source : String} {i j lo hi : Nat}

/-! ## Nodes and tokens -/

/-- A later token starts later. -/
theorem Tokens.Faithful.position_lt (hf : ts.Faithful source) (hij : i < j) (hj : j ≤ ts.size) :
    ts.position i < ts.position j := by
  rw [← hf.advance i j (Nat.le_of_lt hij) hj]
  refine Position.lt_advance _ fun he => ?_
  rw [← join_append (Nat.le_succ i) hij, join_succ] at he
  exact hf.text_ne i (by omega) (String.append_eq_empty_iff.1 he).1

/-- A kind that can be empty has its opening mark counted. -/
theorem Framed.opening_eq_of_empty {k : Node.Kind} (h : Framed ts k i lo lo j) :
    k.delimiters.opening = k.marks.1.length := by
  cases k <;> first
    | rfl
    | (simp only [Framed, Marked] at h; omega)

/-- Where the content of a node starts and where its closing mark ends. -/
theorem Framed.positions (hf : ts.Faithful source) {k : Node.Kind} (h : Framed ts k i lo hi j)
    (hle : lo ≤ hi) (hj : j ≤ ts.size) :
    (ts.position i).shift k.marks.1.length = ts.position lo ∧
      (ts.position hi).shift k.delimiters.closing = ts.position j := by
  obtain ⟨hlo, hhi, hopen, hclose⟩ := h.marks_eq hf
  rw [← hf.advance i lo hlo (by omega), ← hf.advance hi j hhi hj, hopen, hclose,
    (k.advance_marks _).1, (k.advance_marks _).2]
  exact ⟨rfl, rfl⟩

theorem Covers.start_eq {n : Node} (h : Covers ts i j n) : n.start = ts.position i := by
  cases h <;> rfl

mutual
/-- A node stops where its last token does. -/
theorem Covers.stop_eq (hf : ts.Faithful source) :
    ∀ {i j : Nat} {n : Node}, Covers ts i j n → j ≤ ts.size → n.stop = ts.position j
  | _, _, _, .leaf frame le _ opening _, hj => by
    obtain ⟨hlo, hhi, _, _⟩ := frame.marks_eq hf
    obtain ⟨hopen, hclose⟩ := frame.positions hf le hj
    rw [Node.stop_leaf, Node.leafStop, opening, hopen, hf.advance _ _ le (by omega), hclose]
  | _, _, _, .blockComment is, hj => by
    obtain ⟨body, hb⟩ := hf.blockComment _ is
    rw [Node.stop_leaf, Node.leafStop, ← hf.advance _ _ (Nat.le_succ _) hj, join_succ, hb,
      String.append_assoc, Text.dropFront_append, Text.dropBack_append,
      Position.advance_append _ "/*" _ (by simp), Position.advance_append _ body "*/" (by simp)]
    rfl
  | _, _, _, .lineComment is, hj => by
    obtain ⟨body, hb⟩ := hf.lineComment _ is
    rw [Node.stop_leaf, Node.leafStop, ← hf.advance _ _ (Nat.le_succ _) hj, join_succ, hb,
      Text.dropFront_append, Position.advance_append _ "//" _ (by simp)]
    rfl
  | _, _, _, .branch frame _ tiles, hj => by
    obtain ⟨hlo, hhi, _, _⟩ := frame.marks_eq hf
    obtain ⟨hopen, hclose⟩ := frame.positions hf tiles.le hj
    rw [Node.stop_branch, Node.branchStop, tiles.lastStop_eq hf (by omega) fun hnil => ?_, hclose]
    subst hnil
    cases tiles
    rw [frame.opening_eq_of_empty, hopen]

theorem Tiles.lastStop_eq (hf : ts.Faithful source) : ∀ {i j : Nat} {ns : List Node} {p : Position},
    Tiles ts i j ns → j ≤ ts.size → (ns = [] → p = ts.position i) →
      Node.lastStop p ns = ts.position j
  | _, _, _, _, .nil, _, hp => by rw [Node.lastStop, hp rfl]
  | _, _, _, _, .cons first .nil, hj, _ => by rw [Node.lastStop, first.stop_eq hf hj]
  | _, _, _, _, .cons _ (.cons second rest), hj, _ => by
    rw [Node.lastStop]
    exact (Tiles.cons second rest).lastStop_eq hf hj fun h => (nomatch h)
end

/-- Only a raw text can be empty, and it is when it stands for no token. -/
theorem Covers.lt_iff (hf : ts.Faithful source) {n : Node} (h : Covers ts i j n)
    (hj : j ≤ ts.size) : i < j ↔ ¬ (n.kind = .raw ∧ n.text? = some "") := by
  constructor
  · rintro hij ⟨hkind, htext⟩
    cases h with
    | leaf frame _ _ _ =>
      cases hkind
      obtain ⟨rfl, rfl⟩ := frame
      -- an empty text does not lead on, but the next token starts later
      have hlt := hf.position_lt hij hj
      rw [← hf.advance _ _ (Nat.le_of_lt hij) hj, Option.some.inj htext] at hlt
      exact Position.lt_irrefl _ hlt
    | blockComment _ => cases hkind
    | lineComment _ => cases hkind
    | branch _ _ _ => cases htext
  · intro hne
    cases h with
    | leaf frame _ lt _ =>
      rcases lt with hij | ⟨rfl, hij⟩
      · exact hij
      · obtain ⟨rfl, rfl⟩ := frame
        refine Nat.lt_of_le_of_ne hij fun he => hne ⟨rfl, ?_⟩
        rw [Node.text?, he, join_self]
    | blockComment _ => exact Nat.lt_succ_self _
    | lineComment _ => exact Nat.lt_succ_self _
    | branch _ lt _ => exact lt

/-! ## All nodes of a tree -/

theorem Node.forall_visit {P : Node → Prop} (hdown : ∀ n, P n → ∀ c ∈ n.children, P c)
    (stack : List Node) (h : ∀ n ∈ stack, P n) : ∀ n ∈ visit stack, P n := by
  fun_induction visit stack with
  | case1 => exact h
  | case2 n stack ih =>
    have hn : P n := h n List.mem_cons_self
    refine List.forall_mem_cons.2 ⟨hn, ih fun m hm => ?_⟩
    rcases List.mem_append.1 hm with hm | hm
    · exact hdown n hn m hm
    · exact h m (List.mem_cons_of_mem _ hm)

theorem Tiles.mem {ns : List Node} {n : Node} (h : Tiles ts i j ns) (hn : n ∈ ns) :
    ∃ lo hi, hi ≤ j ∧ Covers ts lo hi n := by
  induction ns generalizing i with
  | nil => cases hn
  | cons m ns ih =>
    cases h with
    | cons first rest =>
      rcases List.mem_cons.1 hn with rfl | hn
      · exact ⟨_, _, rest.le, first⟩
      · exact ih rest hn

/-- What a node stands for holds what its children stand for. -/
theorem Covers.child (hf : ts.Faithful source) {n c : Node} (h : Covers ts i j n)
    (hc : c ∈ n.children) : ∃ lo hi, hi ≤ j ∧ Covers ts lo hi c := by
  cases h with
  | branch frame _ tiles =>
    obtain ⟨lo, hi, hle, hcovers⟩ := tiles.mem hc
    exact ⟨lo, hi, Nat.le_trans hle (frame.marks_eq hf).2.1, hcovers⟩
  | leaf _ _ _ _ => cases hc
  | blockComment _ => cases hc
  | lineComment _ => cases hc

/-- Neighbours touch: the one stops where the next starts. -/
theorem Tiles.chain (hf : ts.Faithful source) {ns : List Node} (h : Tiles ts i j ns)
    (hj : j ≤ ts.size) : ns.IsChain (fun left right => left.stop = right.start) := by
  induction ns generalizing i with
  | nil => exact .nil
  | cons n ns ih =>
    cases h with
    | cons first rest =>
      cases ns with
      | nil => exact .singleton n
      | cons m ms =>
        refine .cons_cons ?_ (ih rest)
        have hle := rest.le
        rw [first.stop_eq hf (by omega)]
        cases rest with
        | cons second _ => exact second.start_eq.symm

/-- A node stands in a source: it is a slice of it that starts and stops where the text around it
leads, its children touch, and it is empty only as the sheet of the empty source or as a raw
text. -/
structure Node.Within (source : String) (n : Node) : Prop where
  slice : ∃ before after, source = before ++ n.reprint ++ after ∧
    n.start = Position.origin.advance before ∧
    n.stop = Position.origin.advance (before ++ n.reprint)
  touching : n.children.IsChain fun left right => left.stop = right.start
  proper : n.start < n.stop ↔
    ¬ (source = "" ∧ n.kind = .stylesheet ∨ n.kind = .raw ∧ n.text? = some "")

theorem Covers.within (hf : ts.Faithful source) (hne : source ≠ "") {n : Node}
    (h : Covers ts i j n) (hj : j ≤ ts.size) : n.Within source where
  slice := by
    have hij := h.le
    have hpos : ∀ m ≤ ts.size, Position.origin.advance (ts.join 0 m) = ts.position m := by
      intro m hm
      rw [← hf.origin, hf.advance 0 m (Nat.zero_le m) hm]
    refine ⟨ts.join 0 i, ts.join j ts.size, ?_, ?_, ?_⟩
    · rw [h.reprint_eq hf, join_append (Nat.zero_le i) hij, join_append (Nat.zero_le j) hj]
      exact hf.join_all.symm
    · rw [h.start_eq, hpos i (by omega)]
    · rw [h.stop_eq hf hj, h.reprint_eq hf, join_append (Nat.zero_le i) hij, hpos j hj]
  touching := by
    cases h with
    | branch frame _ tiles =>
      exact tiles.chain hf (Nat.le_trans (frame.marks_eq hf).2.1 hj)
    | leaf _ _ _ _ => exact .nil
    | blockComment _ => exact .nil
    | lineComment _ => exact .nil
  proper := by
    have hlt := h.lt_iff hf hj
    rw [h.start_eq, h.stop_eq hf hj, or_iff_right fun he => hne he.1, ← hlt]
    refine ⟨fun hpos => Nat.lt_of_le_of_ne h.le ?_, fun hij => hf.position_lt hij hj⟩
    rintro rfl
    exact Position.lt_irrefl _ hpos

theorem Node.within_empty : (Node.branch .stylesheet [] .origin).Within "" where
  slice := ⟨"", "", rfl, rfl, rfl⟩
  touching := .nil
  proper := iff_of_false (Position.lt_irrefl _) fun hne => hne (Or.inl ⟨rfl, rfl⟩)

/-- Every node of the tree of a source stands in the source, and the tree is all of it. -/
theorem parseText_spans (source : String) (start : Symbol) (tree : Node)
    (h : parseText source start = .ok tree) : tree.start = .origin ∧
      tree.stop = Position.origin.advance source ∧ ∀ n ∈ tree.descendants, n.Within source := by
  have hf := Token.lex_faithful source
  rcases parse_covers h with ⟨rfl, rfl⟩ | ⟨hne, hcovers⟩
  · refine ⟨rfl, rfl, fun n hn => ?_⟩
    rw [Node.descendants, Node.visit, Node.children, List.append_nil, Node.visit,
      List.mem_singleton] at hn
    exact hn ▸ Node.within_empty
  · refine ⟨?_, ?_, ?_⟩
    · rw [hcovers.start_eq]
      exact hf.origin
    · rw [hcovers.stop_eq hf (Nat.le_refl _), ← hf.advance 0 _ (Nat.zero_le _) (Nat.le_refl _),
        hf.origin, hf.join_all]
    · let P (n : Node) := ∃ i j, j ≤ (Token.lex source).size ∧ Covers (Token.lex source) i j n
      have hdown : ∀ n, P n → ∀ c ∈ n.children, P c := by
        rintro n ⟨i, j, hj, hn⟩ c hc
        obtain ⟨lo, hi, hle, hcov⟩ := hn.child hf hc
        exact ⟨lo, hi, Nat.le_trans hle hj, hcov⟩
      intro n hn
      obtain ⟨i, j, hj, hcov⟩ := Node.forall_visit hdown [tree]
        (List.forall_mem_singleton.2 ⟨0, _, Nat.le_refl _, hcovers⟩) n hn
      exact hcov.within hf hne hj

/-- A comment over two lines, and an address with nothing in it. -/
theorem parseText_spans_sample :
    ∃ tree, parseText "/* a\r\n*/b\x7bc:url()\x7d" .stylesheet = .ok tree ∧
      tree.start = .origin ∧ tree.stop = ⟨2, 13⟩ ∧
      ∀ n ∈ tree.descendants, n.Within "/* a\r\n*/b\x7bc:url()\x7d" := by
  have hok : (parseText "/* a\r\n*/b\x7bc:url()\x7d" .stylesheet).isOk = true := by
    decide +kernel
  cases h : parseText "/* a\r\n*/b\x7bc:url()\x7d" .stylesheet with
  | ok tree =>
    obtain ⟨hstart, hstop, hall⟩ := parseText_spans _ _ tree h
    exact ⟨tree, rfl, hstart, hstop.trans (by decide +kernel), hall⟩
  | error e =>
    rw [h] at hok
    cases hok

end LessCss
