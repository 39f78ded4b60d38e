import LessCss.Proofs.Spans

/-! No crossing brackets. Links join openers and closers of each type on their own, so links of two
types may cross; but a tree is built only where every bracket outside verbatim text is closed before
the one around it, and where nothing there is garbage. The tokens in verbatim text are found from
the tree: they start where the text of a raw leaf, a filter or a script expression stands. -/

namespace LessCss

open Token.Kind Tokens

/-! ## Verbatim text -/

/-- Whether the token stands in the text of the node, and the text can be anything. -/
def Node.conceals (n : Node) (t : Token) : Bool :=
  match n with
  | .leaf k text start =>
    let p := start.shift k.delimiters.opening
    k.isVerbatim && decide (p ≤ t.start) && decide (t.start < p.advance text)
  | .branch _ _ _ => false

/-- Whether the token stands in verbatim text of one of the nodes, or of one below them. -/
def Node.hides (ns : List Node) (t : Token) : Bool := (visit ns).any (·.conceals t)

/-- The tokens of a stream that stand outside the verbatim text of a tree. -/
def Node.exposed (tree : Node) (ts : Tokens) : List Token :=
  ts.toList.filter fun t => !tree.descendants.any (·.conceals t)

namespace Node

theorem visit_append (ns ms : List Node) : visit (ns ++ ms) = visit ns ++ visit ms := by
  fun_induction visit ns with
  | case1 => rfl
  | case2 n stack ih => rw [List.cons_append, visit, ← List.append_assoc, ih, List.cons_append]

theorem hides_cons (n : Node) (ns : List Node) (t : Token) :
    hides (n :: ns) t = (hides [n] t || hides ns t) := by
  rw [hides, ← List.singleton_append, visit_append, List.any_append]
  rfl

theorem hides_leaf (k : Kind) (text : String) (start : Position) (t : Token) :
    hides [leaf k text start] t = (leaf k text start).conceals t := by
  rw [hides, visit, children, List.nil_append, visit, List.any_cons, List.any_nil, Bool.or_false]

theorem hides_branch (k : Kind) (cs : List Node) (start : Position) (t : Token) :
    hides [branch k cs start] t = hides cs t := by
  rw [hides, visit, children, List.append_nil, List.any_cons]
  rfl

end Node

/-! ## Stretches without their verbatim text -/

/-- The kinds of the tokens from `i` up to `j` that are not hidden. -/
def Tokens.shown (ts : Tokens) (hide : Token → Bool) (i j : Nat) : List Token.Kind :=
  ((ts.extract i j).toList.filter fun t => !hide t).map Token.kind

section
variable {ts : Tokens} {hide hide' : Token → Bool} {i j l lo hi : Nat} {source : String}

theorem Tokens.shown_append (hij : i ≤ j) (hjl : j ≤ l) :
    ts.shown hide i j ++ ts.shown hide j l = ts.shown hide i l := by
  rw [shown, shown, shown, ← List.map_append, ← List.filter_append, ← Array.toList_append,
    extract_append hij hjl]

theorem Tokens.shown_congr
    (h : ∀ m t, i ≤ m → m < j → ts[m]? = some t → hide t = hide' t) :
    ts.shown hide i j = ts.shown hide' i j := by
  refine congrArg (List.map Token.kind) (List.filter_congr fun t ht => ?_)
  obtain ⟨m, him, hmj, hm⟩ := mem_extract ht
  rw [h m t him hmj hm]

theorem Tokens.shown_none (ts : Tokens) (i j : Nat) : ts.shown (fun _ => false) i j = ts.kinds i j := by
  simp [shown, kinds]

theorem Tokens.shown_all (ts : Tokens) (i j : Nat) : ts.shown (fun _ => true) i j = [] := by
  rw [shown, List.filter_eq_nil_iff.2 fun _ _ => by simp]
  rfl

/-- What is hidden lies between `lo` and `hi`. -/
def Tokens.HidesWithin (ts : Tokens) (hide : Token → Bool) (lo hi : Nat) : Prop :=
  ∀ m t, ts[m]? = some t → hide t = true → lo ≤ m ∧ m < hi

theorem Tokens.HidesWithin.mono (h : ts.HidesWithin hide lo hi) (hlo : i ≤ lo) (hhi : hi ≤ j) :
    ts.HidesWithin hide i j := by
  intro m t ht hh
  have := h m t ht hh
  omega

theorem Tokens.HidesWithin.shown_outside (h : ts.HidesWithin hide lo hi) (hout : j ≤ lo ∨ hi ≤ i) :
    ts.shown hide i j = ts.kinds i j := by
  rw [← shown_none, shown_congr fun m t him hmj ht => ?_]
  refine Bool.eq_false_iff.2 fun hh => ?_
  have := h m t ht hh
  omega

/-- The marks around content that hides something show. -/
theorem Tokens.HidesWithin.shown_eq (h : ts.HidesWithin hide lo hi) (hlo : i ≤ lo) (hle : lo ≤ hi)
    (hhi : hi ≤ j) :
    ts.shown hide i j = ts.kinds i lo ++ ts.shown hide lo hi ++ ts.kinds hi j := by
  rw [← shown_append hlo (Nat.le_trans hle hhi), ← shown_append hle hhi,
    h.shown_outside (Or.inl (Nat.le_refl lo)), h.shown_outside (Or.inr (Nat.le_refl hi)),
    List.append_assoc]

/-! ## Marks around orderly content -/

theorem Tokens.Faithful.spelled (hf : ts.Faithful source) : ts.Spelled where
  markup i k hi hk := by
    have htext : ∀ c, k.char? = some c → ts.text i = String.ofList [c] :=
      fun c hc => hf.punctuation i k c hi hc
    cases k
    case garbage =>
      obtain ⟨body, hb⟩ := hf.garbage i hi
      rw [isMarkup, hb, String.toList_append]
      exact Bool.or_true _
    all_goals first
      | exact absurd hk (by decide)
      | (rw [htext _ rfl]; decide)
  closer i k c hc hk := by
    obtain ⟨b, hb⟩ := Option.isSome_iff_exists.1 hk
    have hclose := is_iff.1 (hf.closes i k c b hc hb)
    rw [is, hclose]
    cases b <;> rfl

theorem Enclosed.orderly (hf : ts.Faithful source) {k : Token.Kind} {b : Bracket}
    {ks : List Token.Kind} (h : Enclosed ts k i lo hi j) (hk : k.opens? = some b)
    (hb : b.closer.closes? = some b) (hks : Orderly ks) :
    Orderly (ts.kinds i lo ++ ks ++ ts.kinds hi j) := by
  obtain ⟨hc, rfl, rfl⟩ := h
  rw [kinds_succ (is_of_closer? hc), kinds_succ (hf.closes _ _ _ _ hc hk)]
  exact hks.enclose hk hb

/-- The marks that a kind leaves out keep orderly what is orderly between them. -/
theorem Framed.orderly (hf : ts.Faithful source) {k : Node.Kind} {ks : List Token.Kind}
    (h : Framed ts k i lo hi j) (hks : Orderly ks) :
    Orderly (ts.kinds i lo ++ ks ++ ts.kinds hi j) := by
  have hnone : ∀ i, Orderly (ts.kinds i i) := balanced_self ts
  have hmark : ∀ {i lo hi j : Nat} {c : Token.Kind}, Marked ts c i lo hi j → c.isPlain = true →
      Orderly (ts.kinds i lo ++ ks ++ ts.kinds hi j) := by
    rintro i lo hi j c ⟨hc, rfl, rfl⟩ hb
    exact (Orderly.append (balanced_token hc hb) hks).append (hnone _)
  have hword : ∀ {i lo hi j : Nat} {w : String}, ts.text i = w → w ≠ "" →
      isMarkup w = false → Enclosed ts .leftParen (i + 1) lo hi j →
      Orderly (ts.kinds i lo ++ ks ++ ts.kinds hi j) := by
    intro i lo hi j w hw hne hout henc
    have hgroup := henc.orderly (b := .paren) hf rfl rfl hks
    obtain ⟨_, rfl, _⟩ := henc
    rw [← kinds_append (Nat.le_succ i) (Nat.le_succ (i + 1)), List.append_assoc, List.append_assoc]
    rw [List.append_assoc] at hgroup
    exact Orderly.append (hf.spelled.balanced hw hne hout) hgroup
  cases k with
  | block => exact Enclosed.orderly (b := .curly) hf h rfl rfl hks
  | parentheses => exact Enclosed.orderly (b := .paren) hf h rfl rfl hks
  | arguments => exact Enclosed.orderly (b := .paren) hf h rfl rfl hks
  | brackets => exact Enclosed.orderly (b := .square) hf h rfl rfl hks
  | attributeSelector =>
    obtain ⟨hopen, rfl, hclose, rfl⟩ := h
    rw [kinds_succ hopen, kinds_succ hclose]
    exact hks.enclose (b := .square) rfl rfl
  | percentage =>
    obtain ⟨rfl, hclose, rfl⟩ := h
    exact (Orderly.append (hnone _) hks).append (balanced_token hclose rfl)
  | varList =>
    obtain ⟨rfl, hdots, rfl⟩ := h
    refine (Orderly.append (hnone _) hks).append ?_
    have hks : ∀ k ∈ [Token.Kind.dot], k.isPlain = true := by decide
    exact balanced_run (by omega) hks fun m hm hm' =>
      isAny_iff.2 ⟨_, List.mem_singleton_self _, is_iff.1 (hdots m hm hm')⟩
  | interpolation =>
    obtain ⟨hat, hcurly, rfl, hclose, rfl⟩ := h
    rw [← kinds_append (Nat.le_succ i) (Nat.le_succ (i + 1)), kinds_succ hcurly, kinds_succ hclose,
      List.append_assoc, List.append_assoc]
    exact Orderly.append (balanced_token hat rfl) (hks.enclose (b := .curly) rfl rfl)
  | uri => exact hword h.1 (by decide) (by decide) h.2
  | expression => exact hword h.1 (by decide) (by decide) h.2
  | escapedString => exact hmark h rfl
  | color => exact hmark h rfl
  | idSelector => exact hmark h.1 rfl
  | classSelector => exact hmark h.1 rfl
  | var => exact hmark h.1 rfl
  | atKeyword => exact hmark h.1 rfl
  | pseudoClass => exact hmark h.1 rfl
  | pseudoElement =>
    obtain ⟨hfirst, hsecond, _⟩ := h
    have hrest := hmark hsecond rfl
    obtain ⟨_, rfl, _⟩ := hsecond
    rw [← kinds_append (Nat.le_succ i) (Nat.le_succ (i + 1)), List.append_assoc, List.append_assoc]
    rw [List.append_assoc] at hrest
    exact Orderly.append (balanced_token hfirst rfl) hrest
  | blockComment => exact h.elim
  | lineComment => exact h.elim
  | _ =>
    obtain ⟨rfl, rfl⟩ := h
    exact (Orderly.append (hnone _) hks).append (hnone _)

/-! ## Nodes -/

theorem Tokens.Faithful.position_lt_iff (hf : ts.Faithful source) (hi : i ≤ ts.size)
    (hj : j ≤ ts.size) : ts.position i < ts.position j ↔ i < j := by
  refine ⟨fun h => ?_, fun h => hf.position_lt h hj⟩
  rcases Nat.lt_trichotomy i j with hlt | rfl | hlt
  · exact hlt
  · exact absurd h (Position.lt_irrefl _)
  · have h' := hf.position_lt hlt hi
    rw [Position.lt_def] at h h'
    omega

theorem Tokens.Faithful.position_le_iff (hf : ts.Faithful source) (hi : i ≤ ts.size)
    (hj : j ≤ ts.size) : ts.position i ≤ ts.position j ↔ i ≤ j := by
  constructor
  · rintro (hlt | heq)
    · exact Nat.le_of_lt ((hf.position_lt_iff hi hj).1 hlt)
    · refine Nat.le_of_not_lt fun hlt => ?_
      have h := hf.position_lt hlt hi
      rw [heq] at h
      exact Position.lt_irrefl _ h
  · intro h
    rcases Nat.eq_or_lt_of_le h with rfl | hlt
    · exact Or.inr rfl
    · exact Or.inl (hf.position_lt hlt hj)

/-- A leaf of verbatim text conceals the tokens of its text. -/
theorem conceals_leaf_iff (hf : ts.Faithful source) {k : Node.Kind} (frame : Framed ts k i lo hi j)
    (hle : lo ≤ hi) (hj : j ≤ ts.size) (opening : k.delimiters.opening = k.marks.1.length) {m : Nat}
    {t : Token} (ht : ts[m]? = some t) :
    (Node.leaf k (ts.join lo hi) (ts.position i)).conceals t =
      (k.isVerbatim && decide (lo ≤ m ∧ m < hi)) := by
  obtain ⟨_, hhi, _, _⟩ := frame.marks_eq hf
  have hm := lt_of_getElem? ht
  have hstart : t.start = ts.position m := by rw [position, ht]; rfl
  have hlo := (frame.positions hf hle hj).1
  rw [← opening] at hlo
  simp only [Node.conceals, hlo, hstart, hf.advance lo hi hle (by omega),
    hf.position_le_iff (show lo ≤ ts.size by omega) (Nat.le_of_lt hm),
    hf.position_lt_iff (Nat.le_of_lt hm) (show hi ≤ ts.size by omega), Bool.and_assoc,
    Bool.decide_and]

theorem leaf_orderly (hf : ts.Faithful source) {k : Node.Kind} (frame : Framed ts k i lo hi j)
    (hle : lo ≤ hi) (hj : j ≤ ts.size) (opening : k.delimiters.opening = k.marks.1.length)
    (textual : Textual ts k lo hi) :
    let hide := (Node.leaf k (ts.join lo hi) (ts.position i)).conceals
    ts.HidesWithin hide i j ∧ Orderly (ts.shown hide i j) := by
  intro hide
  have hiff : ∀ {m t}, ts[m]? = some t → hide t = (k.isVerbatim && decide (lo ≤ m ∧ m < hi)) :=
    fun ht => conceals_leaf_iff hf frame hle hj opening ht
  obtain ⟨hlo, hhi, _, _⟩ := frame.marks_eq hf
  have hwithin : ts.HidesWithin hide lo hi := by
    intro m t ht hh
    rw [hiff ht] at hh
    exact of_decide_eq_true (Bool.and_eq_true_iff.1 hh).2
  refine ⟨hwithin.mono hlo hhi, ?_⟩
  rw [hwithin.shown_eq hlo hle hhi]
  refine frame.orderly hf ?_
  cases hk : k.isVerbatim with
  | true =>
    have hall : ts.shown hide lo hi = ts.shown (fun _ => true) lo hi :=
      shown_congr fun m t hm hm' ht => by rw [hiff ht, hk]; simpa using ⟨hm, hm'⟩
    rw [hall, shown_all]
    exact orderly_nil
  | false =>
    have hnone : ts.shown hide lo hi = ts.shown (fun _ => false) lo hi :=
      shown_congr fun m t _ _ ht => by rw [hiff ht, hk]; rfl
    rw [hnone, shown_none]
    exact textual.resolve_left (fun h => Bool.false_ne_true (hk ▸ h.1)) hf.spelled

theorem comment_orderly {k : Node.Kind} {c : Token.Kind} (hk : k.isVerbatim = false)
    (hi : ts.is i c = true) (hc : c.isPlain = true) (text : String) (start : Position) :
    let hide := (Node.leaf k text start).conceals
    ts.HidesWithin hide i (i + 1) ∧ Orderly (ts.shown hide i (i + 1)) := by
  intro hide
  have hnone : hide = fun _ => false := by
    funext t
    simp only [hide, Node.conceals, hk, Bool.false_and]
  rw [hnone, shown_none]
  exact ⟨fun _ _ _ hh => absurd hh Bool.false_ne_true, balanced_token hi hc⟩

mutual
/-- A node hides only tokens of its own, and what shows of its tokens is orderly. -/
theorem Covers.orderly (hf : ts.Faithful source) :
    ∀ {i j : Nat} {n : Node}, Covers ts i j n → j ≤ ts.size →
      ts.HidesWithin (Node.hides [n]) i j ∧ Orderly (ts.shown (Node.hides [n]) i j)
  | _, _, _, .leaf frame le _ opening textual, hj => by
    simp only [funext (Node.hides_leaf _ _ _)]
    exact leaf_orderly hf frame le hj opening textual
  | _, _, _, .blockComment is, _ => by
    simp only [funext (Node.hides_leaf _ _ _)]
    exact comment_orderly rfl is rfl _ _
  | _, _, _, .lineComment is, _ => by
    simp only [funext (Node.hides_leaf _ _ _)]
    exact comment_orderly rfl is rfl _ _
  | _, _, _, .branch frame _ tiles, hj => by
    obtain ⟨hlo, hhi, _, _⟩ := frame.marks_eq hf
    obtain ⟨hwithin, horderly⟩ := tiles.orderly hf (by omega)
    simp only [funext (Node.hides_branch _ _ _)]
    rw [hwithin.shown_eq hlo tiles.le hhi]
    exact ⟨hwithin.mono hlo hhi, frame.orderly hf horderly⟩

theorem Tiles.orderly (hf : ts.Faithful source) :
    ∀ {i j : Nat} {ns : List Node}, Tiles ts i j ns → j ≤ ts.size →
      ts.HidesWithin (Node.hides ns) i j ∧ Orderly (ts.shown (Node.hides ns) i j)
  | i, _, _, .nil, _ => by
    have hnone : Node.hides [] = fun _ => false := by
      funext t
      rw [Node.hides, Node.visit]
      rfl
    rw [hnone, shown_none]
    exact ⟨fun _ _ _ hh => absurd hh Bool.false_ne_true, balanced_self ts i⟩
  | i, l, _, @Tiles.cons _ _ j _ n ns first rest, hl => by
    obtain ⟨hfirst, horderly⟩ := first.orderly hf (Nat.le_trans rest.le hl)
    obtain ⟨hrest, horderly'⟩ := rest.orderly hf hl
    refine ⟨fun m t ht hh => ?_, ?_⟩
    · have hij := first.le
      have hjl := rest.le
      rw [Node.hides_cons, Bool.or_eq_true] at hh
      rcases hh with hh | hh
      · have := hfirst m t ht hh
        omega
      · have := hrest m t ht hh
        omega
    · -- each part hides nothing of the other one
      have hleft : ts.shown (Node.hides (n :: ns)) i j = ts.shown (Node.hides [n]) i j :=
        shown_congr fun m t _ hm ht => by
          have hno : Node.hides ns t = false := Bool.eq_false_iff.2 fun hh => by
            have := hrest m t ht hh
            omega
          rw [Node.hides_cons, hno, Bool.or_false]
      have hright : ts.shown (Node.hides (n :: ns)) j l = ts.shown (Node.hides ns) j l :=
        shown_congr fun m t hm _ ht => by
          have hno : Node.hides [n] t = false := Bool.eq_false_iff.2 fun hh => by
            have := hfirst m t ht hh
            omega
          rw [Node.hides_cons, hno, Bool.false_or]
      rw [← shown_append first.le rest.le, hleft, hright]
      exact horderly.append horderly'
end

/-- A node hides only tokens of its own, and what shows of its tokens is neutral. -/
theorem Covers.neutral (hf : ts.Faithful source) {n : Node} (h : Covers ts i j n)
    (hj : j ≤ ts.size) :
    ts.HidesWithin (Node.hides [n]) i j ∧ Neutral (ts.shown (Node.hides [n]) i j) :=
  ⟨(h.orderly hf hj).1, (h.orderly hf hj).2.neutral⟩

end

/-- Outside the verbatim text of its tree, the brackets of a source are properly nested. -/
theorem brackets_nest (source : String) (start : Symbol) (tree : Node)
    (h : parseText source start = .ok tree) :
    Nested ((tree.exposed (Token.lex source)).map Token.kind) := by
  have hf := Token.lex_faithful source
  rcases parse_covers h with ⟨rfl, rfl⟩ | ⟨_, hcovers⟩
  · have hempty : Token.lex "" = #[] := by decide +kernel
    rw [Node.exposed, hempty]
    exact neutral_nil.nested
  · have hneutral := (hcovers.neutral hf (Nat.le_refl _)).2
    rw [shown, Array.extract_size] at hneutral
    exact hneutral.nested

/-- The square brackets are linked across the ends of two groups, and stand in verbatim text. -/
theorem brackets_nest_sample :
    ∃ tree, parseText "a\x7bb:url(c[) expression(])\x7d" .stylesheet = .ok tree ∧
      Nested ((tree.exposed (Token.lex "a\x7bb:url(c[) expression(])\x7d")).map Token.kind) := by
  have hok : (parseText "a\x7bb:url(c[) expression(])\x7d" .stylesheet).isOk = true := by
    decide +kernel
  cases h : parseText "a\x7bb:url(c[) expression(])\x7d" .stylesheet with
  | ok tree => exact ⟨tree, rfl, brackets_nest _ _ tree h⟩
  | error e =>
    rw [h] at hok
    cases hok

end LessCss
