import LessCss.Node.Dump
import LessCss.Proofs.Quoting
import Mathlib.Data.List.Nodup

/-! The listing of a tree can be read back. Lines are told apart by their line breaks, since no line
holds one; a line tells its level by its blanks, and its kind, its quoted text if there is one and
its stretch by the blanks between them. From the levels and the lines the tree follows: the lines
below a node are those of a deeper level behind it. -/

namespace LessCss

/-! ## Cutting a text at a mark -/

/-- The first mark of a text says what stands before and behind it. -/
theorem Text.eq_of_cut_first {α : Type} {x : α} {a b s t : List α} (ha : x ∉ a) (hb : x ∉ b)
    (h : a ++ x :: s = b ++ x :: t) : a = b ∧ s = t := by
  induction a generalizing b with
  | nil =>
    cases b with
    | nil => exact ⟨rfl, (List.cons.inj h).2⟩
    | cons c b =>
      obtain ⟨rfl, -⟩ := List.cons.inj h
      exact absurd List.mem_cons_self hb
  | cons c a ih =>
    cases b with
    | nil =>
      obtain ⟨rfl, -⟩ := List.cons.inj h
      exact absurd List.mem_cons_self ha
    | cons d b =>
      obtain ⟨rfl, hrest⟩ := List.cons.inj h
      obtain ⟨rfl, hst⟩ := ih (fun hx => ha (List.mem_cons_of_mem _ hx))
        (fun hx => hb (List.mem_cons_of_mem _ hx)) hrest
      exact ⟨rfl, hst⟩

/-- And so does the last one. -/
theorem Text.eq_of_cut_last {α : Type} {x : α} {a b s t : List α} (hs : x ∉ s) (ht : x ∉ t)
    (h : a ++ x :: s = b ++ x :: t) : a = b ∧ s = t := by
  have hrev : s.reverse ++ x :: a.reverse = t.reverse ++ x :: b.reverse := by
    simpa using congrArg List.reverse h
  obtain ⟨hst, hab⟩ := eq_of_cut_first (by simpa using hs) (by simpa using ht) hrev
  exact ⟨List.reverse_injective hab, List.reverse_injective hst⟩

/-! ## Stretches -/

namespace Position

/-- The digits of a number. -/
abbrev digits (n : Nat) : List Char := Nat.toDigits 10 n

theorem isDigit_of_mem_digits {n : Nat} {c : Char} (h : c ∈ digits n) : c.isDigit = true :=
  Nat.isDigit_of_mem_toDigits (by decide) (by decide) h

theorem notMem_digits {n : Nat} {c : Char} (hc : c.isDigit = false) : c ∉ digits n := by
  intro h
  rw [isDigit_of_mem_digits h] at hc
  cases hc

theorem digits_injective : Function.Injective digits := by
  intro m n h
  have hval := congrArg (Nat.ofDigitChars 10 · 0) h
  simpa [digits] using hval

theorem toList_renderSpan (p q : Position) : (p.renderSpan q).toList =
    digits p.line ++ ':' :: (digits p.column ++ '.' ::
      ('.' :: (digits q.line ++ ':' :: digits q.column))) := by
  simp [renderSpan, render]

/-- A stretch is written with digits, colons and dots. -/
theorem notMem_renderSpan {c : Char} (hc : c.isDigit = false ∧ c ≠ ':' ∧ c ≠ '.') (p q : Position) :
    c ∉ (p.renderSpan q).toList := by
  simp only [toList_renderSpan, List.mem_append, List.mem_cons, not_or]
  exact ⟨notMem_digits hc.1, hc.2.1, notMem_digits hc.1, hc.2.2, hc.2.2, notMem_digits hc.1,
    hc.2.1, notMem_digits hc.1⟩

/-- A stretch tells where it starts. -/
theorem start_of_renderSpan {p q p' q' : Position}
    (h : (p.renderSpan q).toList = (p'.renderSpan q').toList) : p = p' := by
  rw [toList_renderSpan, toList_renderSpan] at h
  obtain ⟨hline, hrest⟩ := Text.eq_of_cut_first (notMem_digits rfl) (notMem_digits rfl) h
  obtain ⟨hcolumn, -⟩ := Text.eq_of_cut_first (notMem_digits rfl) (notMem_digits rfl) hrest
  cases p
  cases p'
  exact congrArg₂ Position.mk (digits_injective hline) (digits_injective hcolumn)

end Position

namespace Node

/-! ## A line -/

/-- A kind's name is a word of letters. -/
theorem Kind.name_word (k : Kind) : k.name ≠ "" ∧ ∀ c, c.isAlpha = false → c ∉ k.name.toList := by
  have hall : ∀ k ∈ all, k.name ≠ "" ∧ k.name.toList.all Char.isAlpha = true := by decide +kernel
  obtain ⟨hne, hletters⟩ := hall k k.mem_all
  refine ⟨hne, fun c hc hmem => ?_⟩
  rw [List.all_eq_true.1 hletters c hmem] at hc
  cases hc

theorem Kind.name_injective : Function.Injective Kind.name := by
  have hnodup : (all.map name).Nodup := by decide +kernel
  exact fun k k' h => List.inj_on_of_nodup_map hnodup k.mem_all k'.mem_all h

/-- Blanks in front are told apart from what does not start with one. -/
theorem eq_of_blanks {a b : List Char} {m n : Nat} (ha : a.head? ≠ some ' ')
    (hb : b.head? ≠ some ' ') (h : List.replicate m ' ' ++ a = List.replicate n ' ' ++ b) :
    m = n ∧ a = b := by
  induction m generalizing n with
  | zero =>
    cases n with
    | zero => exact ⟨rfl, h⟩
    | succ n => exact absurd (congrArg List.head? h) ha
  | succ m ih =>
    cases n with
    | zero => exact absurd (congrArg List.head? h).symm hb
    | succ n =>
      obtain ⟨rfl, hab⟩ := ih (List.cons.inj h).2
      exact ⟨rfl, hab⟩

section
variable (quote : String → String)

/-- What stands in a line behind the kind. -/
def details : Node → List Char
  | leaf k t s => (quote t).toList ++ ' ' :: (s.renderSpan (leaf k t s).stop).toList
  | branch k cs s => (s.renderSpan (branch k cs s).stop).toList

theorem toList_line (depth : Nat) (n : Node) : (line quote depth n).toList =
    List.replicate (2 * depth) ' ' ++ (n.kind.name.toList ++ ' ' :: n.details quote) := by
  cases n <;> simp [line, indent, headline, details, kind]

end

/-- What a line shows of a node. -/
def label (n : Node) : Kind × Option String × Position := (n.kind, n.text?, n.start)

section
variable {quote : String → String} (hq : Text.Quoting quote)
include hq

theorem line_one_line (depth : Nat) (n : Node) : '\n' ∉ (line quote depth n).toList := by
  have hspan : ∀ p q : Position, '\n' ∉ (p.renderSpan q).toList :=
    Position.notMem_renderSpan (by decide)
  have hdetails : '\n' ∉ n.details quote := by
    cases n with
    | leaf k t s =>
      rw [details, List.mem_append, List.mem_cons]
      rintro (h | h | h)
      · exact hq.one_line t h
      · cases h
      · exact hspan _ _ h
    | branch k cs s => exact hspan _ _
  rw [toList_line, List.mem_append, List.mem_append, List.mem_cons, List.mem_replicate]
  rintro (⟨_, h⟩ | h | h | h)
  · cases h
  · exact n.kind.name_word.2 _ (by decide) h
  · cases h
  · exact hdetails h

/-- What stands behind the kind tells the text, if there is one, and the start. -/
theorem text_and_start_of_details {m n : Node} (h : m.details quote = n.details quote) :
    m.text? = n.text? ∧ m.start = n.start := by
  have hspan : ∀ p q : Position, ' ' ∉ (p.renderSpan q).toList :=
    Position.notMem_renderSpan (by decide)
  cases m with
  | leaf k t s =>
    cases n with
    | leaf k' t' s' =>
      obtain ⟨ht, hs⟩ := Text.eq_of_cut_last (hspan _ _) (hspan _ _) h
      exact ⟨congrArg some (hq.injective (String.toList_inj.1 ht)), Position.start_of_renderSpan hs⟩
    | branch k' cs' s' =>
      refine absurd ?_ (hspan s' (branch k' cs' s').stop)
      rw [← details, ← h, details]
      simp
  | branch k cs s =>
    cases n with
    | leaf k' t' s' =>
      refine absurd ?_ (hspan s (branch k cs s).stop)
      rw [← details, h, details]
      simp
    | branch k' cs' s' => exact ⟨rfl, Position.start_of_renderSpan h⟩

/-- A line tells its level, and of the node all but what is below it. -/
theorem level_and_label_of_line {d e : Nat} {m n : Node} (h : line quote d m = line quote e n) :
    d = e ∧ m.label = n.label := by
  have hhead : ∀ (n : Node) (rest : List Char),
      (n.kind.name.toList ++ rest).head? ≠ some ' ' := by
    intro n rest hhead
    obtain ⟨hne, hletters⟩ := n.kind.name_word
    rw [List.head?_append_of_ne_nil _ fun hnil => hne (String.toList_inj.1 hnil)] at hhead
    exact hletters ' ' (by decide) (List.mem_of_head? hhead)
  have hlist := congrArg String.toList h
  rw [toList_line, toList_line] at hlist
  obtain ⟨hlevel, hrest⟩ := eq_of_blanks (hhead m _) (hhead n _) hlist
  obtain ⟨hname, hdetails⟩ := Text.eq_of_cut_first (m.kind.name_word.2 ' ' (by decide))
    (n.kind.name_word.2 ' ' (by decide)) hrest
  obtain ⟨htext, hstart⟩ := text_and_start_of_details hq hdetails
  have hkind := Kind.name_injective (String.toList_inj.1 hname)
  exact ⟨by omega, by rw [label, label, hkind, htext, hstart]⟩

end

/-! ## All lines -/

mutual
/-- A node that stands at a level and all below it, each with its level. -/
def leveled (depth : Nat) : Node → List (Nat × Node)
  | leaf k t s => [(depth, leaf k t s)]
  | branch k cs s => (depth, branch k cs s) :: leveledAll (depth + 1) cs

/-- Some nodes that stand at a level and all below them, each with its level. -/
def leveledAll (depth : Nat) : List Node → List (Nat × Node)
  | [] => []
  | n :: ns => leveled depth n ++ leveledAll depth ns
end

section
variable (quote : String → String)

mutual
theorem dumpAt_eq : ∀ (depth : Nat) (n : Node),
    dumpAt quote depth n = String.join ((leveled depth n).map fun x => line quote x.1 x.2 ++ "\n")
  | depth, leaf k t s => by simp [dumpAt, leveled]
  | depth, branch k cs s => by
    rw [dumpAt, leveled, List.map_cons, String.join_cons, dumpAll_eq (depth + 1) cs]

theorem dumpAll_eq : ∀ (depth : Nat) (ns : List Node),
    dumpAll quote depth ns =
      String.join ((leveledAll depth ns).map fun x => line quote x.1 x.2 ++ "\n")
  | _, [] => by simp [dumpAll, leveledAll]
  | depth, n :: ns => by
    rw [dumpAll, leveledAll, List.map_append, String.join_append, dumpAt_eq depth n,
      dumpAll_eq depth ns]
end

end

/-- What a line at a level shows. -/
def entry (x : Nat × Node) : Nat × Kind × Option String × Position := (x.1, x.2.label)

/-- Equal listings have equal lines, and those show the same. -/
theorem entries_eq_of_join {quote : String → String} (hq : Text.Quoting quote)
    {xs ys : List (Nat × Node)}
    (h : String.join (xs.map fun x => line quote x.1 x.2 ++ "\n") =
      String.join (ys.map fun x => line quote x.1 x.2 ++ "\n")) :
    xs.map entry = ys.map entry := by
  induction xs generalizing ys with
  | nil =>
    cases ys with
    | nil => rfl
    | cons y ys =>
      have hlist := congrArg String.toList h
      simp at hlist
  | cons x xs ih =>
    cases ys with
    | nil =>
      have hlist := congrArg String.toList h
      simp at hlist
    | cons y ys =>
      have hlist := congrArg String.toList h
      simp only [List.map_cons, String.join_cons, String.toList_append, List.append_assoc] at hlist
      obtain ⟨hline, hrest⟩ :=
        Text.eq_of_cut_first (line_one_line hq x.1 x.2) (line_one_line hq y.1 y.2) hlist
      obtain ⟨hlevel, hlabel⟩ := level_and_label_of_line hq (String.toList_inj.1 hline)
      rw [List.map_cons, List.map_cons, ih (String.toList_inj.1 hrest), entry, entry, hlevel, hlabel]

/-! ## The tree -/

/-- The first of some lines, if there is one, is not below level `depth`. -/
def Above (depth : Nat) (xs : List (Nat × Kind × Option String × Position)) : Prop :=
  ∀ x ∈ xs.head?, x.1 ≤ depth

section
variable {depth : Nat} {n : Node} {ns : List Node}
  {xs : List (Nat × Kind × Option String × Position)}

theorem leveled_head? (depth : Nat) (n : Node) : (leveled depth n).head? = some (depth, n) := by
  cases n <;> rfl

theorem entries_head? : ((leveledAll depth (n :: ns)).map entry ++ xs).head? =
    some (entry (depth, n)) := by
  rw [leveledAll, List.map_append, List.append_assoc, List.head?_append, List.head?_map,
    leveled_head?]
  rfl

theorem Above.behind (h : Above depth xs) :
    Above (depth + 1) ((leveledAll (depth + 1) ns).map entry ++ xs) := by
  intro x hx
  cases ns with
  | nil => exact Nat.le_succ_of_le (h x hx)
  | cons n ns =>
    rw [entries_head?] at hx
    cases hx
    exact Nat.le_refl _

theorem not_above : ¬ Above depth ((leveledAll (depth + 1) (n :: ns)).map entry ++ xs) :=
  fun h => Nat.not_succ_le_self depth (h _ entries_head?)

end

mutual
/-- The lines of a node and what follows them, up to its level, tell the node. -/
theorem eq_of_entries : ∀ (m n : Node) {depth : Nat}
    {xs ys : List (Nat × Kind × Option String × Position)}, Above depth xs → Above depth ys →
    (leveled depth m).map entry ++ xs = (leveled depth n).map entry ++ ys → m = n ∧ xs = ys
  | leaf k t s, leaf k' t' s', _, _, _, _, _, h => by
    simp [leveled, entry, label, kind, text?, start] at h
    simp [h]
  | leaf .., branch .., _, _, _, _, _, h => by
    simp [leveled, entry, label, text?] at h
  | branch .., leaf .., _, _, _, _, _, h => by
    simp [leveled, entry, label, text?] at h
  | branch k cs s, branch k' cs' s', depth, _, _, hxs, hys, h => by
    simp only [leveled, List.map_cons, List.cons_append, List.cons.injEq] at h
    obtain ⟨hentry, hrest⟩ := h
    obtain ⟨rfl, rfl⟩ := eq_of_entriesAll cs cs' hxs hys hrest
    simp [entry, label, kind, text?, start] at hentry
    simp [hentry]

theorem eq_of_entriesAll : ∀ (ms ns : List Node) {depth : Nat}
    {xs ys : List (Nat × Kind × Option String × Position)}, Above depth xs → Above depth ys →
    (leveledAll (depth + 1) ms).map entry ++ xs = (leveledAll (depth + 1) ns).map entry ++ ys →
    ms = ns ∧ xs = ys
  | [], [], _, _, _, _, _, h => ⟨rfl, h⟩
  | [], _ :: _, _, xs, _, hxs, _, h => by
    have hall : xs = _ := h
    rw [hall] at hxs
    exact absurd hxs not_above
  | _ :: _, [], _, _, ys, _, hys, h => by
    have hall : _ = ys := h
    rw [← hall] at hys
    exact absurd hys not_above
  | m :: ms, n :: ns, _, _, _, hxs, hys, h => by
    rw [leveledAll, leveledAll, List.map_append, List.map_append, List.append_assoc,
      List.append_assoc] at h
    obtain ⟨rfl, hrest⟩ := eq_of_entries m n hxs.behind hys.behind h
    obtain ⟨rfl, hend⟩ := eq_of_entriesAll ms ns hxs hys hrest
    exact ⟨rfl, hend⟩
end

/-- Trees with the same listing are the same, down to kinds, texts and places, whatever way to put
texts in quotes keeps them apart and on one line. -/
theorem dumpWith_injective {quote : String → String} (hq : Text.Quoting quote) :
    Function.Injective (dumpWith quote) := by
  intro m n h
  rw [dumpWith, dumpWith, dumpAt_eq, dumpAt_eq] at h
  have hentries := entries_eq_of_join hq h
  have hnone : Above 0 [] := nofun
  exact (eq_of_entries m n hnone hnone (congrArg (· ++ []) hentries)).1

/-- A text that looks like the end of one line and the start of another is still one text. -/
theorem dumpWith_injective_lookalike :
    let one := branch .selector [leaf .ident "a\" 1:1..1:2\n  Ident \"b" ⟨1, 1⟩] ⟨1, 1⟩
    let two := branch .selector [leaf .ident "a" ⟨1, 1⟩, leaf .ident "b" ⟨1, 2⟩] ⟨1, 1⟩
    Text.Quoting Text.quote ∧ one.dump ≠ two.dump := by
  intro one two
  refine ⟨Text.quoting_quote, fun h => ?_⟩
  have heq := dumpWith_injective Text.quoting_quote h
  revert heq
  decide

end Node

end LessCss
