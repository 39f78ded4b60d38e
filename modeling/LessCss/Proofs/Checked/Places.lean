import LessCss.Proofs.Checked.Building
import LessCss.Proofs.Checked.Marking
import LessCss.Proofs.Spans

/-! Lexing with all checks, and the room that a parse needs. Lines and columns are kept below a bound
`w`, at every character that is passed; cutting a text has to stay inside it, and cutting and linking
may take a number of steps.

A line and a column together are at most two more than the characters before them. So in a source
with at least two characters less than `w`, the place of every token and of every node that stands
for some tokens can be held. -/

namespace LessCss

namespace Position

/-- The place, if its line and its column are below `w`. -/
def held? (w : Nat) (p : Position) : Option Position :=
  if p.line < w ∧ p.column < w then some p else none

/-- The place `n` columns further on the same line. -/
def shift? (w : Nat) (p : Position) (n : Nat) : Option Position := (p.shift n).held? w

/-- Moves past a list of characters. -/
def advanceChars? (w : Nat) (p : Position) : List Char → Option Position
  | [] => some p
  | c :: cs => do (← (p.step c cs.head?).held? w).advanceChars? w cs

/-- Moves past a text. -/
def advance? (w : Nat) (p : Position) (text : String) : Option Position :=
  p.advanceChars? w text.toList

end Position

namespace Node

/-- Where a node stops, reckoned when it is made. -/
def stop? (w : Nat) : Node → Option Position
  | leaf k t s => do
    let p ← s.shift? w k.delimiters.opening
    let q ← p.advance? w t
    q.shift? w k.delimiters.closing
  | branch k cs s =>
    match cs.getLast? with
    | some c => c.stop.shift? w k.delimiters.closing
    | none => s.shift? w (k.delimiters.opening + k.delimiters.closing)

end Node

/-- Room for numbers below `w`. -/
def Room.below (w : Nat) : Room where
  length n := n < w
  node n := n.stop? w = some n.stop

/-- Room for everything. -/
def Room.unlimited : Room := ⟨fun _ => true, fun _ => true⟩

namespace Lexeme

/-- The first `n` characters of a text, and the others. -/
def split (n : Nat) (cs : List Char) : Except Fault (List Char × List Char) :=
  if n ≤ cs.length then .ok (cs.take n, cs.drop n) else .error .text

/-- Cuts a text into lexemes. -/
def cutChecked : (steps : Nat) → Bool → List Char → Except Fault (List Lexeme × Bool)
  | 0, _, _ => .error .steps
  | _ + 1, url, [] => .ok ([], url)
  | steps + 1, url, c :: cs => do
    let (kind, n) := munch c cs
    let (front, back) ← split n cs
    if kind = .lineComment ∧ url then
      let (_, line) ← split 1 front
      let (tail, url) ← cutChecked steps url line
      let (rest, url) ← cutChecked steps url back
      return (⟨.slash, ['/']⟩ :: ⟨.slash, ['/']⟩ :: (tail ++ rest), url)
    else
      let x : Lexeme := ⟨kind, c :: front⟩
      let (rest, url) ← cutChecked steps (urlAfter url x) back
      return (x :: rest, url)

end Lexeme

namespace Token

/-- Turns lexemes into tokens without links. -/
def placeChecked (w : Nat) (p : Position) : List Lexeme → Except Fault (List Token)
  | [] => .ok []
  | x :: xs => do
    let text := String.ofList x.chars
    match p.advance? w text with
    | some q => return ⟨x.kind, text, p, none, none⟩ :: (← placeChecked w q xs)
    | none => .error .place

/-- The stream of linked tokens of a source. -/
def lexChecked (w steps : Nat) (source : String) : Except Fault Tokens := do
  let (xs, _) ← Lexeme.cutChecked steps false source.toList
  let ts ← placeChecked w .origin xs
  linkChecked steps ts.toArray

end Token

/-! ## Places -/

namespace Position

/-- The place is reached after at most `n` characters: lines and columns count from 1, and no
character adds more than one to their sum. -/
structure Within (n : Nat) (p : Position) : Prop where
  line_pos : 1 ≤ p.line
  column_pos : 1 ≤ p.column
  sum_le : p.line + p.column ≤ n + 2

variable {n m w : Nat} {p : Position}

theorem origin_within : origin.Within 0 := ⟨Nat.le_refl 1, Nat.le_refl 1, Nat.le_refl 2⟩

theorem Within.held (h : p.Within n) (hn : n + 1 < w) : p.held? w = some p := by
  obtain ⟨hl, hc, hs⟩ := h
  exact if_pos ⟨by omega, by omega⟩

theorem Within.shift (h : p.Within n) (m : Nat) : (p.shift m).Within (n + m) := by
  obtain ⟨hl, hc, hs⟩ := h
  refine ⟨hl, ?_, ?_⟩ <;> simp only [Position.shift] <;> omega

theorem Within.step (h : p.Within n) (c : Char) (next : Option Char) :
    (p.step c next).Within (n + 1) := by
  obtain ⟨hl, hc, hs⟩ := h
  unfold Position.step
  split
  · exact ⟨hl, hc, by omega⟩
  · split
    · exact ⟨by simp only; omega, Nat.le_refl 1, by simp only; omega⟩
    · exact ⟨hl, by simp only; omega, by simp only; omega⟩

theorem Within.advanceChars (h : p.Within n) (cs : List Char) :
    (p.advanceChars cs).Within (n + cs.length) := by
  induction cs generalizing p n with
  | nil => exact h
  | cons c cs ih =>
    have hrest := ih (h.step c cs.head?)
    rwa [List.length_cons, Nat.add_comm cs.length 1, ← Nat.add_assoc]

theorem Within.advance (h : p.Within n) (s : String) : (p.advance s).Within (n + s.length) := by
  rw [← String.length_toList]
  exact h.advanceChars s.toList

theorem Within.shift? (h : p.Within n) (hm : n + m + 1 < w) :
    p.shift? w m = some (p.shift m) := (h.shift m).held hm

theorem Within.advanceChars? (h : p.Within n) {cs : List Char} (hw : n + cs.length + 1 < w) :
    p.advanceChars? w cs = some (p.advanceChars cs) := by
  induction cs generalizing p n with
  | nil => rfl
  | cons c cs ih =>
    rw [List.length_cons] at hw
    have hstep := h.step c cs.head?
    rw [Position.advanceChars?, hstep.held (by omega)]
    exact ih hstep (by omega)

theorem Within.advance? (h : p.Within n) {s : String} (hw : n + s.length + 1 < w) :
    p.advance? w s = some (p.advance s) :=
  h.advanceChars? (by rwa [String.length_toList])

end Position

open Tokens

variable {ts : Tokens} {source : String} {i j lo hi w : Nat}

/-! ## Tokens -/

/-- The number of characters before token `i`. -/
def Tokens.before (ts : Tokens) (i : Nat) : Nat := (ts.join 0 i).length

theorem Tokens.before_add (hij : i ≤ j) : ts.before j = ts.before i + (ts.join i j).length := by
  rw [before, before, ← join_append (Nat.zero_le i) hij, String.length_append]

/-- Behind the end of the stream nothing comes. -/
theorem Tokens.before_past_end (hi : ts.size ≤ i) : ts.before i = ts.before ts.size := by
  rw [before, before, join, join, Array.extract_eq_self_of_le hi, Array.extract_size]

namespace Tokens.Faithful

variable (hf : ts.Faithful source)
include hf

theorem before_le (i : Nat) : ts.before i ≤ source.length := by
  have hall : ts.before ts.size = source.length := by rw [before, hf.join_all]
  rcases Nat.le_total i ts.size with hi | hi
  · rw [← hall, before_add hi]
    exact Nat.le_add_right _ _
  · exact Nat.le_of_eq ((before_past_end hi).trans hall)

theorem position_within (i : Nat) : (ts.position i).Within (ts.before i) := by
  have hle : ∀ {i}, i ≤ ts.size → (ts.position i).Within (ts.before i) := by
    intro i hi
    rw [← hf.advance 0 i (Nat.zero_le i) hi, hf.origin, before, ← Nat.zero_add (String.length _)]
    exact Position.origin_within.advance _
  rcases Nat.le_total i ts.size with hi | hi
  · exact hle hi
  · have hend : ts.position i = ts.position ts.size := by
      rw [position, position, Array.getElem?_eq_none hi, Array.getElem?_eq_none (Nat.le_refl _)]
    rw [hend, before_past_end hi]
    exact hle (Nat.le_refl _)

end Tokens.Faithful

/-! ## Nodes -/

/-- How many characters there are before the content of a node and behind its closing mark. -/
theorem Framed.before_eq (hf : ts.Faithful source) {k : Node.Kind} (h : Framed ts k i lo hi j) :
    ts.before lo = ts.before i + k.marks.1.length ∧
      ts.before j = ts.before hi + k.delimiters.closing := by
  obtain ⟨hlo, hhi, hopen, hclose⟩ := h.marks_eq hf
  rw [before_add hlo, before_add hhi, hopen, hclose, k.closing_eq]
  exact ⟨rfl, rfl⟩

/-- A leaf starts with its first token, and its marks and its text are as long as its tokens. -/
theorem Covers.leaf_eq (hf : ts.Faithful source) {k : Node.Kind} {t : String} {p : Position}
    (h : Covers ts i j (.leaf k t p)) : p = ts.position i ∧
      ts.before j = ts.before i + k.delimiters.opening + t.length + k.delimiters.closing := by
  cases h with
  | leaf frame le _ opening _ =>
    obtain ⟨hopen, hclose⟩ := frame.before_eq hf
    exact ⟨rfl, by rw [hclose, before_add le, hopen, opening]⟩
  | blockComment is =>
    obtain ⟨body, hb⟩ := hf.blockComment _ is
    refine ⟨rfl, ?_⟩
    rw [before_add (Nat.le_succ i), join_succ, hb, String.append_assoc, Text.dropFront_append,
      Text.dropBack_append, String.length_append, String.length_append]
    change ts.before i + (2 + (body.length + 2)) = ts.before i + 2 + body.length + 2
    omega
  | lineComment is =>
    obtain ⟨body, hb⟩ := hf.lineComment _ is
    refine ⟨rfl, ?_⟩
    rw [before_add (Nat.le_succ i), join_succ, hb, Text.dropFront_append, String.length_append]
    exact (Nat.add_assoc _ _ _).symm

theorem Covers.leaf_within (hf : ts.Faithful source) {k : Node.Kind} {t : String} {p : Position}
    (h : Covers ts i j (.leaf k t p)) : (Node.leaf k t p).stop.Within (ts.before j) := by
  obtain ⟨rfl, hlen⟩ := h.leaf_eq hf
  rw [Node.stop_leaf, Node.leafStop, hlen]
  exact (((hf.position_within i).shift _).advance t).shift _

mutual
/-- A node stops after no more characters than its tokens and those before them have. -/
theorem Covers.stop_within (hf : ts.Faithful source) :
    ∀ {i j : Nat} {n : Node}, Covers ts i j n → n.stop.Within (ts.before j)
  | _, _, .leaf .., h => h.leaf_within hf
  | i, _, _, .branch frame _ tiles => by
    obtain ⟨hopen, hclose⟩ := frame.before_eq hf
    rw [Node.stop_branch, Node.branchStop, hclose]
    refine (tiles.lastStop_within hf fun hnil => ?_).shift _
    subst hnil
    cases tiles
    rw [frame.opening_eq_of_empty, hopen]
    exact (hf.position_within i).shift _

theorem Tiles.lastStop_within (hf : ts.Faithful source) :
    ∀ {i j : Nat} {ns : List Node} {p : Position}, Tiles ts i j ns →
      (ns = [] → p.Within (ts.before i)) → (Node.lastStop p ns).Within (ts.before j)
  | _, _, _, _, .nil, hp => by
    rw [Node.lastStop]
    exact hp rfl
  | _, _, _, _, .cons first .nil, _ => by
    rw [Node.lastStop]
    exact first.stop_within hf
  | _, _, _, _, .cons _ (.cons second rest), _ => by
    rw [Node.lastStop]
    exact (Tiles.cons second rest).lastStop_within hf fun h => (nomatch h)
end

/-- Where a node stops can be reckoned, if there is room for all characters up to there. -/
theorem Covers.stop?_eq (hf : ts.Faithful source) {n : Node} (h : Covers ts i j n)
    (hw : ts.before j + 1 < w) : n.stop? w = some n.stop := by
  cases n with
  | leaf k t p =>
    obtain ⟨rfl, hlen⟩ := h.leaf_eq hf
    have hstart := hf.position_within i
    have htext := (hstart.shift k.delimiters.opening).advance? (s := t) (w := w) (by omega)
    have hclose := ((hstart.shift k.delimiters.opening).advance t).shift?
      (m := k.delimiters.closing) (w := w) (by omega)
    rw [Node.stop_leaf, Node.leafStop]
    simp only [Node.stop?, hstart.shift? (m := k.delimiters.opening) (w := w) (by omega), htext,
      hclose, Option.bind_eq_bind, Option.bind_some]
  | branch k cs p =>
    cases h with
    | branch frame _ tiles =>
      obtain ⟨hopen, hclose⟩ := frame.before_eq hf
      rw [Node.stop?, Node.stop_branch, Node.branchStop, Node.lastStop_eq]
      cases hlast : cs.getLast? with
      | some c =>
        have hend := tiles.lastStop_within (p := .origin) hf fun hnil => by
          rw [hnil] at hlast
          cases hlast
        rw [Node.lastStop_eq, hlast] at hend
        exact hend.shift? (by omega)
      | none =>
        cases List.getLast?_eq_none_iff.1 hlast
        cases tiles
        change Position.shift? w _ _ = some (Position.shift (Position.shift _ _) _)
        rw [Position.shift_shift]
        refine (hf.position_within i).shift? ?_
        rw [frame.opening_eq_of_empty]
        omega

/-! ## Room for a source -/

/-- Every token has a character. -/
theorem Tokens.Faithful.le_before (hf : ts.Faithful source) (hi : i ≤ ts.size) :
    i ≤ ts.before i := by
  induction i with
  | zero => exact Nat.zero_le _
  | succ i ih =>
    have htext : ts.text i ≠ "" := hf.text_ne i hi
    have hlen : 0 < (ts.text i).length :=
      Nat.pos_of_ne_zero fun hz => htext (String.length_eq_zero_iff.1 hz)
    rw [before_add (Nat.le_succ i), join_succ]
    have := ih (Nat.le_of_succ_le hi)
    omega

/-- There is room for the tokens of a source if there is room for its characters. -/
theorem Room.below_suffices (h : source.length + 1 < w) :
    (Room.below w).Suffices (Token.lex source) := by
  have hf := Token.lex_faithful source
  refine ⟨fun n hn => decide_eq_true ?_, fun i j n hn => decide_eq_true ?_, decide_eq_true ?_⟩
  · have hsize := hf.le_before (Nat.le_refl (Token.lex source).size)
    have hall := hf.before_le (Token.lex source).size
    omega
  · have hle := hf.before_le j
    exact hn.stop?_eq hf (by omega)
  · exact Position.origin_within.shift? (m := 0) (by omega)

theorem Room.unlimited_suffices (ts : Tokens) : Room.unlimited.Suffices ts :=
  ⟨fun _ _ => rfl, fun _ _ _ _ => rfl, rfl⟩

/-! ## Lexing -/

namespace Lexeme

theorem reachWhile_le (p : Char → Bool) (cs : List Char) : reachWhile p cs ≤ cs.length :=
  (List.takeWhile_sublist p).length_le

theorem commentReach?_le {cs : List Char} {n : Nat} (h : commentReach? cs = some n) :
    n ≤ cs.length := by
  fun_induction commentReach? cs generalizing n with
  | case1 cs => cases h; simp
  | case2 c cs _ ih =>
    obtain ⟨m, hm, rfl⟩ := Option.map_eq_some_iff.1 h
    exact Nat.succ_le_succ (ih hm)
  | case3 => cases h

theorem quoteReach?_le {q : Char} {cs : List Char} {n : Nat} (h : quoteReach? q cs = some n) :
    n ≤ cs.length := by
  fun_induction quoteReach? q cs generalizing n with
  | case1 => cases h
  | case2 c cs ih =>
    obtain ⟨m, hm, rfl⟩ := Option.map_eq_some_iff.1 h
    exact Nat.succ_le_succ (Nat.succ_le_succ (ih hm))
  | case3 cs hc =>
    cases h
    exact Nat.succ_le_succ (Nat.zero_le _)
  | case4 cs hq hc => cases h
  | case5 c cs hq hc hb ih =>
    obtain ⟨m, hm, rfl⟩ := Option.map_eq_some_iff.1 h
    exact Nat.succ_le_succ (ih hm)

theorem identReach_le (cs : List Char) : identReach cs ≤ cs.length := by
  fun_induction identReach cs <;> simp_all

theorem munchSlash_le (cs : List Char) : (munchSlash cs).2 ≤ cs.length := by
  unfold munchSlash
  split
  · split
    · next n hn => exact Nat.succ_le_succ (commentReach?_le hn)
    · exact Nat.le_refl _
  · exact Nat.succ_le_succ (reachWhile_le _ _)
  · exact Nat.zero_le _

/-- A token takes no more characters than there are. -/
theorem munch_le (c : Char) (cs : List Char) : (munch c cs).2 ≤ cs.length := by
  unfold munch
  split
  · exact reachWhile_le _ cs
  split
  · exact Nat.zero_le _
  split
  · exact Nat.zero_le _
  split
  · cases cs with
    | nil => exact Nat.le_refl 0
    | cons d cs => dsimp only; split <;> simp
  split
  · exact reachWhile_le _ cs
  split
  · exact munchSlash_le cs
  split
  · split
    · next n hn => exact quoteReach?_le hn
    · exact Nat.zero_le _
  split
  · split
    · next n hn => exact quoteReach?_le hn
    · exact Nat.zero_le _
  · split
    · exact Nat.zero_le _
    · exact identReach_le cs

theorem split_eq {n : Nat} {cs : List Char} (h : n ≤ cs.length) :
    split n cs = .ok (cs.take n, cs.drop n) := if_pos h

/-- Every cut leaves less of the text, so as many steps suffice as it has characters. -/
theorem cutChecked_eq {steps : Nat} (url : Bool) {cs : List Char} (h : cs.length < steps) :
    cutChecked steps url cs = .ok (cut url cs) := by
  induction steps generalizing url cs with
  | zero => cases h
  | succ steps ih =>
    cases cs with
    | nil => rw [cutChecked, cut]
    | cons c cs =>
      rw [List.length_cons] at h
      rw [cutChecked, cut]
      simp only [split_eq (munch_le c cs), ok_bind]
      split
      · next hurl =>
        obtain ⟨rfl, line, rfl, hreach⟩ := munch_lineComment hurl.1
        have hone : 1 ≤ (List.take (munch '/' ('/' :: line)).2 ('/' :: line)).length := by
          rw [hreach]
          simp
        rw [List.length_cons] at h
        rw [split_eq hone, ok_bind, ih _ (by simp; omega), ok_bind, ih _ (by simp; omega), ok_bind]
        rfl
      · rw [ih _ (by simp; omega), ok_bind]
        rfl

end Lexeme

namespace Token

theorem placeChecked_eq {n : Nat} {p : Position} {xs : List Lexeme} (hp : p.Within n)
    (hw : n + (xs.flatMap Lexeme.chars).length + 1 < w) :
    placeChecked w p xs = .ok (place p xs) := by
  induction xs generalizing p n with
  | nil => rfl
  | cons x xs ih =>
    rw [List.flatMap_cons, List.length_append] at hw
    have hlen : (String.ofList x.chars).length = x.chars.length := String.length_ofList
    have hnext := hp.advance (String.ofList x.chars)
    rw [placeChecked, place, hp.advance? (by omega)]
    dsimp only
    rw [ih hnext (by omega)]
    rfl

theorem map_unlinked_place (p : Position) (xs : List Lexeme) :
    (place p xs).map unlinked = place p xs := by
  induction xs generalizing p with
  | nil => rfl
  | cons x xs ih => rw [place, List.map_cons, ih, unlinked]

/-- There are no more tokens than characters. -/
theorem length_place_le (source : String) :
    (place .origin (Lexeme.ofSource source)).length ≤ source.length := by
  have hf := lex_faithful source
  have hlength := congrArg List.length (link_unlinked (place .origin (Lexeme.ofSource source)))
  rw [List.length_map, List.length_map, Array.length_toList] at hlength
  have hsize := hf.le_before (Nat.le_refl (lex source).size)
  have hall := hf.before_le (lex source).size
  rw [lex] at hsize hall
  omega

/-- A source is cut and its tokens are placed and linked without a fault, if there is room for its
characters. -/
theorem lexChecked_eq {steps : Nat} (hsteps : source.length < steps) (hw : source.length + 1 < w) :
    lexChecked w steps source = .ok (lex source) := by
  have hcut : Lexeme.cutChecked steps false source.toList = .ok (Lexeme.cut false source.toList) :=
    Lexeme.cutChecked_eq false (by rwa [String.length_toList])
  have hchars := (Lexeme.ofSource_spells source).chars
  have hplace : placeChecked w .origin (Lexeme.ofSource source) =
      .ok (place .origin (Lexeme.ofSource source)) := placeChecked_eq Position.origin_within (by
    rw [hchars, Nat.zero_add, String.length_toList]
    exact hw)
  have hlink := linkChecked_eq (Nat.lt_of_le_of_lt (length_place_le source) hsteps)
  rw [map_unlinked_place] at hlink
  rw [lexChecked, hcut, ok_bind]
  change (placeChecked w .origin (Lexeme.ofSource source) >>= fun ts => linkChecked steps ts.toArray) = _
  rw [hplace, ok_bind]
  exact hlink

end Token

end LessCss
