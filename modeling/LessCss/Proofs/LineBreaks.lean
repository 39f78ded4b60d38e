import LessCss.Token.Lexer
import Mathlib.Data.List.DropRight

/-! Places and line breaks. Moving past a text adds its line breaks to the line and counts the
column from the last of them, and it always leads on. It looks one character ahead, so a text may
be cut anywhere but between a carriage return and a line feed: cut there, one break becomes two. -/

namespace LessCss

/-! ## The line breaks of a text -/

namespace Text

open Lexeme (isBreak)

/-- The number of line breaks. A carriage return with a line feed behind it is one break. -/
def breaks : List Char → Nat
  | [] => 0
  | '\r' :: '\n' :: cs => breaks cs + 1
  | c :: cs => if isBreak c then breaks cs + 1 else breaks cs

/-- The characters behind the last line break. -/
def lastLine (cs : List Char) : List Char := cs.rtakeWhile fun c => !isBreak c

variable {c : Char} {cs : List Char}

theorem breaks_eq_zero_iff : breaks cs = 0 ↔ ∀ c ∈ cs, isBreak c = false := by
  fun_induction breaks cs with
  | case1 => simp
  | case2 cs ih => simp [isBreak]
  | case3 c cs _ hc ih => simp [hc]
  | case4 c cs _ hc ih => simp [hc, ih]

/-- Without a line break all is one line. -/
theorem lastLine_eq_self (h : breaks cs = 0) : lastLine cs = cs := by
  refine List.rtakeWhile_eq_self_iff.2 fun c hc => ?_
  rw [breaks_eq_zero_iff.1 h c hc]
  rfl

/-- What stands before a line break does not show in the last line. -/
theorem lastLine_cons (h : breaks (c :: cs) ≠ 0) : lastLine (c :: cs) = lastLine cs := by
  unfold lastLine List.rtakeWhile
  rw [List.reverse_cons, List.takeWhile_append]
  split
  · next hall =>
    -- no break behind `c`, so `c` is one
    have hself := List.takeWhile_eq_self_iff.1 ((List.takeWhile_prefix _).eq_of_length hall)
    have hc : isBreak c = true := by
      rw [← Bool.not_eq_false]
      refine fun hc => h (breaks_eq_zero_iff.2 (List.forall_mem_cons.2 ⟨hc, fun d hd => ?_⟩))
      simpa using hself d (List.mem_reverse.2 hd)
    rw [List.takeWhile_cons_of_neg (by simp [hc]), List.append_nil,
      List.takeWhile_eq_self_iff.2 hself]
  · rfl

end Text

namespace Position

open Text

variable {p : Position}

/-! ## Cutting a text -/

/-- A text can be cut anywhere but inside a line break of two characters. -/
theorem advanceChars_append (p : Position) (a b : List Char)
    (h : ¬ (a.getLast? = some '\r' ∧ b.head? = some '\n')) :
    p.advanceChars (a ++ b) = (p.advanceChars a).advanceChars b := by
  induction a generalizing p with
  | nil => rfl
  | cons c cs ih =>
    cases cs with
    | nil =>
      have hstep : p.step c b.head? = p.step c none := by
        unfold step
        by_cases hc : c = '\r'
        · have hb : b.head? ≠ some '\n' := fun hb => h ⟨by rw [hc]; rfl, hb⟩
          simp [hb]
        · simp [hc]
      simp [advanceChars, hstep]
    | cons d ds =>
      have hlast : ¬ ((d :: ds).getLast? = some '\r' ∧ b.head? = some '\n') := by
        rwa [List.getLast?_cons_cons] at h
      have hd := ih (p.step c (some d)) hlast
      simp only [List.cons_append, advanceChars, List.head?_cons] at hd ⊢
      exact hd

theorem advance_append (p : Position) (s t : String)
    (h : ¬ (s.toList.getLast? = some '\r' ∧ t.toList.head? = some '\n')) :
    p.advance (s ++ t) = (p.advance s).advance t := by
  unfold advance
  rw [String.toList_append]
  exact advanceChars_append p _ _ h

/-! ## Line and column -/

theorem step_of_break {c : Char} {next : Option Char} (hc : Lexeme.isBreak c = true)
    (h : c = '\r' → next ≠ some '\n') : p.step c next = ⟨p.line + 1, 1⟩ := by
  rw [step, if_neg fun hcr => h hcr.1 hcr.2, if_pos]
  simpa [Lexeme.isBreak] using hc

theorem step_of_not_break {c : Char} {next : Option Char} (hc : Lexeme.isBreak c = false) :
    p.step c next = ⟨p.line, p.column + 1⟩ := by
  have hne : c ≠ '\n' ∧ c ≠ '\r' := by simpa [Lexeme.isBreak] using hc
  rw [step, if_neg fun hcr => hne.2 hcr.1, if_neg fun hbreak => hbreak.elim hne.1 hne.2]

/-- The place behind a text, by its line breaks and its last line. -/
def behind (p : Position) (cs : List Char) : Position :=
  ⟨p.line + breaks cs, if breaks cs = 0 then p.column + cs.length else 1 + (lastLine cs).length⟩

theorem behind_break (p : Position) (cs : List Char) :
    behind ⟨p.line + 1, 1⟩ cs = ⟨p.line + (breaks cs + 1), 1 + (lastLine cs).length⟩ := by
  have hline : p.line + 1 + breaks cs = p.line + (breaks cs + 1) := by omega
  rw [behind, hline]
  split
  · next hz => rw [lastLine_eq_self hz]
  · rfl

theorem advanceChars_eq_behind (p : Position) (cs : List Char) :
    p.advanceChars cs = p.behind cs := by
  fun_induction breaks cs generalizing p with
  | case1 => rfl
  | case2 cs ih =>
    have hpair : breaks ('\r' :: '\n' :: cs) = breaks cs + 1 := by rw [breaks]
    have hfeed : breaks ('\n' :: cs) = breaks cs + 1 := by simp [breaks, Lexeme.isBreak]
    have hlast : lastLine ('\r' :: '\n' :: cs) = lastLine cs := by
      rw [lastLine_cons (by omega), lastLine_cons (by omega)]
    calc p.advanceChars ('\r' :: '\n' :: cs)
      _ = advanceChars ⟨p.line + 1, 1⟩ cs := by
        rw [advanceChars, List.head?_cons, step, if_pos ⟨rfl, rfl⟩, advanceChars,
          step_of_break rfl (by simp)]
      _ = ⟨p.line + (breaks cs + 1), 1 + (lastLine cs).length⟩ := by rw [ih, behind_break]
      _ = p.behind ('\r' :: '\n' :: cs) := by
        rw [behind, hpair, if_neg (Nat.succ_ne_zero _), hlast]
  | case3 c cs hpair hc ih =>
    have hone : breaks (c :: cs) = breaks cs + 1 := by rw [breaks, if_pos hc]; exact hpair
    have hlone : c = '\r' → cs.head? ≠ some '\n' := by
      rintro rfl hhead
      obtain ⟨ds, rfl⟩ := List.head?_eq_some_iff.1 hhead
      exact hpair ds rfl rfl
    rw [advanceChars, step_of_break hc hlone, ih, behind_break, behind, hone,
      if_neg (Nat.succ_ne_zero _), lastLine_cons (by omega)]
  | case4 c cs hpair hc ih =>
    have hsame : breaks (c :: cs) = breaks cs := by rw [breaks, if_neg hc]; exact hpair
    rw [advanceChars, step_of_not_break (by simpa using hc), ih, behind, behind, hsame]
    split
    · rw [List.length_cons, Nat.add_assoc, Nat.add_comm 1]
    · next hz => rw [lastLine_cons (by omega)]

/-! ## Order -/

theorem lt_irrefl (p : Position) : ¬ p < p := by
  rw [lt_def]
  omega

theorem step_eq_or_lt (p : Position) (c : Char) (next : Option Char) :
    p.step c next = p ∧ next ≠ none ∨ p < p.step c next := by
  unfold step
  split
  · next h => exact Or.inl ⟨rfl, by rw [h.2]; simp⟩
  · split
    · exact Or.inr (lt_def.2 (Or.inl (Nat.lt_succ_self _)))
    · exact Or.inr (lt_def.2 (Or.inr ⟨rfl, Nat.lt_succ_self _⟩))

/-- A text that is not empty leads on. -/
theorem lt_advanceChars (p : Position) (c : Char) (cs : List Char) :
    p < p.advanceChars (c :: cs) := by
  induction cs generalizing p c with
  | nil =>
    rcases p.step_eq_or_lt c none with ⟨_, hne⟩ | hlt
    · exact absurd rfl hne
    · exact hlt
  | cons d ds ih =>
    have hrest := ih (p.step c (some d)) d
    rcases p.step_eq_or_lt c (some d) with ⟨he, _⟩ | hlt
    · rw [he] at hrest
      rw [advanceChars, List.head?_cons, he]
      exact hrest
    · rw [advanceChars, List.head?_cons]
      rw [lt_def] at hlt hrest ⊢
      omega

theorem lt_advance (p : Position) {s : String} (h : s ≠ "") : p < p.advance s := by
  unfold advance
  cases hs : s.toList with
  | nil => exact absurd (String.toList_inj.1 hs) h
  | cons c cs => exact p.lt_advanceChars c cs

theorem lt_advance_iff (p : Position) (s : String) : p < p.advance s ↔ s ≠ "" := by
  refine ⟨?_, p.lt_advance⟩
  rintro h rfl
  exact p.lt_irrefl h

/-! ## Moving past two texts -/

/-- Cut between the two characters of a line break, a text has one break more. -/
theorem advanceChars_of_cut_break (p : Position) (a b : List Char) :
    (p.advanceChars (a ++ ['\r'])).advanceChars ('\n' :: b) =
      ⟨(p.advanceChars (a ++ '\r' :: '\n' :: b)).line + 1,
        (p.advanceChars (a ++ '\r' :: '\n' :: b)).column⟩ := by
  have hwhole : p.advanceChars (a ++ '\r' :: '\n' :: b) =
      advanceChars ⟨(p.advanceChars a).line + 1, 1⟩ b := by
    rw [advanceChars_append p a _ (by simp), advanceChars, List.head?_cons, step,
      if_pos ⟨rfl, rfl⟩, advanceChars, step_of_break rfl (by simp)]
  have hfront : p.advanceChars (a ++ ['\r']) = ⟨(p.advanceChars a).line + 1, 1⟩ := by
    rw [advanceChars_append p a _ (by simp), advanceChars, advanceChars,
      step_of_break rfl (by simp)]
  generalize p.advanceChars a = q at hwhole hfront
  have hrest (r : Position) : advanceChars ⟨r.line + 1, 1⟩ b =
      ⟨r.line + (breaks b + 1), 1 + (lastLine b).length⟩ := by
    rw [advanceChars_eq_behind, behind_break]
  have hline : q.line + 1 + (breaks b + 1) = q.line + (breaks b + 1) + 1 := by omega
  rw [hwhole, hfront, advanceChars, step_of_break rfl (by simp), hrest ⟨q.line + 1, 1⟩, hrest q,
    hline]

/-- Moving past two texts is moving past both at once, unless the cut between them makes two line
breaks of one; then it leads one line further, to the same column. Moving past a text adds its line
breaks to the line, and counts the column from the last of them if there is one; it never leads
back, and it leads on unless the text is empty. -/
theorem advance_composes_except_in_break (p : Position) (a b : String) :
    (p.advance a).advance b =
      (if a.toList.getLast? = some '\r' ∧ b.toList.head? = some '\n' then
        ⟨(p.advance (a ++ b)).line + 1, (p.advance (a ++ b)).column⟩
      else p.advance (a ++ b)) ∧
    (p.advance a).line = p.line + breaks a.toList ∧
    (p.advance a).column = (if breaks a.toList = 0 then p.column + a.length
      else 1 + (lastLine a.toList).length) ∧
    p ≤ p.advance a ∧ (p < p.advance a ↔ a ≠ "") := by
  have hbehind : p.advance a = p.behind a.toList := advanceChars_eq_behind p a.toList
  refine ⟨?_, ?_, ?_, ?_, p.lt_advance_iff a⟩
  · split
    · next hcut =>
      obtain ⟨front, hfront⟩ := List.getLast?_eq_some_iff.1 hcut.1
      obtain ⟨rest, hrest⟩ := List.head?_eq_some_iff.1 hcut.2
      have hjoined : (a ++ b).toList = front ++ '\r' :: '\n' :: rest := by
        rw [String.toList_append, hfront, hrest, List.append_assoc]
        rfl
      unfold advance
      rw [hjoined, hfront, hrest]
      exact advanceChars_of_cut_break p front rest
    · next hcut => exact (advance_append p a b hcut).symm
  · rw [hbehind, behind]
  · rw [hbehind, behind, String.length_toList]
  · by_cases hempty : a = ""
    · exact Or.inr (by rw [hempty, advance_empty])
    · exact Or.inl (p.lt_advance hempty)

/-- One line break, and the two that a cut makes of it. -/
example : advance ⟨1, 4⟩ "a\r\nb" = ⟨2, 2⟩ ∧
    (advance ⟨1, 4⟩ "a\r").advance "\nb" = ⟨3, 2⟩ := by decide +kernel

end Position

end LessCss
