import LessCss.Proofs.Lexing

/-! The longest token. The tokens of the language are given kind by kind, by what their texts look
like. Cutting takes at each place the longest of them that the text starts with, and there is only
one. A block comment that is never closed is no token of the language; it counts as one that takes
all that is left. -/

namespace LessCss

namespace Lexeme

/-! ## Texts of tokens -/

/-- What stands behind the quote `q` that opens a string, up to the one that closes it; a backslash
takes the next character with it. -/
inductive Quoted (q : Char) : List Char → Prop
  | close : Quoted q [q]
  | plain {c : Char} {w : List Char} (quote : c ≠ q) (backslash : c ≠ '\\') (rest : Quoted q w) :
    Quoted q (c :: w)
  | escape {c : Char} {w : List Char} (rest : Quoted q w) : Quoted q ('\\' :: c :: w)

/-- What stands behind the first character of an identifier; a backslash takes the next character
with it, unless a line ends there. -/
inductive Named : List Char → Prop
  | nil : Named []
  | plain {c : Char} {w : List Char} (ident : isIdent c = true) (rest : Named w) : Named (c :: w)
  | escape {c : Char} {w : List Char} (line : isBreak c = false) (rest : Named w) :
    Named ('\\' :: c :: w)

/-- The text holds the end mark of a block comment. -/
abbrev Closes (w : List Char) : Prop := ['*', '/'] <:+: w

/-- The texts that are tokens of a kind. A block comment ends with its first end mark. -/
def Admits : Token.Kind → List Char → Prop
  | .space, w => w ≠ [] ∧ ∀ c ∈ w, isBlank c = true
  | .tab, w => w = ['\t']
  | .newline, w => w = ['\n'] ∨ w = ['\r'] ∨ w = ['\r', '\n']
  | .blockComment, w => ∃ body, w = '/' :: '*' :: (body ++ ['*', '/']) ∧ ¬ Closes (body ++ ['*'])
  | .lineComment, w => ∃ body, w = '/' :: '/' :: body ∧ ∀ c ∈ body, isBreak c = false
  | .doubleQuoted, w => ∃ rest, w = '\x22' :: rest ∧ Quoted '\x22' rest
  | .singleQuoted, w => ∃ rest, w = '\x27' :: rest ∧ Quoted '\x27' rest
  | .digits, w => w ≠ [] ∧ ∀ c ∈ w, c.isDigit = true
  | .identifier, w =>
    ∃ c rest, w = c :: rest ∧ isIdent c = true ∧ c.isDigit = false ∧ Named rest
  | k, w => ∃ c, k.char? = some c ∧ w = [c]

/-- The lexeme stands at the front of the text: it is a token of the language, or the whole text is
a block comment that is never closed. -/
inductive Starts (cs : List Char) : Lexeme → Prop
  | token {k : Token.Kind} {w : List Char} (admits : Admits k w) (front : w <+: cs) :
    Starts cs ⟨k, w⟩
  | unclosed {body : List Char} (text : cs = '/' :: '*' :: body) (unclosed : ¬ Closes body) :
    Starts cs ⟨.garbage, cs⟩

/-- The lexeme is the longest one at the front of the text. -/
structure Longest (cs : List Char) (x : Lexeme) : Prop where
  starts : Starts cs x
  longest : ∀ y, Starts cs y → y.chars.length ≤ x.chars.length

/-! ## How far strings, identifiers and comments reach -/

theorem Quoted.reach {q : Char} (hq : q ≠ '\\') {w : List Char} (h : Quoted q w)
    (rest : List Char) : quoteReach? q (w ++ rest) = some w.length := by
  induction h with
  | close => simp [quoteReach?, hq]
  | plain quote backslash _ ih => simp [quoteReach?, quote, backslash, ih]
  | escape _ ih => simp [quoteReach?, ih]

theorem quoted_take {q : Char} {cs : List Char} {n : Nat} (h : quoteReach? q cs = some n) :
    Quoted q (cs.take n) := by
  fun_induction quoteReach? q cs generalizing n with
  | case1 => cases h
  | case2 c cs ih =>
    obtain ⟨m, hm, rfl⟩ := Option.map_eq_some_iff.1 h
    exact .escape (ih hm)
  | case3 cs hc =>
    cases h
    exact .close
  | case4 cs hq hc => cases h
  | case5 c cs hc hq hb ih =>
    obtain ⟨m, hm, rfl⟩ := Option.map_eq_some_iff.1 h
    exact .plain hq hb (ih hm)

theorem ne_backslash_of_isIdent {c : Char} (h : isIdent c = true) : c ≠ '\\' := by
  rintro rfl
  cases h

theorem Named.le_reach {w : List Char} (h : Named w) (rest : List Char) :
    w.length ≤ identReach (w ++ rest) := by
  induction h with
  | nil => exact Nat.zero_le _
  | plain ident _ ih =>
    rw [List.cons_append, identReach, if_pos ident]
    · exact Nat.succ_le_succ ih
    · exact fun _ _ hc _ => ne_backslash_of_isIdent ident hc
  | escape line _ ih =>
    rw [List.cons_append, List.cons_append, identReach, if_neg (by rw [line]; decide)]
    exact Nat.succ_le_succ (Nat.succ_le_succ ih)

theorem named_take (cs : List Char) : Named (cs.take (identReach cs)) := by
  fun_induction identReach cs with
  | case1 => exact .nil
  | case2 c cs hb => exact .nil
  | case3 c cs hb ih => exact .escape (Bool.eq_false_iff.2 hb) ih
  | case4 c cs hc hi ih => exact .plain hi ih
  | case5 c cs hc hi => exact .nil

theorem closes_cons {c : Char} {cs : List Char} :
    Closes (c :: cs) ↔ c = '*' ∧ cs.head? = some '/' ∨ Closes cs := by
  rw [Closes, List.infix_cons_iff, List.cons_prefix_cons, List.singleton_prefix_iff_head?_eq_some,
    eq_comm]

theorem commentReach?_cons {c : Char} {cs : List Char} (h : ¬ (c = '*' ∧ cs.head? = some '/')) :
    commentReach? (c :: cs) = (commentReach? cs).map (· + 1) := by
  rw [commentReach?]
  rintro cs' rfl rfl
  exact h ⟨rfl, rfl⟩

theorem commentReach?_eq_none_iff (cs : List Char) : commentReach? cs = none ↔ ¬ Closes cs := by
  fun_induction commentReach? cs with
  | case1 cs =>
    exact iff_of_false (Option.some_ne_none 2) fun h => h (closes_cons.2 (Or.inl ⟨rfl, rfl⟩))
  | case2 c cs hc ih =>
    rw [Option.map_eq_none_iff, ih, closes_cons, or_iff_right]
    rintro ⟨rfl, hh⟩
    obtain ⟨cs', rfl⟩ := List.head?_eq_some_iff.1 hh
    exact hc cs' rfl rfl
  | case3 => exact iff_of_true rfl (by decide)

/-- A block comment reaches through the first end mark. -/
theorem commentReach?_append {body : List Char} (h : ¬ Closes (body ++ ['*'])) (rest : List Char) :
    commentReach? (body ++ '*' :: '/' :: rest) = some (body.length + 2) := by
  induction body with
  | nil => rfl
  | cons c body ih =>
    rw [List.cons_append, closes_cons, not_or] at h
    have hhead : (body ++ '*' :: '/' :: rest).head? = (body ++ ['*']).head? := by
      cases body <;> rfl
    rw [List.cons_append, commentReach?_cons (by rw [hhead]; exact h.1), ih h.2]
    simp

theorem closed_take {cs : List Char} {n : Nat} (h : commentReach? cs = some n) :
    ∃ body, cs.take n = body ++ ['*', '/'] ∧ ¬ Closes (body ++ ['*']) := by
  fun_induction commentReach? cs generalizing n with
  | case1 cs =>
    cases h
    exact ⟨[], rfl, by decide⟩
  | case2 c cs hc ih =>
    obtain ⟨m, hm, rfl⟩ := Option.map_eq_some_iff.1 h
    obtain ⟨body, hb, hno⟩ := ih hm
    refine ⟨c :: body, by rw [List.take_succ_cons, hb]; rfl, ?_⟩
    rw [List.cons_append, closes_cons, not_or]
    refine ⟨?_, hno⟩
    rintro ⟨rfl, hh⟩
    -- a mark across the seam would have been found here
    have hhead : (cs.take m).head? = some '/' := by
      rw [hb, ← hh]
      cases body <;> rfl
    obtain ⟨cs', hcs⟩ := List.head?_eq_some_iff.1 hhead
    rw [← List.take_append_drop m cs, hcs] at hc
    exact hc _ rfl rfl
  | case3 => cases h

/-! ## What cutting takes -/

/-- The lexeme that is cut off a text of `c` before `cs`. -/
def front (c : Char) (cs : List Char) : Lexeme := ⟨(munch c cs).1, c :: cs.take (munch c cs).2⟩

theorem length_front (c : Char) (cs : List Char) :
    (front c cs).chars.length = min (munch c cs).2 cs.length + 1 := by
  rw [front, List.length_cons, List.length_take]

theorem starts_front_of_admits {c : Char} {cs : List Char} {k : Token.Kind} {n : Nat}
    (h : Admits k (c :: cs.take n)) : Starts (c :: cs) ⟨k, c :: cs.take n⟩ :=
  .token h (List.cons_prefix_cons.2 ⟨rfl, List.take_prefix n cs⟩)

theorem munchSlash_starts (cs : List Char) :
    Starts ('/' :: cs) ⟨(munchSlash cs).1, '/' :: cs.take (munchSlash cs).2⟩ := by
  unfold munchSlash
  split
  · split
    · next cs n hn =>
      obtain ⟨body, hb, hno⟩ := closed_take hn
      exact starts_front_of_admits ⟨body, by rw [List.take_succ_cons, hb], hno⟩
    · next cs _ hn =>
      rw [List.take_of_length_le (by simp)]
      exact .unclosed rfl ((commentReach?_eq_none_iff cs).1 hn)
  · next cs =>
    refine starts_front_of_admits ⟨_, by rw [List.take_succ_cons], fun c hc => ?_⟩
    exact not_isBreak_of_reachWhile (fun c hc => by simpa using hc) cs c hc
  · exact starts_front_of_admits ⟨_, rfl, rfl⟩

theorem all_reachWhile {p : Char → Bool} {c : Char} {cs : List Char} (hc : p c = true) :
    c :: cs.take (reachWhile p cs) ≠ [] ∧ ∀ d ∈ c :: cs.take (reachWhile p cs), p d = true := by
  refine ⟨List.cons_ne_nil _ _, List.forall_mem_cons.2 ⟨hc, ?_⟩⟩
  rw [take_reachWhile]
  exact List.all_eq_true.1 List.all_takeWhile

theorem admits_of_char? {k : Token.Kind} {c : Char} (h : k.char? = some c) : Admits k [c] := by
  cases k <;> first
    | exact ⟨c, h, rfl⟩
    | cases h

/-- What is cut off stands at the front of the text. -/
theorem front_starts (c : Char) (cs : List Char) : Starts (c :: cs) (front c cs) := by
  have hmark : ∀ {k : Token.Kind}, k.char? = some c → Starts (c :: cs) ⟨k, c :: cs.take 0⟩ :=
    fun hk => starts_front_of_admits (admits_of_char? hk)
  unfold front munch
  split
  · next h => exact starts_front_of_admits (all_reachWhile h)
  split
  · next h => exact starts_front_of_admits (by rw [h]; rfl)
  split
  · next h => exact starts_front_of_admits (Or.inl (by rw [h]; rfl))
  split
  · next h =>
    subst h
    dsimp only
    split
    · next hh =>
      obtain ⟨rest, rfl⟩ := List.head?_eq_some_iff.1 hh
      exact starts_front_of_admits (Or.inr (Or.inr rfl))
    · exact starts_front_of_admits (Or.inr (Or.inl rfl))
  split
  · next h => exact starts_front_of_admits (all_reachWhile h)
  next hblank htab hline hreturn hdigit =>
  split
  · next h =>
    subst h
    exact munchSlash_starts cs
  split
  · next h =>
    subst h
    split
    · next n hn => exact starts_front_of_admits ⟨_, rfl, quoted_take hn⟩
    · exact hmark rfl
  split
  · next h =>
    subst h
    split
    · next n hn => exact starts_front_of_admits ⟨_, rfl, quoted_take hn⟩
    · exact hmark rfl
  · split
    · next k hk => exact hmark (Token.Kind.char?_of_ofPunctuation? hk)
    · next hk =>
      have hident : isIdent c = true := by simp [isIdent, isBreak, hblank, htab, hline, hreturn, hk]
      exact starts_front_of_admits ⟨c, _, rfl, hident, by simpa using hdigit, named_take cs⟩

/-! ## Nothing longer -/

theorem munch_blank {c : Char} (h : isBlank c = true) (cs : List Char) :
    munch c cs = (.space, reachWhile isBlank cs) := by
  simp [munch, h]

theorem munch_digit {c : Char} (h : c.isDigit = true) (cs : List Char) :
    munch c cs = (.digits, reachWhile Char.isDigit cs) := by
  have hblank : isBlank c = false := by
    refine Bool.eq_false_iff.2 fun hb => ?_
    rcases Bool.or_eq_true_iff.1 hb with hb | hb <;> rw [of_decide_eq_true hb] at h <;> cases h
  have hne : c ≠ '\t' ∧ c ≠ '\n' ∧ c ≠ '\r' := by
    refine ⟨?_, ?_, ?_⟩ <;> rintro rfl <;> cases h
  simp [munch, hblank, hne, h]

theorem munch_ident {c : Char} (h : isIdent c = true) (hd : c.isDigit = false) (cs : List Char) :
    munch c cs = (.identifier, identReach cs) := by
  have hne : ∀ d, isIdent d = false → c ≠ d := by
    rintro d hd rfl
    rw [h] at hd
    cases hd
  simp only [isIdent, Bool.not_or, Bool.and_eq_true, Bool.not_eq_true', Option.isSome_eq_false_iff,
    Option.isNone_iff_eq_none] at h
  simp [munch, h, hd, hne '\t' rfl, hne '\n' rfl, hne '\r' rfl, hne '/' rfl, hne '\x22' rfl,
    hne '\x27' rfl]

/-- The token is shorter than what is cut off, or it is cut off. -/
abbrev OrFront (k : Token.Kind) (c : Char) (w cs : List Char) : Prop :=
  (c :: w).length < (front c cs).chars.length ∨ (⟨k, c :: w⟩ : Lexeme) = front c cs

variable {k : Token.Kind} {c : Char} {w cs : List Char}

/-- What reaches no further than cutting does. -/
theorem orFront_of_le {n : Nat} (hm : munch c cs = (k, n)) (hw : w <+: cs) (hn : w.length ≤ n) :
    OrFront k c w cs := by
  have hle := hw.length_le
  rw [OrFront, length_front, List.length_cons, hm]
  rcases Nat.lt_or_ge w.length (min n cs.length) with hlt | hge
  · exact Or.inl (by dsimp only; omega)
  · have htake : cs.take n = w := by
      rcases Nat.le_total n cs.length with h | h
      · rw [show n = w.length by omega]
        exact (List.prefix_iff_eq_take.1 hw).symm
      · rw [List.take_of_length_le h]
        exact (hw.eq_of_length (by omega)).symm
    rw [front, hm]
    exact Or.inr (by rw [htake])

theorem orFront_run {p : Char → Bool} (hm : munch c cs = (k, reachWhile p cs)) (hw : w <+: cs)
    (hall : ∀ d ∈ w, p d = true) : OrFront k c w cs := by
  refine orFront_of_le hm hw ?_
  obtain ⟨rest, rfl⟩ := hw
  rw [reachWhile, List.takeWhile_append_of_pos hall, List.length_append]
  exact Nat.le_add_right _ _

theorem orFront_blockComment {body : List Char} (hno : ¬ Closes (body ++ ['*']))
    (hw : '*' :: (body ++ ['*', '/']) <+: cs) :
    OrFront .blockComment '/' ('*' :: (body ++ ['*', '/'])) cs := by
  refine orFront_of_le (n := body.length + 3) ?_ hw (by simp)
  obtain ⟨rest, rfl⟩ := hw
  change munchSlash ('*' :: (body ++ ['*', '/'] ++ rest)) = _
  rw [munchSlash, List.append_assoc, List.cons_append, List.cons_append, List.nil_append,
    commentReach?_append hno]

theorem orFront_lineComment {body : List Char} (hall : ∀ d ∈ body, isBreak d = false)
    (hw : '/' :: body <+: cs) : OrFront .lineComment '/' ('/' :: body) cs := by
  obtain ⟨rest, rfl⟩ := hw
  refine orFront_of_le (n := reachWhile (fun c => !isBreak c) (body ++ rest) + 1) rfl ⟨rest, rfl⟩ ?_
  rw [reachWhile, List.takeWhile_append_of_pos (by simpa using hall), List.length_append,
    List.length_cons]
  omega

theorem orFront_quoted {q : Char} (mark : Token.Kind) (hq : q ≠ '\\') (h : Quoted q w)
    (hm : munch q cs = match quoteReach? q cs with | some n => (k, n) | none => (mark, 0))
    (hw : w <+: cs) : OrFront k q w cs := by
  refine orFront_of_le (n := w.length) ?_ hw (Nat.le_refl _)
  obtain ⟨rest, rfl⟩ := hw
  rw [hm, h.reach hq]

theorem orFront_slash (cs : List Char) : OrFront .slash '/' [] cs := by
  change 1 < ('/' :: cs.take (munchSlash cs).2).length ∨
    _ = (⟨(munchSlash cs).1, '/' :: cs.take (munchSlash cs).2⟩ : Lexeme)
  unfold munchSlash
  split
  · split <;> exact Or.inl (by simp)
  · exact Or.inl (by simp)
  · exact Or.inr rfl

theorem orFront_quote {q : Char} (string : Token.Kind)
    (hm : munch q cs = match quoteReach? q cs with | some n => (string, n) | none => (k, 0)) :
    OrFront k q [] cs := by
  rw [OrFront, front, hm]
  split
  · next n hn =>
    obtain ⟨body, hb⟩ := take_quoteReach? hn
    exact Or.inl (by simp [hb])
  · exact Or.inr rfl

/-- A mark can be the start of a comment or of a string; alone it is shorter than these. -/
theorem orFront_mark (h : k.char? = some c) (cs : List Char) : OrFront k c [] cs := by
  cases k
  case slash =>
    cases h
    exact orFront_slash cs
  case quote =>
    cases h
    exact orFront_quote .doubleQuoted rfl
  case apostrophe =>
    cases h
    exact orFront_quote .singleQuoted rfl
  all_goals cases h; try exact Or.inr rfl

theorem Admits.orFront (h : Admits k (c :: w)) (hw : w <+: cs) : OrFront k c w cs := by
  cases k
  case space =>
    obtain ⟨hc, hall⟩ := List.forall_mem_cons.1 h.2
    exact orFront_run (munch_blank hc cs) hw hall
  case tab =>
    cases h
    exact Or.inr rfl
  case newline =>
    rcases h with h | h | h <;> cases h
    · exact Or.inr rfl
    · exact orFront_of_le (n := (munch '\r' cs).2) rfl hw (Nat.zero_le _)
    · obtain ⟨rest, rfl⟩ := hw
      exact Or.inr rfl
  case blockComment =>
    obtain ⟨body, he, hno⟩ := h
    cases he
    exact orFront_blockComment hno hw
  case lineComment =>
    obtain ⟨body, he, hall⟩ := h
    cases he
    exact orFront_lineComment hall hw
  case doubleQuoted =>
    obtain ⟨rest, he, hq⟩ := h
    cases he
    exact orFront_quoted .quote (by decide) hq rfl hw
  case singleQuoted =>
    obtain ⟨rest, he, hq⟩ := h
    cases he
    exact orFront_quoted .apostrophe (by decide) hq rfl hw
  case digits =>
    obtain ⟨hc, hall⟩ := List.forall_mem_cons.1 h.2
    exact orFront_run (munch_digit hc cs) hw hall
  case identifier =>
    obtain ⟨d, rest, he, hident, hdigit, hnamed⟩ := h
    cases he
    obtain ⟨rest, rfl⟩ := hw
    exact orFront_of_le (munch_ident hident hdigit _) ⟨rest, rfl⟩ (hnamed.le_reach rest)
  all_goals
    obtain ⟨d, hd, he⟩ := h
    cases he
    exact orFront_mark hd cs

/-- Whatever stands at the front of a text is shorter than what is cut off, or the same. -/
theorem Starts.shorter_or_eq {y : Lexeme} (h : Starts (c :: cs) y) :
    y.chars.length < (front c cs).chars.length ∨ y = front c cs := by
  cases h with
  | @unclosed body text unclosed =>
    cases text
    have hreach := (commentReach?_eq_none_iff body).2 unclosed
    have hm : munch '/' ('*' :: body) = (.garbage, body.length + 1) := by
      change munchSlash ('*' :: body) = _
      rw [munchSlash, hreach]
    exact orFront_of_le hm (List.prefix_refl _) (Nat.le_refl _)
  | @token k w admits hfront =>
    cases w with
    | nil => exact Or.inl (Nat.succ_pos _)
    | cons d w =>
      obtain ⟨rfl, hw⟩ := List.cons_prefix_cons.1 hfront
      exact admits.orFront hw

/-- What is cut off is the longest lexeme at the front of the text, and the only one that long. -/
theorem longest_iff {x : Lexeme} : Longest (c :: cs) x ↔ x = front c cs := by
  constructor
  · intro h
    exact h.starts.shorter_or_eq.resolve_left
      (Nat.not_lt.2 (h.longest _ (front_starts c cs)))
  · rintro rfl
    refine ⟨front_starts c cs, fun y hy => ?_⟩
    rcases hy.shorter_or_eq with hlt | rfl
    · exact Nat.le_of_lt hlt
    · exact Nat.le_refl _

end Lexeme

end LessCss
