import LessCss.Proofs.LineBreaks
import Mathlib.Data.List.Chain

/-! Cutting a source into lexemes. The characters of the lexemes are those of the source, in order;
a lexeme of a punctuation kind is that one character, and a comment has its marks. No cut separates
a carriage return from a line feed behind it, so places in the text can be reckoned one lexeme after
the other. -/

namespace LessCss

/-- The character of a punctuation kind. -/
def Token.Kind.char? : Token.Kind → Option Char
  | .exclamation => some '!'
  | .quote => some '\x22'
  | .hash => some '#'
  | .dollar => some '$'
  | .percent => some '%'
  | .ampersand => some '&'
  | .apostrophe => some '\x27'
  | .leftParen => some '('
  | .rightParen => some ')'
  | .asterisk => some '*'
  | .plus => some '+'
  | .comma => some ','
  | .minus => some '-'
  | .dot => some '.'
  | .slash => some '/'
  | .colon => some ':'
  | .semicolon => some ';'
  | .less => some '<'
  | .equals => some '='
  | .greater => some '>'
  | .question => some '?'
  | .atSign => some '@'
  | .leftSquare => some '['
  | .backslash => some '\\'
  | .rightSquare => some ']'
  | .caret => some '^'
  | .underscore => some '_'
  | .backtick => some '\x60'
  | .leftCurly => some '\x7b'
  | .bar => some '|'
  | .rightCurly => some '\x7d'
  | .tilde => some '~'
  | _ => none

theorem Token.Kind.char?_of_ofPunctuation? {c : Char} {k : Token.Kind}
    (h : Token.Kind.ofPunctuation? c = some k) : k.char? = some c := by
  unfold Token.Kind.ofPunctuation? at h
  split at h <;> cases h <;> rfl

namespace Lexeme

/-! ## How far tokens reach -/

theorem take_reachWhile (p : Char → Bool) (cs : List Char) :
    cs.take (reachWhile p cs) = cs.takeWhile p := by
  have h := List.takeWhile_prefix p (l := cs)
  exact (List.prefix_iff_eq_take.1 h).symm

theorem take_commentReach? {cs : List Char} {n : Nat} (h : commentReach? cs = some n) :
    ∃ body, cs.take n = body ++ ['*', '/'] := by
  fun_induction commentReach? cs generalizing n with
  | case1 cs =>
    cases h
    exact ⟨[], rfl⟩
  | case2 c cs hc ih =>
    obtain ⟨m, hm, rfl⟩ := Option.map_eq_some_iff.1 h
    obtain ⟨body, hb⟩ := ih hm
    exact ⟨c :: body, by rw [List.take_succ_cons, hb]; rfl⟩
  | case3 => cases h

theorem take_quoteReach? {q : Char} {cs : List Char} {n : Nat} (h : quoteReach? q cs = some n) :
    ∃ body, cs.take n = body ++ [q] := by
  fun_induction quoteReach? q cs generalizing n with
  | case1 => cases h
  | case2 c cs ih =>
    obtain ⟨m, hm, rfl⟩ := Option.map_eq_some_iff.1 h
    obtain ⟨body, hb⟩ := ih hm
    exact ⟨'\\' :: c :: body, by rw [List.take_succ_cons, List.take_succ_cons, hb]; rfl⟩
  | case3 cs hc =>
    cases h
    exact ⟨[], rfl⟩
  | case4 cs hq hc => cases h
  | case5 c cs hq hc hb ih =>
    obtain ⟨m, hm, rfl⟩ := Option.map_eq_some_iff.1 h
    obtain ⟨body, hb⟩ := ih hm
    exact ⟨c :: body, by rw [List.take_succ_cons, hb]; rfl⟩

theorem not_isBreak_of_isIdent {c : Char} (h : isIdent c = true) : isBreak c = false := by
  unfold isIdent at h
  simp only [Bool.not_or, Bool.and_eq_true, Bool.not_eq_true'] at h
  exact h.1.1.2

theorem not_isBreak_of_identReach {cs : List Char} :
    ∀ c ∈ cs.take (identReach cs), isBreak c = false := by
  fun_induction identReach cs with
  | case1 => simp
  | case2 c cs hb => simp
  | case3 c cs hb ih =>
    rintro d hd
    simp only [List.take_succ_cons, List.mem_cons] at hd
    rcases hd with rfl | rfl | hd
    · rfl
    · simpa using hb
    · exact ih d hd
  | case4 c cs hc hi ih =>
    rintro d hd
    simp only [List.take_succ_cons, List.mem_cons] at hd
    rcases hd with rfl | hd
    · exact not_isBreak_of_isIdent hi
    · exact ih d hd
  | case5 c cs hc hi => simp

/-! ## One lexeme -/

/-- What holds of every lexeme: it covers something, a punctuation kind one character, comments
stand between their marks, and garbage starts like a block comment. -/
structure Proper (x : Lexeme) : Prop where
  ne_nil : x.chars ≠ []
  punctuation : ∀ c, x.kind.char? = some c → x.chars = [c]
  blockComment : x.kind = .blockComment → ∃ body, x.chars = '/' :: '*' :: (body ++ ['*', '/'])
  lineComment : x.kind = .lineComment → ∃ body, x.chars = '/' :: '/' :: body
  garbage : x.kind = .garbage → ∃ body, x.chars = '/' :: '*' :: body

/-- A lexeme of a kind that is neither punctuation, nor a comment, nor garbage. -/
theorem proper_plain {k : Token.Kind} {c : Char} {cs : List Char} (hk : k.char? = none)
    (hc : k.isComment = false) (hg : k ≠ .garbage) : Proper ⟨k, c :: cs⟩ where
  ne_nil := by simp
  punctuation d hd := by
    change k.char? = some d at hd
    rw [hk] at hd
    cases hd
  blockComment h := by
    change k = .blockComment at h
    rw [h] at hc
    cases hc
  lineComment h := by
    change k = .lineComment at h
    rw [h] at hc
    cases hc
  garbage h := absurd h hg

/-- A lexeme of one punctuation character. -/
theorem proper_punctuation {k : Token.Kind} {c : Char} (hk : k.char? = some c) :
    Proper ⟨k, [c]⟩ where
  ne_nil := by simp
  punctuation d hd := by
    change k.char? = some d at hd
    rw [hk] at hd
    cases hd
    rfl
  blockComment h := by
    change k = .blockComment at h
    rw [h] at hk
    cases hk
  lineComment h := by
    change k = .lineComment at h
    rw [h] at hk
    cases hk
  garbage h := by
    change k = .garbage at h
    rw [h] at hk
    cases hk

theorem munchSlash_proper (cs : List Char) :
    Proper ⟨(munchSlash cs).1, '/' :: cs.take (munchSlash cs).2⟩ := by
  unfold munchSlash
  split
  · split
    · next n hn =>
      obtain ⟨body, hb⟩ := take_commentReach? hn
      exact ⟨by simp, nofun, fun _ => ⟨body, by simp [hb]⟩, nofun, nofun⟩
    · exact ⟨by simp, nofun, nofun, nofun, fun _ => ⟨_, by simp; rfl⟩⟩
  · exact ⟨by simp, nofun, nofun, fun _ => ⟨_, by simp; rfl⟩, nofun⟩
  · exact proper_punctuation rfl

theorem munch_proper (c : Char) (cs : List Char) :
    Proper ⟨(munch c cs).1, c :: cs.take (munch c cs).2⟩ := by
  unfold munch
  split
  · exact proper_plain rfl rfl nofun
  split
  · exact proper_plain rfl rfl nofun
  split
  · exact proper_plain rfl rfl nofun
  split
  · exact proper_plain rfl rfl nofun
  split
  · exact proper_plain rfl rfl nofun
  split
  · next hc =>
    subst hc
    exact munchSlash_proper cs
  split
  · next hc =>
    subst hc
    split
    · exact proper_plain rfl rfl nofun
    · exact proper_punctuation rfl
  split
  · next hc =>
    subst hc
    split
    · exact proper_plain rfl rfl nofun
    · exact proper_punctuation rfl
  · split
    · next k hk => exact proper_punctuation (Token.Kind.char?_of_ofPunctuation? hk)
    · exact proper_plain rfl rfl nofun

/-- Two lexemes can follow each other: no line break is cut in two. -/
def Apart (x y : List Char) : Prop := ¬ (x.getLast? = some '\r' ∧ y.head? = some '\n')

theorem apart_of_last {x y : List Char} {c : Char} (h : x.getLast? = some c) (hc : c ≠ '\r') :
    Apart x y := by
  rintro ⟨hx, _⟩
  rw [h] at hx
  exact hc (Option.some.inj hx)

/-- Text without line breaks can be followed by anything. -/
theorem apart_of_not_isBreak {x y : List Char} (h : ∀ c ∈ x, isBreak c = false) : Apart x y := by
  rintro ⟨hx, _⟩
  have hb := h '\r' (List.mem_of_getLast? hx)
  cases hb

theorem apart_cons_not_isBreak {c : Char} {x y : List Char} (hc : isBreak c = false)
    (h : ∀ d ∈ x, isBreak d = false) : Apart (c :: x) y := by
  refine apart_of_not_isBreak fun d hd => ?_
  rcases List.mem_cons.1 hd with rfl | hd
  · exact hc
  · exact h d hd

theorem not_isBreak_of_reachWhile {p : Char → Bool} (hp : ∀ c, p c = true → isBreak c = false)
    (cs : List Char) : ∀ c ∈ cs.take (reachWhile p cs), isBreak c = false := by
  intro c hc
  rw [take_reachWhile] at hc
  exact hp c (List.all_eq_true.1 List.all_takeWhile c hc)

theorem apart_append_last {c d : Char} {body y : List Char} (hd : d ≠ '\r') :
    Apart (c :: (body ++ [d])) y :=
  apart_of_last (by rw [← List.cons_append, List.getLast?_concat]) hd

theorem munchSlash_apart (cs : List Char) :
    Apart ('/' :: cs.take (munchSlash cs).2) (cs.drop (munchSlash cs).2) := by
  unfold munchSlash
  split
  · split
    · next n hn =>
      obtain ⟨body, hb⟩ := take_commentReach? hn
      have hsplit : '/' :: '*' :: (body ++ ['*', '/']) =
          '/' :: (('*' :: body ++ ['*']) ++ ['/']) := by
        simp
      rw [List.take_succ_cons, hb, hsplit]
      exact apart_append_last (by decide)
    · rintro ⟨_, hy⟩
      rw [List.drop_eq_nil_of_le (by simp)] at hy
      cases hy
  · refine apart_cons_not_isBreak rfl fun d hd => ?_
    rw [List.take_succ_cons] at hd
    rcases List.mem_cons.1 hd with rfl | hd
    · rfl
    · exact not_isBreak_of_reachWhile (fun c hc => by simpa using hc) _ d hd
  · exact apart_cons_not_isBreak rfl (by simp)

theorem isBreak_eq_false {c : Char} (hn : c ≠ '\n') (hr : c ≠ '\r') : isBreak c = false := by
  simp [isBreak, hn, hr]

theorem not_isBreak_of_isBlank (c : Char) (h : isBlank c = true) : isBreak c = false := by
  unfold isBlank at h
  rcases Bool.or_eq_true_iff.1 h with h | h
  · rw [of_decide_eq_true h]
    rfl
  · rw [of_decide_eq_true h]
    rfl

theorem not_isBreak_of_isDigit (c : Char) (h : c.isDigit = true) : isBreak c = false := by
  refine isBreak_eq_false ?_ ?_
  · rintro rfl
    cases h
  · rintro rfl
    cases h

/-- A lexeme ends in a carriage return only where no line feed follows. -/
theorem munch_apart (c : Char) (cs : List Char) :
    Apart (c :: cs.take (munch c cs).2) (cs.drop (munch c cs).2) := by
  unfold munch
  split
  · next h =>
    exact apart_cons_not_isBreak (not_isBreak_of_isBlank c h)
      (not_isBreak_of_reachWhile not_isBreak_of_isBlank cs)
  split
  · next h =>
    rw [h]
    exact apart_cons_not_isBreak rfl (by simp)
  split
  · next h =>
    rw [h]
    exact apart_of_last (c := '\n') rfl (by decide)
  next hn =>
  split
  · next h =>
    dsimp only
    split
    · next hh =>
      obtain ⟨rest, rfl⟩ := List.head?_eq_some_iff.1 hh
      exact apart_of_last (c := '\n') rfl (by decide)
    · next hh => exact fun ⟨_, hy⟩ => hh hy
  next hr =>
  have hc : isBreak c = false := isBreak_eq_false hn hr
  split
  · next h =>
    exact apart_cons_not_isBreak hc (not_isBreak_of_reachWhile not_isBreak_of_isDigit cs)
  split
  · next h =>
    rw [h]
    exact munchSlash_apart cs
  split
  · split
    · next n hq =>
      obtain ⟨body, hb⟩ := take_quoteReach? hq
      dsimp only
      rw [hb]
      exact apart_append_last hr
    · exact apart_cons_not_isBreak hc (by simp)
  split
  · split
    · next n hq =>
      obtain ⟨body, hb⟩ := take_quoteReach? hq
      dsimp only
      rw [hb]
      exact apart_append_last hr
    · exact apart_cons_not_isBreak hc (by simp)
  · split
    · exact apart_cons_not_isBreak hc (by simp)
    · exact apart_cons_not_isBreak hc not_isBreak_of_identReach

theorem munchSlash_lineComment {cs : List Char} (h : (munchSlash cs).1 = .lineComment) :
    ∃ line, cs = '/' :: line ∧ (munchSlash cs).2 = reachWhile (fun c => !isBreak c) line + 1 := by
  unfold munchSlash at h ⊢
  split at h
  · split at h <;> cases h
  · exact ⟨_, rfl, rfl⟩
  · cases h

/-- A line comment runs from its two slashes to the end of the line. -/
theorem munch_lineComment {c : Char} {cs : List Char} (h : (munch c cs).1 = .lineComment) :
    c = '/' ∧ ∃ line, cs = '/' :: line ∧
      (munch c cs).2 = reachWhile (fun c => !isBreak c) line + 1 := by
  unfold munch at h ⊢
  split at h
  · cases h
  split at h
  · cases h
  split at h
  · cases h
  split at h
  · cases h
  split at h
  · cases h
  split at h
  · next hb ht hn hr hd hc =>
    subst hc
    exact ⟨rfl, munchSlash_lineComment h⟩
  split at h
  · split at h <;> cases h
  split at h
  · split at h <;> cases h
  · split at h
    · next k hk =>
      have hchar := Token.Kind.char?_of_ofPunctuation? hk
      rw [show k = .lineComment from h] at hchar
      cases hchar
    · cases h

/-! ## Cutting a text -/

/-- What holds of the lexemes of a text: they cover it in order, each of them is proper, and no line
break is cut in two. -/
structure Spells (xs : List Lexeme) (cs : List Char) : Prop where
  chars : xs.flatMap Lexeme.chars = cs
  proper : ∀ x ∈ xs, x.Proper
  apart : (xs.map Lexeme.chars).IsChain Apart

theorem Spells.head? {xs : List Lexeme} {cs : List Char} (h : Spells xs cs) {x : List Char}
    (hx : x ∈ (xs.map Lexeme.chars).head?) : x.head? = cs.head? := by
  cases xs with
  | nil => cases hx
  | cons y ys =>
    simp only [List.map_cons, List.head?_cons, Option.mem_def, Option.some.injEq] at hx
    subst hx
    have hne := (h.proper y (List.mem_cons_self ..)).ne_nil
    rw [← h.chars, List.flatMap_cons, List.head?_append_of_ne_nil _ hne]

theorem Spells.cons {x : Lexeme} {xs : List Lexeme} {cs : List Char} (hx : x.Proper)
    (ha : Apart x.chars cs) (h : Spells xs cs) : Spells (x :: xs) (x.chars ++ cs) where
  chars := by rw [List.flatMap_cons, h.chars]
  proper := by
    rintro y hy
    rcases List.mem_cons.1 hy with rfl | hy
    · exact hx
    · exact h.proper y hy
  apart := by
    rw [List.map_cons, List.isChain_cons]
    refine ⟨fun y hy => ?_, h.apart⟩
    rw [Apart, h.head? hy]
    exact ha

/-- Lexemes of a text without line breaks can be followed by those of any text. -/
theorem Spells.append {xs ys : List Lexeme} {cs ds : List Char} (hx : Spells xs cs)
    (hb : ∀ c ∈ cs, isBreak c = false) (hy : Spells ys ds) : Spells (xs ++ ys) (cs ++ ds) where
  chars := by rw [List.flatMap_append, hx.chars, hy.chars]
  proper := by
    rintro z hz
    rcases List.mem_append.1 hz with hz | hz
    · exact hx.proper z hz
    · exact hy.proper z hz
  apart := by
    rw [List.map_append, List.isChain_append]
    refine ⟨hx.apart, hy.apart, fun x hxl y _ => ?_⟩
    obtain ⟨z, hz, rfl⟩ := List.mem_map.1 (List.mem_of_getLast? hxl)
    refine apart_of_not_isBreak fun c hc => hb c ?_
    rw [← hx.chars]
    exact List.mem_flatMap.2 ⟨z, hz, hc⟩

theorem spells_slash {xs : List Lexeme} {cs : List Char} (h : Spells xs cs) :
    Spells (⟨.slash, ['/']⟩ :: xs) ('/' :: cs) :=
  Spells.cons (proper_punctuation rfl) (apart_cons_not_isBreak rfl (by simp)) h

theorem cut_spells (url : Bool) (cs : List Char) : Spells (cut url cs).1 cs := by
  generalize hn : cs.length = n
  induction n using Nat.strongRecOn generalizing url cs with
  | ind n ih =>
    cases cs with
    | nil =>
      rw [cut]
      exact ⟨rfl, by simp, .nil⟩
    | cons c cs =>
      rw [cut]
      simp only [List.length_cons] at hn
      dsimp only
      split
      · next h =>
        obtain ⟨rfl, line, rfl, hreach⟩ := munch_lineComment h.1
        simp only [hreach, List.take_succ_cons, List.drop_succ_cons, List.drop_zero]
        simp only [List.length_cons] at hn
        have htail := ih _ (by simp; omega) url
          (line.take (reachWhile (fun c => !isBreak c) line)) rfl
        have hrest := ih _ (by simp; omega)
          (cut url (line.take (reachWhile (fun c => !isBreak c) line))).2
          (line.drop (reachWhile (fun c => !isBreak c) line)) rfl
        have hboth := htail.append
          (not_isBreak_of_reachWhile (fun c hc => by simpa using hc) line) hrest
        rw [List.take_append_drop] at hboth
        exact spells_slash (spells_slash hboth)
      · have hrest := ih _ (by simp; omega)
          (urlAfter url ⟨(munch c cs).1, c :: cs.take (munch c cs).2⟩)
          (cs.drop (munch c cs).2) rfl
        have hall := Spells.cons (munch_proper c cs) (munch_apart c cs) hrest
        rw [List.cons_append, List.take_append_drop] at hall
        exact hall

theorem ofSource_spells (source : String) : Spells (ofSource source) source.toList :=
  cut_spells false source.toList

end Lexeme

end LessCss
