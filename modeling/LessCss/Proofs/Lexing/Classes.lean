import LessCss.Proofs.Lexing.SinglePass
import LessCss.Proofs.Words

/-! The classes of tokens. A token is recognised by its own text: cut up alone, the text is that one
token again, whatever stood around it. Only a block comment that is never closed is recognised as
nothing. A token takes in all that could belong to it, so some kinds never stand side by side. -/

namespace LessCss

/-- A token of the first kind would have taken in one of the second kind right behind it. -/
inductive Token.Kind.TakesIn : Token.Kind → Token.Kind → Prop
  | name : TakesIn .identifier .identifier
  | numbered : TakesIn .identifier .digits
  | number : TakesIn .digits .digits
  | blank : TakesIn .space .space

namespace Lexeme

variable {x y : Lexeme} {c : Char} {cs : List Char}

/-- What holds of a slash and of all that is cut off, holds of every lexeme of a text. -/
theorem cut_all {P : Lexeme → Prop} (hslash : P slash) (hfront : ∀ c cs, P (front c cs))
    (url : Bool) (cs : List Char) : ∀ x ∈ (cut url cs).1, P x := by
  induction url, cs using cut_induction with
  | nil url =>
    rw [cut]
    exact fun x hx => absurd hx List.not_mem_nil
  | slashes line after hline hafter ihline ihafter =>
    rw [cut_slashes hline hafter]
    exact List.forall_mem_cons.2 ⟨hslash, List.forall_mem_cons.2 ⟨hslash,
      List.forall_mem_append.2 ⟨ihline, ihafter _⟩⟩⟩
  | lexeme url c cs h ih =>
    rw [cut_front h]
    exact List.forall_mem_cons.2 ⟨hfront c cs, ih⟩

/-! ## A text that is one token -/

/-- What stands at the front of a text stands at the front of its own characters. -/
theorem Starts.alone (h : Starts cs x) : Starts x.chars x := by
  cases h with
  | token admits _ => exact .token admits (List.prefix_refl _)
  | unclosed text unclosed => exact .unclosed text unclosed

/-- What stands at the front of a text is a token of the language, or an open block comment. -/
theorem Starts.admits_or_unclosed (h : Starts cs x) : Admits x.kind x.chars ∨
    x.kind = .garbage ∧ ∃ body, x.chars = '/' :: '*' :: body ∧ ¬ Closes body := by
  cases h with
  | token admits _ => exact Or.inl admits
  | unclosed text unclosed => exact Or.inr ⟨rfl, _, text, unclosed⟩

theorem slash_starts : Starts slash.chars slash :=
  .token (k := .slash) ⟨'/', rfl, rfl⟩ (List.prefix_refl _)

theorem cut_starts (url : Bool) (cs : List Char) : ∀ x ∈ (cut url cs).1, Starts x.chars x :=
  cut_all (P := fun x => Starts x.chars x) slash_starts
    (fun c cs => (front_starts c cs).alone) url cs

/-- Nothing else is cut off a text that is one lexeme as a whole. -/
theorem front_alone {k : Token.Kind} (h : Starts (c :: cs) ⟨k, c :: cs⟩) :
    front c cs = ⟨k, c :: cs⟩ := by
  refine (h.shorter_or_eq.resolve_left ?_).symm
  rw [length_front, List.length_cons]
  omega

/-- A text that is one lexeme as a whole is cut up into it. -/
theorem cut_alone (h : Starts x.chars x) : (cut false x.chars).1 = [x] := by
  obtain ⟨k, w⟩ := x
  cases w with
  | nil =>
    cases h with
    | token admits _ => exact absurd admits (not_admits_nil k)
    | unclosed text _ => cases text
  | cons c w =>
    have hfront := front_alone h
    have hrest : w.drop (munch c w).2 = [] := by
      have hwhole := front_append_drop c w
      rw [hfront] at hwhole
      exact List.append_cancel_left (hwhole.trans (List.append_nil (c :: w)).symm)
    rw [cut_front (fun hu => Bool.false_ne_true hu.1), hfront, hrest, cut]

/-- A lexeme is garbage if it is a block comment that is never closed, and only then. -/
theorem Starts.garbage_iff (h : Starts x.chars x) :
    x.kind = .garbage ↔ ∃ body, x.chars = '/' :: '*' :: body ∧ ¬ Closes body := by
  constructor
  · intro hk
    rcases h.admits_or_unclosed with hadmits | ⟨-, hopen⟩
    · rw [hk] at hadmits
      obtain ⟨c, hc, _⟩ := hadmits
      cases hc
    · exact hopen
  · rintro ⟨body, htext, hopen⟩
    -- both take the whole text, so they are the same lexeme
    have hcut : [x] = [⟨.garbage, '/' :: '*' :: body⟩] := by
      rw [← cut_alone h, htext]
      exact cut_alone (x := ⟨.garbage, '/' :: '*' :: body⟩) (.unclosed rfl hopen)
    rw [List.head_eq_of_cons_eq hcut]

/-! ## Neighbours -/

/-- The characters that a lexeme of a kind takes in, one after the other. -/
def accepts : Token.Kind → Char → Bool
  | .space => isBlank
  | .digits => Char.isDigit
  | .identifier => isIdent
  | _ => fun _ => false

theorem isIdent_of_isDigit (h : c.isDigit = true) : isIdent c = true := by
  have hne : ∀ d, d.isDigit = false → c ≠ d := by
    rintro d hd rfl
    rw [h] at hd
    cases hd
  have hmark : Token.Kind.ofPunctuation? c = none := by
    unfold Token.Kind.ofPunctuation?
    split <;> first
      | rfl
      | cases h
  simp [isIdent, isBlank, isBreak, hmark, hne ' ' rfl, hne '\x0c' rfl, hne '\n' rfl, hne '\r' rfl,
    hne '\t' rfl]

theorem not_accepts_of_isBreak (h : isBreak c = true) (k : Token.Kind) : accepts k c = false := by
  refine Bool.eq_false_iff.2 fun hk => ?_
  have hno : isBreak c = false := by
    cases k
    case space => exact not_isBreak_of_isBlank c hk
    case digits => exact not_isBreak_of_isDigit c hk
    case identifier => exact not_isBreak_of_isIdent hk
    all_goals cases hk
  rw [hno] at h
  cases h

/-- What starts with one of the kinds that a kind takes in starts with a character it accepts. -/
theorem Starts.accepted {k : Token.Kind} (h : Starts cs y) (hk : k.TakesIn y.kind) :
    ∃ d ∈ cs.head?, accepts k d = true := by
  cases h with
  | unclosed _ _ => cases hk
  | @token l w admits hfront =>
    dsimp only at hk
    have hhead : ∀ d w', w = d :: w' → cs.head? = some d := by
      rintro d w' rfl
      obtain ⟨rest, rfl⟩ := hfront
      rfl
    have hrun : ∀ {p : Char → Bool}, (w ≠ [] ∧ ∀ d ∈ w, p d = true) →
        ∃ d ∈ cs.head?, p d = true := by
      rintro p ⟨hne, hall⟩
      obtain ⟨d, w', rfl⟩ := List.exists_cons_of_ne_nil hne
      exact ⟨d, hhead d w' rfl, hall d List.mem_cons_self⟩
    cases hk with
    | name =>
      obtain ⟨d, rest, he, hident, _⟩ := admits
      exact ⟨d, hhead d rest he, hident⟩
    | numbered =>
      obtain ⟨d, hd, hdigit⟩ := hrun admits
      exact ⟨d, hd, isIdent_of_isDigit hdigit⟩
    | number => exact hrun admits
    | blank => exact hrun admits

theorem head?_drop_reachWhile (p : Char → Bool) (cs : List Char) :
    ∀ d ∈ (cs.drop (reachWhile p cs)).head?, p d = false := by
  intro d hd
  have hstop := List.head?_dropWhile_not p cs
  rw [← drop_reachWhile, hd] at hstop
  simpa using hstop

/-- Behind an identifier no character follows that could belong to it. -/
theorem head?_drop_ident (cs : List Char) :
    ∀ d ∈ (cs.drop (identReach cs)).head?, isIdent d = false := by
  fun_induction identReach cs with
  | case1 => simp
  | case2 c cs hb =>
    rintro d ⟨⟩
    rfl
  | case3 c cs hb ih => simpa using ih
  | case4 c cs hc hi ih => simpa using ih
  | case5 c cs hc hi =>
    rintro d ⟨⟩
    exact Bool.eq_false_iff.2 hi

/-- What is cut off takes in all that it accepts. -/
theorem front_stops (c : Char) (cs : List Char) :
    ∀ d ∈ (cs.drop (munch c cs).2).head?, accepts (front c cs).kind d = false := by
  rcases (front_starts c cs).admits_or_unclosed with hadmits | ⟨hk, -⟩
  case inr =>
    rw [hk]
    exact fun _ _ => rfl
  generalize hk : (front c cs).kind = k at hadmits ⊢
  cases k
  case space =>
    rw [munch_blank (hadmits.2 c List.mem_cons_self)]
    exact head?_drop_reachWhile isBlank cs
  case digits =>
    rw [munch_digit (hadmits.2 c List.mem_cons_self)]
    exact head?_drop_reachWhile Char.isDigit cs
  case identifier =>
    obtain ⟨d, rest, he, hident, hdigit, _⟩ := hadmits
    obtain ⟨rfl, _⟩ := List.cons.inj he
    rw [munch_ident hident hdigit]
    exact head?_drop_ident cs
  all_goals exact fun _ _ => rfl

/-- The first lexeme of a text stands at its front. -/
theorem cut_head (url : Bool) (cs : List Char) : ∀ y ∈ (cut url cs).1.head?, Starts cs y := by
  induction url, cs using cut_induction with
  | nil url =>
    intro y hy
    rw [cut] at hy
    cases hy
  | slashes line after hline hafter _ _ =>
    rw [cut_slashes hline hafter]
    rintro y ⟨⟩
    exact .token (k := .slash) ⟨'/', rfl, rfl⟩ ⟨_, rfl⟩
  | lexeme url c cs h _ =>
    rw [cut_front h]
    rintro y ⟨⟩
    exact front_starts c cs

/-- Two lexemes that can follow each other. -/
def Separate (x y : Lexeme) : Prop := ¬ x.kind.TakesIn y.kind

/-- Behind a lexeme that accepts nothing of a text, the first lexeme of the text is separate. -/
theorem separate_head {url : Bool} (h : ∀ d ∈ cs.head?, accepts x.kind d = false) :
    ∀ y ∈ (cut url cs).1.head?, Separate x y := by
  intro y hy htakes
  obtain ⟨d, hd, haccepts⟩ := (cut_head url cs y hy).accepted htakes
  rw [h d hd] at haccepts
  cases haccepts

/-- No lexeme of a text could have taken in the one behind it. -/
theorem cut_separate (url : Bool) (cs : List Char) : (cut url cs).1.IsChain Separate := by
  induction url, cs using cut_induction with
  | nil url =>
    rw [cut]
    exact .nil
  | slashes line after hline hafter ihline ihafter =>
    rw [cut_slashes hline hafter]
    have hslash : ∀ {xs : List Lexeme}, xs.IsChain Separate → (slash :: xs).IsChain Separate := by
      refine fun hxs => List.isChain_cons.2 ⟨fun y _ htakes => ?_, hxs⟩
      cases htakes
    -- the line is cut up on its own, and what comes behind it starts with a line break
    refine hslash (hslash (List.isChain_append.2 ⟨ihline, ihafter _, fun x _ => ?_⟩))
    exact separate_head fun d hd => not_accepts_of_isBreak (hafter d hd) _
  | lexeme url c cs h ih =>
    rw [cut_front h]
    exact List.isChain_cons.2 ⟨separate_head (front_stops c cs), ih⟩

end Lexeme

/-- The text of a token, cut up alone, is the same token. The tokens that are garbage are those
whose text opens a block comment and does not close it. No identifier has an identifier or digits
right behind it, no digits have digits, and no blanks have blanks. -/
theorem tokens_classified (source : String) :
    (∀ t ∈ (Token.lex source).toList,
      (Token.lex t.text).toList.map Token.lexeme = [t.lexeme] ∧
      (t.kind = .garbage ↔
        ∃ body, t.text.toList = '/' :: '*' :: body ∧ ¬ Lexeme.Closes body)) ∧
    (Token.lex source).toList.IsChain fun t u => ¬ t.kind.TakesIn u.kind := by
  refine ⟨fun t ht => ?_, ?_⟩
  · have hmem : t.lexeme ∈ Lexeme.ofSource source := by
      rw [← Token.lex_lexemes]
      exact List.mem_map_of_mem ht
    have hstarts : Lexeme.Starts t.lexeme.chars t.lexeme := Lexeme.cut_starts _ _ _ hmem
    refine ⟨?_, hstarts.garbage_iff⟩
    rw [Token.lex_lexemes]
    exact Lexeme.cut_alone hstarts
  · have hchain := Lexeme.cut_separate false source.toList
    change (Lexeme.ofSource source).IsChain Lexeme.Separate at hchain
    rw [← Token.lex_lexemes, List.isChain_map] at hchain
    exact hchain

/-- An open comment on the line of an address is garbage also between other tokens. -/
theorem tokens_classified_address : ∃ t ∈ (Token.lex "url(//a/*b\n)").toList,
    t.kind = .garbage ∧ (Token.lex t.text).toList.map Token.lexeme = [t.lexeme] ∧
      t.text.toList = ['/', '*', 'b'] := by
  have hkinds : (Token.lex "url(//a/*b\n)").toList.map Token.lexeme = Lexeme.ofSource _ :=
    Token.lex_lexemes _
  have hmem : (⟨.garbage, ['/', '*', 'b']⟩ : Lexeme) ∈ Lexeme.ofSource "url(//a/*b\n)" := by
    decide +kernel
  rw [← hkinds] at hmem
  obtain ⟨t, ht, he⟩ := List.mem_map.1 hmem
  obtain ⟨hk, htext⟩ := Lexeme.mk.inj he
  exact ⟨t, ht, hk, ((tokens_classified _).1 t ht).1, htext⟩

end LessCss
