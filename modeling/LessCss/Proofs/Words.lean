import LessCss.Proofs.Spelling
import LessCss.Text
import Mathlib.Data.List.SplitBy

/-! Words in a source. An identifier reaches as far as it can, so no cut of a source separates two
letters. A word that stands somewhere in a stretch of tokens therefore stands in one of them, and a
stretch that falls into as many words and marks as it has tokens has one in each. -/

namespace LessCss

namespace Lexeme

/-- Both are letters. -/
def letters (c d : Char) : Bool := c.isAlpha && d.isAlpha

/-- The cut between two texts separates no two letters. -/
def Unjoined (x y : List Char) : Prop := ∀ c ∈ x.getLast?, ∀ d ∈ y.head?, letters c d = false

/-! ## Where words end -/

theorem unjoined_of_last {x y : List Char} (h : ∀ c ∈ x.getLast?, c.isAlpha = false) :
    Unjoined x y := by
  intro c hc d _
  rw [letters, h c hc, Bool.false_and]

theorem unjoined_of_head {x y : List Char} (h : ∀ d ∈ y.head?, d.isAlpha = false) :
    Unjoined x y := by
  intro c _ d hd
  rw [letters, h d hd, Bool.and_false]

theorem unjoined_of_forall {x y : List Char} (h : ∀ c ∈ x, c.isAlpha = false) : Unjoined x y :=
  unjoined_of_last fun c hc => h c (List.mem_of_getLast? hc)

theorem unjoined_concat {x y : List Char} {c : Char} (h : c.isAlpha = false) :
    Unjoined (x ++ [c]) y := by
  refine unjoined_of_last fun d hd => ?_
  rw [List.getLast?_concat] at hd
  cases hd
  exact h

theorem not_isAlpha_of_isBlank {c : Char} (h : isBlank c = true) : c.isAlpha = false := by
  unfold isBlank at h
  rcases Bool.or_eq_true_iff.1 h with h | h <;> rw [of_decide_eq_true h] <;> rfl

theorem not_isAlpha_of_isBreak {c : Char} (h : isBreak c = true) : c.isAlpha = false := by
  unfold isBreak at h
  rcases Bool.or_eq_true_iff.1 h with h | h <;> rw [of_decide_eq_true h] <;> rfl

theorem not_isAlpha_of_isDigit {c : Char} (h : c.isDigit = true) : c.isAlpha = false := by
  change (decide (48 ≤ c.val) && decide (c.val ≤ 57)) = true at h
  change (decide (65 ≤ c.val ∧ c.val ≤ 90) || (decide (97 ≤ c.val) && decide (c.val ≤ 122))) = false
  simp [UInt32.le_iff_toNat_le] at h ⊢
  omega

theorem not_isAlpha_of_ofPunctuation? {c : Char} {k : Token.Kind}
    (h : Token.Kind.ofPunctuation? c = some k) : c.isAlpha = false := by
  unfold Token.Kind.ofPunctuation? at h
  split at h <;> first
    | rfl
    | cases h

theorem isIdent_of_isAlpha {c : Char} (h : c.isAlpha = true) : isIdent c = true := by
  have hblank : isBlank c = false := by
    by_contra hb
    rw [not_isAlpha_of_isBlank (by simpa using hb)] at h
    cases h
  have hbreak : isBreak c = false := by
    by_contra hb
    rw [not_isAlpha_of_isBreak (by simpa using hb)] at h
    cases h
  have htab : c ≠ '\t' := by
    rintro rfl
    cases h
  have hmark : Token.Kind.ofPunctuation? c = none := by
    refine Option.eq_none_iff_forall_ne_some.2 fun k hk => ?_
    rw [not_isAlpha_of_ofPunctuation? hk] at h
    cases h
  simp [isIdent, hblank, hbreak, htab, hmark]

/-- Behind the characters of an identifier no letter follows. -/
theorem head?_drop_identReach (cs : List Char) :
    ∀ d ∈ (cs.drop (identReach cs)).head?, d.isAlpha = false := by
  fun_induction identReach cs with
  | case1 => simp
  | case2 c cs hb =>
    rintro d ⟨⟩
    rfl
  | case3 c cs hb ih => simpa using ih
  | case4 c cs hc hi ih => simpa using ih
  | case5 c cs hc hi =>
    rintro d ⟨⟩
    by_contra ha
    exact hi (isIdent_of_isAlpha (by simpa using ha))

theorem drop_reachWhile (p : Char → Bool) (cs : List Char) :
    cs.drop (reachWhile p cs) = cs.dropWhile p := by
  have h : (cs.takeWhile p ++ cs.dropWhile p).drop (cs.takeWhile p).length = cs.dropWhile p :=
    List.drop_left
  rwa [List.takeWhile_append_dropWhile] at h

/-- The rest of a line ends before a line break. -/
theorem head?_drop_line (line : List Char) :
    ∀ d ∈ (line.drop (reachWhile (fun c => !isBreak c) line)).head?, d.isAlpha = false := by
  intro d hd
  have hstop := List.head?_dropWhile_not (fun c => !isBreak c) line
  rw [drop_reachWhile, Option.mem_def] at hd
  rw [hd] at hstop
  exact not_isAlpha_of_isBreak (by simpa using hstop)

theorem unjoined_reachWhile {c : Char} {p : Char → Bool} (hc : c.isAlpha = false)
    (hp : ∀ d, p d = true → d.isAlpha = false) (cs y : List Char) :
    Unjoined (c :: cs.take (reachWhile p cs)) y := by
  refine unjoined_of_forall (List.forall_mem_cons.2 ⟨hc, fun d hd => ?_⟩)
  rw [take_reachWhile] at hd
  exact hp d (List.all_eq_true.1 List.all_takeWhile d hd)

theorem munchSlash_unjoined (cs : List Char) :
    Unjoined ('/' :: cs.take (munchSlash cs).2) (cs.drop (munchSlash cs).2) := by
  unfold munchSlash
  split
  · split
    · next n hn =>
      obtain ⟨body, hb⟩ := take_commentReach? hn
      have hsplit : '/' :: '*' :: (body ++ ['*', '/']) = ('/' :: '*' :: body ++ ['*']) ++ ['/'] := by
        simp
      rw [List.take_succ_cons, hb, hsplit]
      exact unjoined_concat rfl
    · refine unjoined_of_head fun d hd => ?_
      rw [List.drop_eq_nil_of_le (by simp)] at hd
      cases hd
  · exact unjoined_of_head (head?_drop_line _)
  · exact unjoined_concat (x := []) rfl

/-- A lexeme that ends in a letter reaches as far as letters follow. -/
theorem munch_unjoined (c : Char) (cs : List Char) :
    Unjoined (c :: cs.take (munch c cs).2) (cs.drop (munch c cs).2) := by
  have hquoted : ∀ {n}, quoteReach? c cs = some n → c.isAlpha = false →
      Unjoined (c :: cs.take n) (cs.drop n) := by
    intro n hn hc
    obtain ⟨body, hb⟩ := take_quoteReach? hn
    rw [hb]
    exact unjoined_concat (x := c :: body) hc
  unfold munch
  split
  · next h =>
    exact unjoined_reachWhile (not_isAlpha_of_isBlank h) (fun _ => not_isAlpha_of_isBlank) cs _
  split
  · next h => exact unjoined_concat (x := []) (by rw [h]; rfl)
  split
  · next h => exact unjoined_concat (x := []) (by rw [h]; rfl)
  split
  · next h =>
    rw [h]
    dsimp only
    split
    · next hh =>
      obtain ⟨rest, rfl⟩ := List.head?_eq_some_iff.1 hh
      exact unjoined_concat (x := ['\r']) rfl
    · exact unjoined_concat (x := []) rfl
  split
  · next h =>
    exact unjoined_reachWhile (not_isAlpha_of_isDigit h) (fun _ => not_isAlpha_of_isDigit) cs _
  split
  · next h =>
    rw [h]
    exact munchSlash_unjoined cs
  split
  · next h =>
    have hc : c.isAlpha = false := by rw [h]; rfl
    split
    · next n hn => exact hquoted hn hc
    · exact unjoined_concat (x := []) hc
  split
  · next h =>
    have hc : c.isAlpha = false := by rw [h]; rfl
    split
    · next n hn => exact hquoted hn hc
    · exact unjoined_concat (x := []) hc
  · split
    · next k hk => exact unjoined_concat (x := []) (not_isAlpha_of_ofPunctuation? hk)
    · exact unjoined_of_head (head?_drop_identReach cs)

/-- Lexemes go on behind one more, if the cut is good. -/
theorem isChain_unjoined_cons {x : List Char} {xs : List Lexeme} {cs : List Char}
    (hs : Spells xs cs) (hx : Unjoined x cs) (h : (xs.map Lexeme.chars).IsChain Unjoined) :
    (x :: xs.map Lexeme.chars).IsChain Unjoined := by
  refine List.isChain_cons.2 ⟨fun y hy => ?_, h⟩
  rw [Unjoined, hs.head? hy]
  exact hx

/-- No cut of a text separates two letters. -/
theorem cut_unjoined (url : Bool) (cs : List Char) :
    ((cut url cs).1.map Lexeme.chars).IsChain Unjoined := by
  generalize hn : cs.length = n
  induction n using Nat.strongRecOn generalizing url cs with
  | ind n ih =>
    cases cs with
    | nil =>
      rw [cut]
      exact .nil
    | cons c cs =>
      rw [cut]
      simp only [List.length_cons] at hn
      dsimp only
      split
      · next h =>
        obtain ⟨rfl, line, rfl, hreach⟩ := munch_lineComment h.1
        simp only [hreach, List.take_succ_cons, List.drop_succ_cons, List.drop_zero]
        simp only [List.length_cons] at hn
        have htail := ih _ (by simp; omega) url
          (line.take (reachWhile (fun c => !isBreak c) line)) rfl
        have hrest := ih _ (by simp; omega)
          (cut url (line.take (reachWhile (fun c => !isBreak c) line))).2
          (line.drop (reachWhile (fun c => !isBreak c) line)) rfl
        -- behind the rest of the line comes a line break
        have hboth := List.isChain_append.2 ⟨htail, hrest, fun x _ y hy => unjoined_of_head (by
          rw [(cut_spells _ _).head? hy]
          exact head?_drop_line line)⟩
        rw [← List.map_append] at hboth
        have hslash : ∀ {xs : List (List Char)}, xs.IsChain Unjoined →
            (['/'] :: xs).IsChain Unjoined := fun hxs =>
          List.isChain_cons.2 ⟨fun _ _ => unjoined_concat (x := []) rfl, hxs⟩
        exact hslash (hslash hboth)
      · have hrest := ih _ (by simp; omega)
          (urlAfter url ⟨(munch c cs).1, c :: cs.take (munch c cs).2⟩)
          (cs.drop (munch c cs).2) rfl
        exact isChain_unjoined_cons (cut_spells _ _) (munch_unjoined c cs) hrest

/-! ## Words in a stretch of lexemes -/

variable {w x : List Char} {xs : List (List Char)}

/-- Where lexemes go on behind `x`, no letter follows a letter. -/
theorem unjoined_flatten (hxs : ∀ y ∈ xs, y ≠ []) (hchain : (x :: xs).IsChain Unjoined) :
    Unjoined x xs.flatten := by
  cases xs with
  | nil => exact unjoined_of_head nofun
  | cons y ys =>
    rw [Unjoined, List.flatten_cons, List.head?_append_of_ne_nil _ (hxs y List.mem_cons_self)]
    exact (List.isChain_cons_cons.1 hchain).1

/-- A word that stands in a stretch stands in one of its lexemes. -/
theorem infix_flatten_iff (hw : ∀ c ∈ w, c.isAlpha = true) (hne : w ≠ []) (hxs : ∀ x ∈ xs, x ≠ [])
    (hchain : xs.IsChain Unjoined) : w <:+: xs.flatten ↔ ∃ x ∈ xs, w <:+: x := by
  refine ⟨fun h => ?_, fun ⟨x, hx, h⟩ => h.trans (List.infix_of_mem_flatten hx)⟩
  induction xs with
  | nil => exact absurd (List.infix_nil.1 h) hne
  | cons x xs ih =>
    have hrest : w <:+: xs.flatten → ∃ y ∈ x :: xs, w <:+: y := fun h => by
      obtain ⟨y, hy, hwy⟩ := ih (fun y hy => hxs y (List.mem_cons_of_mem x hy)) hchain.tail h
      exact ⟨y, List.mem_cons_of_mem x hy, hwy⟩
    obtain ⟨a, b, hab⟩ := h
    rw [List.flatten_cons] at hab
    rcases List.append_eq_append_iff.1 hab with ⟨c, rfl, _⟩ | ⟨c, hc, hb⟩
    · exact ⟨_, List.mem_cons_self, ⟨a, c, rfl⟩⟩
    rcases List.append_eq_append_iff.1 hc with ⟨d, rfl, hd⟩ | ⟨d, _, rfl⟩
    · -- a word on both sides of the cut would have a letter on both sides
      by_cases hd' : d = []
      · exact hrest ⟨[], b, by rw [hb, hd, hd']; rfl⟩
      by_cases hc' : c = []
      · exact ⟨_, List.mem_cons_self, ⟨a, [], by rw [hd, hc', List.append_nil, List.append_nil]⟩⟩
      have hcut := unjoined_flatten (fun y hy => hxs y (List.mem_cons_of_mem _ hy)) hchain
        (d.getLast hd') (by rw [List.getLast?_append_of_ne_nil _ hd']; exact List.getLast?_eq_some_getLast hd')
        (c.head hc') (by rw [hb, List.head?_append_of_ne_nil _ hc']; exact List.head?_eq_some_head hc')
      rw [letters, hw _ (hd ▸ List.mem_append_left c (List.getLast_mem hd')),
        hw _ (hd ▸ List.mem_append_right d (List.head_mem hc'))] at hcut
      cases hcut
    · exact hrest ⟨d, b, hb.symm⟩

/-- A stretch falls into at least one word or mark for each lexeme. -/
theorem length_le_splitBy (hxs : ∀ x ∈ xs, x ≠ []) (hchain : xs.IsChain Unjoined) :
    xs.length ≤ (xs.flatten.splitBy letters).length := by
  induction xs with
  | nil => exact Nat.zero_le _
  | cons x xs ih =>
    have hxs' : ∀ y ∈ xs, y ≠ [] := fun y hy => hxs y (List.mem_cons_of_mem x hy)
    have hpos : 0 < (x.splitBy letters).length :=
      List.length_pos_of_ne_nil (List.splitBy_ne_nil.2 (hxs x List.mem_cons_self))
    have hrest := ih hxs' hchain.tail
    rw [List.flatten_cons, List.splitBy_append (unjoined_flatten hxs' hchain), List.length_append,
      List.length_cons]
    omega

/-- A stretch that falls into no more words and marks than it has lexemes has one in each. -/
theorem splitBy_flatten_eq (hxs : ∀ x ∈ xs, x ≠ []) (hchain : xs.IsChain Unjoined)
    (hlen : (xs.flatten.splitBy letters).length ≤ xs.length) :
    xs.flatten.splitBy letters = xs := by
  induction xs with
  | nil => rfl
  | cons x xs ih =>
    have hxs' : ∀ y ∈ xs, y ≠ [] := fun y hy => hxs y (List.mem_cons_of_mem x hy)
    rw [List.flatten_cons, List.splitBy_append (unjoined_flatten hxs' hchain)] at hlen ⊢
    rw [List.length_append, List.length_cons] at hlen
    have hpos : 0 < (x.splitBy letters).length :=
      List.length_pos_of_ne_nil (List.splitBy_ne_nil.2 (hxs x List.mem_cons_self))
    have hrest := length_le_splitBy hxs' hchain.tail
    obtain ⟨y, hy⟩ := List.length_eq_one_iff.1 (show (x.splitBy letters).length = 1 by omega)
    have hflat := List.flatten_splitBy letters x
    rw [hy, List.flatten_singleton] at hflat
    rw [hy, hflat, ih hxs' hchain.tail (by omega)]
    rfl

/-- A lexeme that starts with a mark is of the mark's kind, if nothing longer starts with it. -/
theorem cut_mark {c : Char} {k : Token.Kind} (hk : ∀ cs, munch c cs = (k, 0)) (hc : c ≠ '/')
    (url : Bool) (cs : List Char) :
    ∀ x ∈ (cut url cs).1, x.chars.head? = some c → x.kind = k := by
  generalize hn : cs.length = n
  induction n using Nat.strongRecOn generalizing url cs with
  | ind n ih =>
    cases cs with
    | nil =>
      rw [cut]
      exact fun x hx => absurd hx (List.not_mem_nil)
    | cons d cs =>
      rw [cut]
      simp only [List.length_cons] at hn
      dsimp only
      split
      · have htail := ih _ (by simp; omega) url ((cs.take (munch d cs).2).drop 1) rfl
        have hrest := ih _ (by simp; omega) (cut url ((cs.take (munch d cs).2).drop 1)).2
          (cs.drop (munch d cs).2) rfl
        have hslash : ∀ x : Lexeme, x = ⟨.slash, ['/']⟩ → x.chars.head? = some c → x.kind = k := by
          rintro x rfl hx
          exact absurd (Option.some.inj hx).symm hc
        simp only [List.forall_mem_cons, List.forall_mem_append]
        exact ⟨hslash _ rfl, hslash _ rfl, htail, hrest⟩
      · have hrest := ih _ (by simp; omega)
          (urlAfter url ⟨(munch d cs).1, d :: cs.take (munch d cs).2⟩)
          (cs.drop (munch d cs).2) rfl
        refine List.forall_mem_cons.2 ⟨fun hd => ?_, hrest⟩
        cases hd
        rw [hk]

end Lexeme

/-! ## Words in a stretch of tokens -/

/-- The texts of the tokens from `lo` up to `hi`. -/
def Tokens.texts (ts : Tokens) (lo hi : Nat) : List String := (ts.extract lo hi).toList.map Token.text

namespace Token

open Lexeme

variable (source : String)

theorem texts_toList (lo hi : Nat) : (Tokens.texts (lex source) lo hi).map String.toList =
    (((ofSource source).map Lexeme.chars).drop lo).take (hi - lo) := by
  unfold Tokens.texts
  rw [Array.toList_extract, List.extract_eq_take_drop, ← lex_texts, ← List.map_drop, ← List.map_take,
    List.map_map]
  rfl

theorem texts_unjoined (lo hi : Nat) :
    ((Tokens.texts (lex source) lo hi).map String.toList).IsChain Unjoined := by
  rw [texts_toList]
  exact ((cut_unjoined false source.toList).drop lo).take (hi - lo)

theorem texts_ne_nil (lo hi : Nat) :
    ∀ x ∈ (Tokens.texts (lex source) lo hi).map String.toList, x ≠ [] := by
  rw [texts_toList]
  exact fun x hx => chars_ne_nil source x (List.mem_of_mem_drop (List.mem_of_mem_take hx))

theorem join_toList (lo hi : Nat) : (Tokens.join (lex source) lo hi).toList =
    ((Tokens.texts (lex source) lo hi).map String.toList).flatten := by
  rw [lex_join, texts_toList]

/-- A word that stands in a stretch of tokens stands in one of them. -/
theorem contains_join_iff {w : String} (hw : ∀ c ∈ w.toList, c.isAlpha = true) (hne : w.toList ≠ [])
    (lo hi : Nat) : Text.contains w (Tokens.join (lex source) lo hi) = true ↔
      ∃ t ∈ Tokens.texts (lex source) lo hi, Text.contains w t = true := by
  have hcontains : ∀ s : String, Text.contains w s = true ↔ w.toList <:+: s.toList := by
    intro s
    rw [Text.contains, Text.occurs_iff]
    exact exists_congr fun a => exists_congr fun b => eq_comm
  simp only [hcontains, join_toList]
  rw [infix_flatten_iff hw hne (texts_ne_nil source lo hi) (texts_unjoined source lo hi)]
  simp only [List.mem_map, exists_exists_and_eq_and]

/-- A stretch of no fewer tokens than it has words and marks has one in each. -/
theorem texts_eq_of_join {lo hi : Nat} {ws : List String}
    (hws : (Tokens.join (lex source) lo hi).toList.splitBy letters = ws.map String.toList)
    (hlen : ws.length ≤ (Tokens.texts (lex source) lo hi).length) :
    Tokens.texts (lex source) lo hi = ws := by
  rw [join_toList] at hws
  have hall := splitBy_flatten_eq (texts_ne_nil source lo hi) (texts_unjoined source lo hi)
    (by rw [hws, List.length_map, List.length_map]; exact hlen)
  rw [hws] at hall
  exact (List.map_injective_iff.2 (fun _ _ => String.toList_inj.1) hall).symm

/-- A token whose text is a mark is of the mark's kind. -/
theorem kind_of_mark {c : Char} {k : Kind} (hk : ∀ cs, munch c cs = (k, 0)) (hc : c ≠ '/') {i : Nat}
    (h : Tokens.text (lex source) i = String.ofList [c]) : Tokens.is (lex source) i k = true := by
  have hi : i < (lex source).size := Tokens.lt_of_text (by rw [h]; simp)
  obtain ⟨t, ht⟩ : ∃ t, (lex source)[i]? = some t := ⟨_, Array.getElem?_eq_getElem hi⟩
  obtain ⟨x, hx, hkind, htext⟩ := lex_lexeme source ht
  rw [Tokens.text, ht, Option.map_some, Option.getD_some, htext] at h
  have hhead : x.chars.head? = some c := by
    rw [String.ofList_injective h]
    rfl
  refine Tokens.is_iff.2 ?_
  rw [Tokens.kind?, ht, Option.map_some, hkind, cut_mark hk hc _ _ x hx hhead]

end Token

end LessCss
