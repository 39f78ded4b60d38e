import LessCss.Proofs.Lexing
import LessCss.Proofs.Links

/-! The tokens of a source, as far as the text of a tree and its places need to know them. Read one
after the other they are the source; punctuation and comments are spelled as their kinds say; a
closer is of the same type as its opener; and a token starts where the text before it ends. -/

namespace LessCss

open Lexeme

/-! ## Places between lexemes -/

/-- Places can be reckoned up to any lexeme, and from there on. -/
theorem Position.advanceChars_flatten (p : Position) (xs ys : List (List Char))
    (hne : ∀ x ∈ xs ++ ys, x ≠ []) (hc : (xs ++ ys).IsChain Apart) :
    p.advanceChars (xs.flatten ++ ys.flatten) =
      (p.advanceChars xs.flatten).advanceChars ys.flatten := by
  refine advanceChars_append p _ _ fun ⟨hlast, hhead⟩ => ?_
  rcases List.eq_nil_or_concat xs with rfl | ⟨xs, x, rfl⟩
  · cases hlast
  rw [List.concat_eq_append] at *
  cases ys with
  | nil => cases hhead
  | cons y ys =>
    have hx : x ≠ [] := hne x (by simp)
    have hy : y ≠ [] := hne y (by simp)
    rw [List.flatten_append, List.flatten_singleton, List.getLast?_append_of_ne_nil _ hx] at hlast
    rw [List.flatten_cons, List.head?_append_of_ne_nil _ hy] at hhead
    have happ := (List.isChain_append.1 hc).2.2 x (by simp) y rfl
    exact happ ⟨hlast, hhead⟩

namespace Token

theorem place_map {α : Type} (f : Token → α) (g : Lexeme → α) (p : Position) (xs : List Lexeme)
    (h : ∀ x q, f ⟨x.kind, String.ofList x.chars, q, none, none⟩ = g x) :
    (place p xs).map f = xs.map g := by
  induction xs generalizing p with
  | nil => rfl
  | cons x xs ih => rw [place, List.map_cons, List.map_cons, h, ih]

/-- A token starts where the text of the lexemes before it ends. -/
theorem place_start {xs : List Lexeme} (hne : ∀ x ∈ xs.map Lexeme.chars, x ≠ [])
    (hc : (xs.map Lexeme.chars).IsChain Apart) (p : Position) {i : Nat} {t : Token}
    (h : (place p xs)[i]? = some t) :
    t.start = p.advanceChars ((xs.map Lexeme.chars).take i).flatten := by
  induction xs generalizing p i with
  | nil => cases h
  | cons x xs ih =>
    cases i with
    | zero =>
      cases h
      rfl
    | succ i =>
      rw [place, List.getElem?_cons_succ] at h
      have hrest := ih (fun y hy => hne y (List.mem_cons_of_mem _ hy)) hc.tail _ h
      have hcut := Position.advanceChars_flatten p [x.chars] ((xs.map Lexeme.chars).take i)
        (fun y hy => hne y (List.mem_of_mem_take (i := i + 1) hy)) (hc.take (i + 1))
      rw [List.flatten_singleton] at hcut
      rw [hrest, Position.advance, String.toList_ofList]
      exact hcut.symm

end Token

/-! ## The tokens of a source -/

/-- The kind of token that closes a type of bracket. -/
def Bracket.closer : Bracket → Token.Kind
  | .paren => .rightParen
  | .square => .rightSquare
  | .curly => .rightCurly

theorem Token.Kind.eq_closer {k : Token.Kind} {b : Bracket} (h : k.closes? = some b) :
    k = b.closer := by
  cases k <;> cases h <;> rfl

/-- What holds of the tokens of a source. -/
structure Tokens.Faithful (ts : Tokens) (source : String) : Prop where
  join_all : ts.join 0 ts.size = source
  text_ne : ∀ i, i < ts.size → ts.text i ≠ ""
  punctuation : ∀ i k c, ts.is i k = true → k.char? = some c → ts.text i = String.ofList [c]
  blockComment : ∀ i, ts.is i .blockComment = true → ∃ body, ts.text i = "/*" ++ body ++ "*/"
  lineComment : ∀ i, ts.is i .lineComment = true → ∃ body, ts.text i = "//" ++ body
  garbage : ∀ i, ts.is i .garbage = true → ∃ body, ts.text i = "/*" ++ body
  closes : ∀ i k c b, ts.closer? i k = some c → k.opens? = some b → ts.is c b.closer = true
  origin : ts.position 0 = .origin
  advance : ∀ i j, i ≤ j → j ≤ ts.size → (ts.position i).advance (ts.join i j) = ts.position j

namespace Token

variable (source : String)

theorem lex_map {α : Type} (f : Token → α) (hf : ∀ t, f t.unlinked = f t) :
    (lex source).toList.map f = (place .origin (ofSource source)).map f := by
  have h := congrArg (List.map f) (link_unlinked (place .origin (ofSource source)))
  rw [List.map_map, List.map_map] at h
  have hc : f ∘ unlinked = f := funext hf
  rw [hc] at h
  exact h

/-- The lexeme of a token. -/
theorem lex_lexeme {i : Nat} {t : Token} (h : (lex source)[i]? = some t) :
    ∃ x ∈ ofSource source, t.kind = x.kind ∧ t.text = String.ofList x.chars := by
  have hmap := lex_map source (fun t => (t.kind, t.text)) fun _ => rfl
  rw [place_map _ (fun x => (x.kind, String.ofList x.chars)) _ _ fun _ _ => rfl] at hmap
  have hi := congrArg (fun l => l[i]?) hmap
  simp only [List.getElem?_map, Array.getElem?_toList, h, Option.map_some] at hi
  obtain ⟨x, hx, he⟩ := Option.map_eq_some_iff.1 hi.symm
  have hk := (Prod.mk.inj he).1
  have ht := (Prod.mk.inj he).2
  exact ⟨x, List.mem_of_getElem? hx, hk.symm, ht.symm⟩

theorem lex_texts :
    (lex source).toList.map (fun t => t.text.toList) = (ofSource source).map Lexeme.chars := by
  rw [lex_map source (fun t => t.text.toList) fun _ => rfl]
  exact place_map _ _ _ _ fun x _ => String.toList_ofList

theorem lex_join (i j : Nat) : (Tokens.join (lex source) i j).toList =
    ((((ofSource source).map Lexeme.chars).drop i).take (j - i)).flatten := by
  unfold Tokens.join
  rw [String.toList_join, Array.toList_extract, List.extract_eq_take_drop, ← lex_texts,
    ← List.map_drop, ← List.map_take, List.flatMap_map, List.flatMap_def]

theorem lex_size : (lex source).size = ((ofSource source).map Lexeme.chars).length := by
  rw [← lex_texts source, List.length_map, Array.length_toList]

theorem chars_ne_nil : ∀ x ∈ (ofSource source).map Lexeme.chars, x ≠ [] := by
  intro x hx
  obtain ⟨y, hy, rfl⟩ := List.mem_map.1 hx
  exact ((ofSource_spells source).proper y hy).ne_nil

/-- Places reckoned over the texts of the first tokens. -/
theorem advance_take {i j : Nat} (hij : i ≤ j) :
    Position.origin.advanceChars (((ofSource source).map Lexeme.chars).take j).flatten =
      (Position.origin.advanceChars (((ofSource source).map Lexeme.chars).take i).flatten).advance
        (Tokens.join (lex source) i j) := by
  have htake : ((ofSource source).map Lexeme.chars).take j =
      ((ofSource source).map Lexeme.chars).take i ++
        (((ofSource source).map Lexeme.chars).drop i).take (j - i) := by
    rw [← List.take_add, Nat.add_sub_cancel' hij]
  have hchain := (ofSource_spells source).apart.take j
  rw [Position.advance, lex_join, htake, List.flatten_append]
  refine Position.advanceChars_flatten _ _ _ (fun x hx => ?_) ?_
  · rw [← htake] at hx
    exact chars_ne_nil source x (List.mem_of_mem_take hx)
  · rw [← htake]
    exact hchain

theorem lex_position {i : Nat} (hi : i ≤ (lex source).size) : Tokens.position (lex source) i =
    Position.origin.advanceChars (((ofSource source).map Lexeme.chars).take i).flatten := by
  have hstart : ∀ {i t}, (lex source)[i]? = some t → t.start =
      Position.origin.advanceChars (((ofSource source).map Lexeme.chars).take i).flatten := by
    intro i t ht
    have hmap := congrArg (fun l => l[i]?) (lex_map source Token.start fun _ => rfl)
    simp only [List.getElem?_map, Array.getElem?_toList, ht, Option.map_some] at hmap
    obtain ⟨u, hu, he⟩ := Option.map_eq_some_iff.1 hmap.symm
    rw [← he]
    exact place_start (chars_ne_nil source) (ofSource_spells source).apart _ hu
  rcases Nat.lt_or_ge i (lex source).size with hlt | hge
  · have ht := Array.getElem?_eq_getElem hlt
    rw [Tokens.position, ht]
    exact hstart ht
  · have hsize : i = (lex source).size := by omega
    subst hsize
    rw [Tokens.position, Array.getElem?_eq_none (Nat.le_refl _), Tokens.stop, Array.back?]
    rcases Nat.eq_zero_or_pos (lex source).size with hz | hp
    · rw [hz, Array.getElem?_eq_none (by omega)]
      rfl
    · -- the stream ends behind its last token
      obtain ⟨t, hlast⟩ : ∃ t, (lex source)[(lex source).size - 1]? = some t :=
        ⟨_, Array.getElem?_eq_getElem (by omega)⟩
      have hone : Tokens.join (lex source) _ _ = _ := Tokens.join_succ ((lex source).size - 1)
      rw [Nat.sub_add_cancel hp, Tokens.text, hlast] at hone
      rw [hlast]
      change t.stop = _
      rw [Token.stop, hstart hlast, advance_take source (Nat.sub_le (lex source).size 1), hone]
      rfl

theorem lex_proper {i : Nat} {k : Kind} (h : Tokens.is (lex source) i k = true) :
    ∃ x : Lexeme, x.Proper ∧ x.kind = k ∧ Tokens.text (lex source) i = String.ofList x.chars := by
  obtain ⟨t, ht, hk⟩ := Option.map_eq_some_iff.1 (Tokens.is_iff.1 h)
  obtain ⟨x, hx, hkind, htext⟩ := lex_lexeme source ht
  refine ⟨x, (ofSource_spells source).proper x hx, hkind.symm.trans hk, ?_⟩
  rw [Tokens.text, ht, ← htext]
  rfl

theorem lex_faithful : Tokens.Faithful (lex source) source where
  join_all := by
    refine String.toList_inj.1 ?_
    rw [lex_join, List.drop_zero, Nat.sub_zero, lex_size, List.take_length, ← List.flatMap_def]
    exact (ofSource_spells source).chars
  text_ne i hi := by
    obtain ⟨t, ht⟩ : ∃ t, (lex source)[i]? = some t := ⟨_, Array.getElem?_eq_getElem hi⟩
    have his : Tokens.is (lex source) i t.kind = true :=
      Tokens.is_iff.2 (by rw [Tokens.kind?, ht]; rfl)
    obtain ⟨x, hx, _, htext⟩ := lex_proper source his
    rw [htext]
    intro he
    have hnil : x.chars = [] := by rw [← String.toList_ofList (l := x.chars), he]; rfl
    exact hx.ne_nil hnil
  punctuation i k c hi hc := by
    obtain ⟨x, hx, rfl, htext⟩ := lex_proper source hi
    rw [htext, hx.punctuation c hc]
  blockComment i hi := by
    obtain ⟨x, hx, hk, htext⟩ := lex_proper source hi
    obtain ⟨body, hb⟩ := hx.blockComment hk
    refine ⟨String.ofList body, ?_⟩
    rw [htext, hb]
    refine String.toList_inj.1 ?_
    simp
  lineComment i hi := by
    obtain ⟨x, hx, hk, htext⟩ := lex_proper source hi
    obtain ⟨body, hb⟩ := hx.lineComment hk
    refine ⟨String.ofList body, ?_⟩
    rw [htext, hb]
    refine String.toList_inj.1 ?_
    simp
  garbage i hi := by
    obtain ⟨x, hx, hk, htext⟩ := lex_proper source hi
    obtain ⟨body, hb⟩ := hx.garbage hk
    refine ⟨String.ofList body, ?_⟩
    rw [htext, hb]
    refine String.toList_inj.1 ?_
    simp
  closes i k c b hc hb := by
    obtain ⟨t, ht, hcl⟩ := Option.bind_eq_some_iff.1 (Tokens.closer_of_closer? hc)
    obtain ⟨_, b', k', hopens, hk', hcloses⟩ := link_closer _ ht hcl
    have hkind := Tokens.is_iff.1 (Tokens.is_of_closer? hc)
    have hk : t.kind = k := by
      rw [Tokens.kind?, show (lex source)[i]? = some t from ht] at hkind
      exact Option.some.inj hkind
    rw [hk, hb] at hopens
    cases hopens
    rw [← Kind.eq_closer hcloses]
    exact Tokens.is_iff.2 hk'
  origin := by
    rw [lex_position source (Nat.zero_le _)]
    rfl
  advance i j hij hj := by
    rw [lex_position source (Nat.le_trans hij hj), lex_position source hj]
    exact (advance_take source hij).symm

theorem position_of_lex {i : Nat} {t : Token} (h : (lex source)[i]? = some t) :
    Tokens.position (lex source) i = t.start := by
  rw [Tokens.position, h]
  rfl

/-- A token stops where the next one starts, and the last one where the stream ends. -/
theorem stop_of_lex {i : Nat} {t : Token} (h : (lex source)[i]? = some t) :
    t.stop = Tokens.position (lex source) (i + 1) := by
  have hlt : i < (lex source).size := Tokens.lt_of_getElem? h
  have htext : Tokens.join (lex source) i (i + 1) = t.text := by
    rw [Tokens.join_succ, Tokens.text, h]
    rfl
  rw [← (lex_faithful source).advance i (i + 1) (Nat.le_succ i) hlt, htext,
    position_of_lex source h]
  rfl

/-- A place in the stream is reckoned over the text before it. -/
theorem position_eq_advance {i : Nat} (h : i ≤ (lex source).size) :
    Tokens.position (lex source) i = Position.origin.advance (Tokens.join (lex source) 0 i) := by
  rw [← (lex_faithful source).advance 0 i (Nat.zero_le i) h, (lex_faithful source).origin]

end Token

/-- Read one after the other the tokens are the source, and none of them is empty. A token starts
where the text of those before it leads; it stops where the next one starts, and the last one where
the whole source leads. -/
theorem lex_is_lossless (source : String) :
    String.join ((Token.lex source).toList.map Token.text) = source ∧
      (∀ t ∈ Token.lex source, t.text ≠ "") ∧
      (∀ (k : Nat) (t : Token), (Token.lex source)[k]? = some t →
        t.start = Position.origin.advance
          (String.join (((Token.lex source).toList.take k).map Token.text))) ∧
      (∀ (k : Nat) (t u : Token), (Token.lex source)[k]? = some t →
        (Token.lex source)[k + 1]? = some u → t.stop = u.start) ∧
      ∀ t : Token, (Token.lex source).back? = some t → t.stop = Position.origin.advance source := by
  have hf := Token.lex_faithful source
  have hjoin : ∀ k, Tokens.join (Token.lex source) 0 k =
      String.join (((Token.lex source).toList.take k).map Token.text) := fun k => by
    rw [Tokens.join, Array.toList_extract, List.extract_eq_take_drop, List.drop_zero, Nat.sub_zero]
  refine ⟨?_, fun t ht => ?_, fun k t ht => ?_, fun k t u ht hu => ?_, fun t ht => ?_⟩
  · have hall := hf.join_all
    rwa [hjoin, ← Array.length_toList, List.take_length] at hall
  · obtain ⟨k, hk⟩ := Array.mem_iff_getElem?.1 ht
    have hne := hf.text_ne k (Tokens.lt_of_getElem? hk)
    rwa [Tokens.text, hk] at hne
  · rw [← Token.position_of_lex source ht, ← hjoin]
    exact Token.position_eq_advance source (Nat.le_of_lt (Tokens.lt_of_getElem? ht))
  · rw [Token.stop_of_lex source ht, Token.position_of_lex source hu]
  · rw [Array.back?] at ht
    have hlt := Tokens.lt_of_getElem? ht
    rw [Token.stop_of_lex source ht, Nat.sub_add_cancel (by omega),
      Token.position_eq_advance source (Nat.le_refl _), hf.join_all]

/-- A line break of two characters in a comment counts once. -/
theorem lex_is_lossless_comment : ∃ t u : Token, (Token.lex "/*\r\n*/a")[0]? = some t ∧
    (Token.lex "/*\r\n*/a")[1]? = some u ∧ t.stop = u.start ∧ u.start = ⟨2, 3⟩ := by
  have hplace : (Token.lex "/*\r\n*/a")[1]?.map Token.start = some ⟨2, 3⟩ := by decide +kernel
  obtain ⟨u, hu, hstart⟩ := Option.map_eq_some_iff.1 hplace
  have ht := Array.getElem?_eq_getElem (Nat.lt_of_succ_lt (Tokens.lt_of_getElem? hu))
  exact ⟨_, u, ht, hu, (lex_is_lossless _).2.2.2.1 0 _ u ht hu, hstart⟩

end LessCss
