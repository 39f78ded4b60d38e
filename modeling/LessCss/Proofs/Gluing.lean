import LessCss.Proofs.Closers
import LessCss.Proofs.Recurrence.Compounds
import LessCss.Proofs.Spelling

/-! Streams glued together. The tokens of one stream, with others before and behind them and the
links found anew, keep their links where these were there. So each of the glued streams recurs in
the whole. Parentheses close parentheses; where the tokens come from sources, what closes cannot be
taken for a letter. -/

namespace LessCss

open Tokens

variable {ts ts' : Tokens} {i o c : Nat} {k : Token.Kind}

theorem Tokens.kind?_eq_getElem? (ts : Tokens) (i : Nat) :
    ts.kind? i = (ts.toList.map Token.kind)[i]? := by
  rw [kind?, List.getElem?_map, Array.getElem?_toList]

theorem Tokens.kind?_of_front {front ks : List Token.Kind}
    (h : ts.toList.map Token.kind = front ++ ks) (i : Nat) :
    ts.kind? (front.length + i) = ks[i]? := by
  rw [kind?_eq_getElem?, h, List.getElem?_append_right (Nat.le_add_right _ _),
    Nat.add_sub_cancel_left]

/-! ## Parentheses of a linked stream -/

namespace Tokens.Linked

theorem exists_seek (h : ts.Linked) (hc : ts.closer? o .leftParen = some c) :
    ∃ n, Bracket.paren.seek 0 ((ts.toList.map Token.kind).drop (o + 1)) = some n ∧
      c = o + 1 + n := by
  rw [h o .leftParen .paren (is_of_closer? hc) rfl] at hc
  obtain ⟨n, hn, he⟩ := Option.map_eq_some_iff.1 hc
  exact ⟨n, hn, he.symm⟩

theorem closer?_of_seek {n : Nat} (h : ts.Linked) (ho : ts.is o .leftParen = true)
    (hn : Bracket.paren.seek 0 ((ts.toList.map Token.kind).drop (o + 1)) = some n) :
    ts.closer? o .leftParen = some (o + 1 + n) := by
  rw [h o .leftParen .paren ho rfl, hn]
  rfl

theorem closes (h : ts.Linked) (hc : ts.closer? o .leftParen = some c) :
    ts.is c .rightParen = true := by
  obtain ⟨n, hn, rfl⟩ := h.exists_seek hc
  obtain ⟨k, hk, hcl⟩ := Bracket.closes_of_seek hn
  rw [List.getElem?_drop, ← kind?_eq_getElem?] at hk
  rw [Token.Kind.eq_closer hcl] at hk
  exact is_iff.2 hk

theorem nests (h : ts.Linked) (hc : ts.closer? o .leftParen = some c) (hoi : o < i) (hic : i < c)
    (hi : ts.is i .leftParen = true) : ∃ e, ts.closer? i .leftParen = some e ∧ e < c := by
  obtain ⟨n, hn, rfl⟩ := h.exists_seek hc
  obtain ⟨p, rfl⟩ := Nat.exists_eq_add_of_le (show o + 1 ≤ i from hoi)
  have hp : ((ts.toList.map Token.kind).drop (o + 1))[p]? = some .leftParen := by
    rw [List.getElem?_drop, ← kind?_eq_getElem?]
    exact is_iff.1 hi
  obtain ⟨m, hm, hlt⟩ := Bracket.seek_inside hn (by omega) hp rfl
  rw [List.drop_drop, ← Nat.add_assoc] at hm
  exact ⟨_, h.closer?_of_seek hi hm, by omega⟩

/-- Tokens around a stream keep its links. -/
theorem keeps (h : ts.Linked) (h' : ts'.Linked) {front back : List Token.Kind}
    (hks : ts'.toList.map Token.kind = front ++ (ts.toList.map Token.kind ++ back)) :
    ts.Keeps ts' front.length := by
  intro o c hc
  obtain ⟨n, hn, rfl⟩ := h.exists_seek hc
  have ho := is_of_closer? hc
  have hlt : o < (ts.toList.map Token.kind).length := by
    rw [List.length_map, Array.length_toList]
    exact lt_of_is ho
  have ho' : ts'.is (front.length + o) .leftParen = true := by
    rw [is, kind?_of_front hks, List.getElem?_append_left hlt, ← kind?_eq_getElem?, ← is, ho]
  have hn' : Bracket.paren.seek 0 ((ts'.toList.map Token.kind).drop (front.length + o + 1)) =
      some n := by
    rw [hks, Nat.add_assoc, List.drop_length_add_append, List.drop_append_of_le_length hlt]
    exact Bracket.seek_append hn
  rw [h'.closer?_of_seek ho' hn']
  exact congrArg some (by omega)

end Tokens.Linked

/-! ## Stretches of a glued stream -/

namespace Token

theorem getElem?_link_unlinked (ts : List Token) (i : Nat) :
    (link ts)[i]?.map unlinked = ts[i]?.map unlinked := by
  have h := congrArg (·[i]?) (link_unlinked ts)
  simpa only [List.getElem?_map, Array.getElem?_toList] using h

/-- A stream with others before and behind it recurs in the whole, if what stands behind it is a
wall. -/
theorem link_recurs {walls : List Token.Kind} (front ts back : List Token)
    (h : ∀ t, back.head? = some t → t.kind ∈ walls) :
    Tokens.Recurs walls (link ts) (link (front ++ (ts ++ back))) front.length 0 ts.length where
  le_size := by rw [size_link]
  token i _ hi := by
    rw [getElem?_link_unlinked, getElem?_link_unlinked, List.getElem?_append_right
      (Nat.le_add_right ..), Nat.add_sub_cancel_left, List.getElem?_append_left hi]
  wall k hk := by
    rw [kind?_link, List.getElem?_eq_none (Nat.le_refl _)] at hk
    cases hk
  wall' k hk := by
    rw [kind?_link, List.getElem?_append_right (Nat.le_add_right ..), Nat.add_sub_cancel_left,
      List.getElem?_append_right (Nat.le_refl _), Nat.sub_self, ← List.head?_eq_getElem?] at hk
    obtain ⟨t, ht, rfl⟩ := Option.map_eq_some_iff.1 hk
    exact h t ht

/-! ## Tokens of sources -/

/-- The token has the kind and the text of one that a source is cut into. -/
def Lexed (t : Token) : Prop :=
  ∃ source, ∃ u ∈ (lex source).toList, u.kind = t.kind ∧ u.text = t.text

theorem Lexed.text_eq {t : Token} (h : t.Lexed) {c : Char} (hc : t.kind.char? = some c) :
    t.text = String.singleton c := by
  obtain ⟨source, u, hu, hkind, htext⟩ := h
  obtain ⟨i, hi⟩ := List.mem_iff_getElem?.1 hu
  rw [Array.getElem?_toList] at hi
  obtain ⟨x, hx, hxkind, hxtext⟩ := lex_lexeme source hi
  have hchars := ((Lexeme.ofSource_spells source).proper x hx).punctuation c
    (by rw [← hxkind, hkind, hc])
  rw [← htext, hxtext, hchars]
  rfl

/-- The parentheses of such tokens are nested. -/
theorem link_nests {ts : List Token} (h : ∀ t ∈ ts, t.Lexed) : Tokens.Nests (link ts) where
  closes o c hc := by
    have hclose := (link_linked ts).closes hc
    obtain ⟨t, ht, hkind⟩ := Option.map_eq_some_iff.1 (is_iff.1 hclose)
    have hunlinked := getElem?_link_unlinked ts c
    rw [ht] at hunlinked
    obtain ⟨u, hu, he⟩ := Option.map_eq_some_iff.1 hunlinked.symm
    have hukind : u.unlinked.kind = .rightParen := he ▸ hkind
    have hutext : u.text = ")" :=
      (h u (List.mem_of_getElem? hu)).text_eq (congrArg Token.Kind.char? hukind)
    have htext : u.unlinked.text = t.text := he ▸ rfl
    refine ⟨hclose, ?_⟩
    rw [Tokens.text, ht, Option.map_some, Option.getD_some, ← htext]
    change u.text ≠ "n"
    rw [hutext]
    decide
  nests o i c hc := (link_linked ts).nests hc

end Token

end LessCss
