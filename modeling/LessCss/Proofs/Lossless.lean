import LessCss.Proofs.Agreement
import LessCss.Proofs.Spelling

/-! Reprinting a tree gives its source. A node that stands for some tokens is printed as the text of
these tokens: its content is the text of the tokens inside its marks, and the tokens that were left
out are spelled as the marks of its kind. -/

namespace LessCss

open Tokens

variable {ts : Tokens} {source : String} {i j lo hi : Nat}

/-! ## Marks -/

/-- The text of a token of a punctuation kind. -/
theorem Tokens.Faithful.text_of_is (hf : ts.Faithful source) {k : Token.Kind} {c : Char}
    (h : ts.is i k = true) (hc : k.char? = some c) : ts.join i (i + 1) = String.ofList [c] := by
  rw [join_succ]
  exact hf.punctuation i k c h hc

theorem Enclosed.marks_eq (hf : ts.Faithful source) {k : Token.Kind} {b : Bracket} {c d : Char}
    (h : Enclosed ts k i lo hi j) (hk : k.char? = some c) (hb : k.opens? = some b)
    (hd : b.closer.char? = some d) : i ≤ lo ∧ hi ≤ j ∧ ts.join i lo = String.ofList [c] ∧
      ts.join hi j = String.ofList [d] := by
  obtain ⟨hc, rfl, rfl⟩ := h
  exact ⟨by omega, by omega, hf.text_of_is (is_of_closer? hc) hk,
    hf.text_of_is (hf.closes _ _ _ _ hc hb) hd⟩

theorem Marked.marks_eq (hf : ts.Faithful source) {k : Token.Kind} {c : Char}
    (h : Marked ts k i lo hi j) (hk : k.char? = some c) : i ≤ lo ∧ hi ≤ j ∧
      ts.join i lo = String.ofList [c] ∧ ts.join hi j = "" := by
  obtain ⟨hm, rfl, rfl⟩ := h
  exact ⟨by omega, by omega, hf.text_of_is hm hk, join_self _⟩

/-- A word before a parenthesis that encloses the content. -/
theorem worded_marks_eq (hf : ts.Faithful source) {w : String} (hw : ts.text i = w)
    (h : Enclosed ts .leftParen (i + 1) lo hi j) :
    i ≤ lo ∧ hi ≤ j ∧ ts.join i lo = w ++ "(" ∧ ts.join hi j = ")" := by
  obtain ⟨hlo, hhi, hopen, hclose⟩ := h.marks_eq (b := .paren) hf rfl rfl rfl
  refine ⟨by omega, hhi, ?_, hclose⟩
  rw [← join_append (Nat.le_succ i) hlo, join_succ, hw, hopen]

/-- The tokens before and behind the content of a kind are spelled as its marks. -/
theorem Framed.marks_eq (hf : ts.Faithful source) {k : Node.Kind} (h : Framed ts k i lo hi j) :
    i ≤ lo ∧ hi ≤ j ∧ ts.join i lo = k.marks.1 ∧ ts.join hi j = k.marks.2 := by
  cases k with
  | block => exact Enclosed.marks_eq (b := .curly) hf h rfl rfl rfl
  | parentheses => exact Enclosed.marks_eq (b := .paren) hf h rfl rfl rfl
  | arguments => exact Enclosed.marks_eq (b := .paren) hf h rfl rfl rfl
  | brackets => exact Enclosed.marks_eq (b := .square) hf h rfl rfl rfl
  | attributeSelector =>
    obtain ⟨hopen, rfl, hclose, rfl⟩ := h
    exact ⟨by omega, by omega, hf.text_of_is hopen rfl, hf.text_of_is hclose rfl⟩
  | percentage =>
    obtain ⟨rfl, hclose, rfl⟩ := h
    exact ⟨by omega, by omega, join_self _, hf.text_of_is hclose rfl⟩
  | varList =>
    obtain ⟨rfl, hdots, rfl⟩ := h
    refine ⟨by omega, by omega, join_self _, ?_⟩
    rw [← join_append (Nat.le_add_right hi 1) (show hi + 1 ≤ hi + 3 by omega),
      ← join_append (Nat.le_add_right (hi + 1) 1) (show hi + 1 + 1 ≤ hi + 3 by omega),
      hf.text_of_is (hdots hi (by omega) (by omega)) rfl,
      hf.text_of_is (hdots (hi + 1) (by omega) (by omega)) rfl,
      hf.text_of_is (hdots (hi + 2) (by omega) (by omega)) rfl]
    rfl
  | interpolation =>
    obtain ⟨hat, hopen, rfl, hclose, rfl⟩ := h
    refine ⟨by omega, by omega, ?_, hf.text_of_is hclose rfl⟩
    rw [← join_append (Nat.le_add_right i 1) (show i + 1 ≤ i + 2 by omega),
      hf.text_of_is hat rfl, hf.text_of_is hopen rfl]
    rfl
  | uri => exact worded_marks_eq hf h.1 h.2
  | expression => exact worded_marks_eq hf h.1 h.2
  | escapedString => exact Marked.marks_eq hf h rfl
  | color => exact Marked.marks_eq hf h rfl
  | idSelector => exact Marked.marks_eq hf h.1 rfl
  | classSelector => exact Marked.marks_eq hf h.1 rfl
  | var => exact Marked.marks_eq hf h.1 rfl
  | atKeyword => exact Marked.marks_eq hf h.1 rfl
  | pseudoClass => exact Marked.marks_eq hf h.1 rfl
  | pseudoElement =>
    obtain ⟨hfirst, hsecond, _⟩ := h
    obtain ⟨hlo, hhi, hmark, hend⟩ := hsecond.marks_eq hf rfl
    refine ⟨by omega, hhi, ?_, hend⟩
    rw [← join_append (Nat.le_succ i) hlo, hf.text_of_is hfirst rfl, hmark]
    rfl
  | blockComment => exact h.elim
  | lineComment => exact h.elim
  | stylesheet | ruleset | selector | compoundSelector | typeSelector | combinator
  | attributeName | attributeMatch | attributeValue | attributeFlags | namespacePart
  | namespaceName | namespaceSeparator | namespaceBar | parentSelector | parentSuffix
  | keyframeSelector | declaration | property | propertyDelimiter | value
  | declarationDelimiter | delimiter | atRule | mixin | mixinCall | extend | condition
  | function | space | string | number | dimension | unary | operator | important | raw
  | progid | ident =>
    obtain ⟨rfl, rfl⟩ := h
    exact ⟨Nat.le_refl _, Nat.le_refl _, join_self _, join_self _⟩

/-! ## Reprinting -/

mutual
/-- A node is printed as the text of the tokens it stands for. -/
theorem Covers.reprint_eq (hf : ts.Faithful source) :
    ∀ {i j : Nat} {n : Node}, Covers ts i j n → n.reprint = ts.join i j
  | _, _, _, .leaf frame le _ _ _ => by
    obtain ⟨hlo, hhi, hopen, hclose⟩ := frame.marks_eq hf
    rw [Node.reprint, ← hopen, ← hclose, join_append hlo le, join_append (by omega) hhi]
  | _, _, _, .blockComment is => by
    obtain ⟨body, hb⟩ := hf.blockComment _ is
    rw [join_succ, hb, String.append_assoc, Text.dropFront_append, Text.dropBack_append]
    exact String.append_assoc
  | _, _, _, .lineComment is => by
    obtain ⟨body, hb⟩ := hf.lineComment _ is
    rw [join_succ, hb, Text.dropFront_append]
    exact String.append_empty
  | _, _, _, .branch frame _ tiles => by
    obtain ⟨hlo, hhi, hopen, hclose⟩ := frame.marks_eq hf
    have hle := tiles.le
    rw [Node.reprint, tiles.reprintAll_eq hf, ← hopen, ← hclose, join_append hlo hle,
      join_append (by omega) hhi]

theorem Tiles.reprintAll_eq (hf : ts.Faithful source) :
    ∀ {i j : Nat} {ns : List Node}, Tiles ts i j ns → Node.reprintAll ns = ts.join i j
  | _, _, _, .nil => by rw [Node.reprintAll, join_self]
  | _, _, _, .cons first rest => by
    rw [Node.reprintAll, first.reprint_eq hf, rest.reprintAll_eq hf, join_append first.le rest.le]
end

/-! ## Whole parses -/

/-- A parse that succeeds gives the empty stylesheet of the empty source, or a node that stands for
all tokens of the source. -/
theorem parse_covers {limit : Option Nat} {start : Symbol} {tree : Node}
    (h : parse (Token.lex source) limit start = .ok tree) :
    source = "" ∧ tree = .branch .stylesheet [] .origin ∨
      source ≠ "" ∧ Covers (Token.lex source) 0 (Token.lex source).size tree := by
  have hf := Token.lex_faithful source
  have hall := hf.join_all
  unfold parse at h
  split at h
  · next hempty =>
    have hsize : (Token.lex source).size = 0 := by simpa [Array.isEmpty] using hempty
    rw [hsize, join_self] at hall
    unfold parseEmpty at h
    split at h
    · cases h
      exact Or.inl ⟨hall.symm, rfl⟩
    · cases h
  · next hempty =>
    have hne : 0 < (Token.lex source).size := by
      refine Nat.pos_of_ne_zero fun hz => hempty ?_
      rw [Array.isEmpty, hz]
      rfl
    refine Or.inr ⟨?_, (Parser.parse_ok (Token.lex_wellMarked source) hne h).2⟩
    -- a stream with a token has a text
    rintro rfl
    have htext := hf.text_ne 0 hne
    rw [← join_append (Nat.zero_le 1) hne, join_succ] at hall
    exact htext (String.append_eq_empty_iff.1 hall).1

/-- The tree of a source, written out with the marks of its kinds, is the source. -/
theorem reprint_parseText (source : String) (start : Symbol) (tree : Node)
    (h : parseText source start = .ok tree) : tree.reprint = source := by
  have hf := Token.lex_faithful source
  rcases parse_covers h with ⟨rfl, rfl⟩ | ⟨_, hcovers⟩
  · rfl
  · rw [hcovers.reprint_eq hf]
    exact hf.join_all

/-- A formula, an address with two slashes, and a line break of two characters. -/
theorem reprint_parseText_sample :
    ∃ tree, parseText "a:nth-child( 2n + 1 )\x7bb:url( c//d )\x7d\r\n" .stylesheet = .ok tree ∧
      tree.reprint = "a:nth-child( 2n + 1 )\x7bb:url( c//d )\x7d\r\n" := by
  have hok : (parseText "a:nth-child( 2n + 1 )\x7bb:url( c//d )\x7d\r\n" .stylesheet).isOk =
      true := by decide +kernel
  cases h : parseText "a:nth-child( 2n + 1 )\x7bb:url( c//d )\x7d\r\n" .stylesheet with
  | ok tree => exact ⟨tree, rfl, reprint_parseText _ _ tree h⟩
  | error e =>
    rw [h] at hok
    cases hok

end LessCss
