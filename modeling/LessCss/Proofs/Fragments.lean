import LessCss.Proofs.Brackets
import LessCss.Proofs.Head.Trees
import LessCss.Proofs.Tail.Trees

/-! Fragments on their own. What a start symbol covers in the middle of a source is parsed to the same
node when only its tokens are left: what stands before it does not show, and what stands behind it is
not taken into it. -/

namespace LessCss

open Lookahead Builder Tokens

/-! ## Tokens of sources -/

namespace Token

variable {ts : List Token} {t : Token}

/-- Linking again changes nothing. -/
theorem link_toList (ts : List Token) : link (link ts).toList = link ts := by
  rw [link, link_unlinked]
  rfl

theorem eq_of_unlinked {t u : Token} (h : t.unlinked = u.unlinked) :
    t.kind = u.kind ∧ t.text = u.text ∧ t.start = u.start := by
  obtain ⟨⟩ := t
  obtain ⟨⟩ := u
  simpa [unlinked] using h

theorem Lexed.isMarkup_text (h : t.Lexed) (hk : t.kind.isPlain = false) :
    isMarkup t.text = true := by
  obtain ⟨source, u, hu, hkind, htext⟩ := h
  obtain ⟨i, hi⟩ := List.mem_iff_getElem?.1 hu
  rw [Array.getElem?_toList] at hi
  have his : Tokens.is (lex source) i t.kind = true :=
    is_iff.2 (by rw [Tokens.kind?, hi, Option.map_some, hkind])
  have hmarkup := (lex_faithful source).spelled.markup i t.kind his hk
  rw [Tokens.text, hi] at hmarkup
  rwa [← htext]

/-- Tokens of sources, linked anew, are a regular stream. -/
theorem link_regular (h : ∀ t ∈ ts, t.Lexed) : Tokens.Regular (link ts) where
  wm := link_wellMarked ts
  linked := link_linked ts
  spelled.markup i k his hk := by
    obtain ⟨t, ht, hkind⟩ := Option.map_eq_some_iff.1 (is_iff.1 his)
    have hunlinked := getElem?_link_unlinked ts i
    rw [ht] at hunlinked
    obtain ⟨u, hu, he⟩ := Option.map_eq_some_iff.1 hunlinked.symm
    obtain ⟨hukind, hutext, -⟩ := eq_of_unlinked he
    rw [Tokens.text, ht, Option.map_some, Option.getD_some, ← hutext]
    refine (h u (List.mem_of_getElem? hu)).isMarkup_text ?_
    rwa [hukind, hkind]
  spelled.closer i k c hc hk := by
    obtain ⟨l, hl, hclose⟩ := (link_linked ts).closes_closer hk hc
    refine Bool.eq_false_iff.2 fun hgarbage => ?_
    rw [eq_of_is hclose hgarbage] at hl
    cases hl

end Token

/-! ## Slices -/

/-- The tokens from `i` up to `j` alone, their links found anew. -/
def Tokens.slice (ts : Tokens) (i j : Nat) : Tokens := Token.link (ts.extract i j).toList

namespace Tokens

variable {ts : Tokens} {source : String} {i j k : Nat}

theorem size_slice (hj : j ≤ ts.size) : (ts.slice i j).size = j - i := by
  rw [slice, Token.size_link, Array.length_toList, Array.size_extract, Nat.min_eq_left hj]

theorem slice_token (hj : j ≤ ts.size) (hk : i + k < j) :
    (ts.slice i j)[k]?.map Token.unlinked = ts[i + k]?.map Token.unlinked := by
  rw [slice, Token.getElem?_link_unlinked, Array.getElem?_toList, Array.getElem?_extract,
    if_pos (by omega)]

theorem extract_lexed (h : ∀ t ∈ ts.toList, t.Lexed) (i j : Nat) :
    ∀ t ∈ (ts.extract i j).toList, t.Lexed := by
  intro t ht
  obtain ⟨m, -, -, hm⟩ := mem_extract ht
  exact h t (List.mem_of_getElem? (Array.getElem?_toList.trans hm))

theorem exists_token_slice (hj : j ≤ ts.size) (hk : i + k < j) :
    ∃ t u : Token, (ts.slice i j)[k]? = some t ∧ ts[i + k]? = some u ∧
      t.start = u.start ∧ t.text = u.text := by
  have ht := slice_token hj hk
  have hlt : i + k < ts.size := by omega
  rw [Array.getElem?_eq_getElem hlt] at ht
  obtain ⟨t, ht', he⟩ := Option.map_eq_some_iff.1 ht
  obtain ⟨-, htext, hstart⟩ := Token.eq_of_unlinked he
  exact ⟨t, _, ht', Array.getElem?_eq_getElem hlt, hstart, htext⟩

/-- The tokens of a slice start where they did, and the slice ends where they did. -/
theorem Faithful.position_slice (hf : ts.Faithful source) (hj : j ≤ ts.size) (hij : i < j)
    (hk : i + k ≤ j) : (ts.slice i j).position k = ts.position (i + k) := by
  rcases Nat.lt_or_eq_of_le hk with hlt | rfl
  · obtain ⟨t, u, ht, hu, hstart, -⟩ := exists_token_slice hj hlt
    rw [position, position, ht, hu]
    exact hstart
  · -- behind its last token both streams have come as far as that token does
    obtain ⟨m, rfl⟩ : ∃ m, k = m + 1 := ⟨k - 1, by omega⟩
    obtain ⟨t, u, ht, hu, hstart, htext⟩ := exists_token_slice (i := i) (k := m) hj (by omega)
    have hsize : (ts.slice i (i + (m + 1))).size = m + 1 := by rw [size_slice hj]; omega
    have hnext := hf.advance (i + m) (i + (m + 1)) (by omega) hj
    rw [← Nat.add_assoc, join_succ, position, hu, text, hu] at hnext
    rw [position, Array.getElem?_eq_none (Nat.le_of_eq hsize), stop, Array.back?, hsize,
      Nat.add_sub_cancel, ht, ← Nat.add_assoc, ← hnext]
    change t.start.advance t.text = u.start.advance u.text
    rw [hstart, htext]

theorem toList_extract_size (ts : Tokens) (i : Nat) :
    (ts.extract i ts.size).toList = ts.toList.drop i := by
  rw [Array.toList_extract, List.extract_eq_take_drop, ← Array.length_toList, ← List.length_drop,
    List.take_length]

/-- What is left of a linked stream behind some of its tokens is a tail. -/
theorem slice_tail (hlink : Token.link ts.toList = ts) (hi : i < ts.size)
    (hmark : i = 0 ∨ ts.is (i - 1) .atSign = false) : (ts.slice i ts.size).Tail i ts := by
  have hfront : (ts.toList.take i).length = i := by
    rw [List.length_take, Array.length_toList, Nat.min_eq_left (Nat.le_of_lt hi)]
  have hwhole : Token.link (ts.toList.take i ++ ts.toList.drop i) = ts := by
    rw [List.take_append_drop, hlink]
  have hne : ts.toList.drop i ≠ [] := by
    rw [← List.length_pos_iff, List.length_drop, Array.length_toList]
    omega
  have htail := Token.link_append_tail (ts.toList.take i) hne fun _ => by rwa [hwhole, hfront]
  rwa [hwhole, hfront, ← toList_extract_size] at htail

/-- A slice of a source is what another one begins with that goes further. -/
theorem Faithful.slice_head (hf : ts.Faithful source) (hlexed : ∀ t ∈ ts.toList, t.Lexed)
    (hij : i < j) (hj : j ≤ ts.size) : (ts.slice i j).Head (ts.slice i ts.size) where
  left := Token.link_regular (extract_lexed hlexed i j)
  right := Token.link_regular (extract_lexed hlexed i _)
  nests := Token.link_nests (extract_lexed hlexed i j)
  token k hk := by
    rw [size_slice hj] at hk
    rw [slice_token hj (by omega), slice_token (Nat.le_refl _) (by omega)]
  seam := by
    rw [size_slice hj, hf.position_slice (Nat.le_refl _) (by omega) (by omega),
      hf.position_slice hj hij (by omega)]

end Tokens

/-! ## Start symbols -/

section
variable {ts ts' : Tokens} {start : Symbol} {d k : Nat} {node : Node}

/-- What covers tokens is built as far as it was measured, and a stylesheet up to the end of the
stream. -/
theorem Symbol.built_at (wm : ts.WellMarked) (A : Reading ts false)
    (hpos : 0 < (start.length ts 0).eval ts) (hbuilt : (start.build ts 0).eval ts = .ok (node, k)) :
    (start.build ts 0).Returns A 0 (node, k) ∧ k = (start.length ts 0).eval ts ∧
      (start = .stylesheet → k = ts.size) := by
  rw [← Parser.value_eq_eval wm A] at hpos ⊢
  have hruns := start.build_runs wm hpos
  have hreturns := (Plan.Meets.eval_eq_ok_iff wm hruns).1 hbuilt
  obtain ⟨hend, hall, -⟩ := Plan.Meets.of_returns wm hruns hreturns
  exact ⟨hreturns, hend.trans (Nat.zero_add _), hall⟩

/-- A start symbol covers as much of a tail, and the same is built, as in the whole stream. -/
theorem Tokens.Tail.built (h : ts.Tail d ts') (wm : ts.WellMarked)
    (hpos : 0 < (start.length ts' d).eval ts')
    (hbuilt : (start.build ts' d).eval ts' = .ok (node, k)) :
    (start.length ts 0).eval ts = (start.length ts' d).eval ts' ∧
      ∃ j, (start.build ts 0).eval ts = .ok (node, j) := by
  have hlength := h.eval (start.length ts 0)
  rw [← Symbol.length_later h, Nat.add_zero] at hlength
  have hmoved := (Symbol.build_moves h wm start (hlength ▸ hpos)).eval h wm
  rw [Nat.add_zero, hbuilt] at hmoved
  refine ⟨hlength.symm, ?_⟩
  generalize (start.build ts 0).eval ts = r at hmoved
  cases hmoved with
  | ok _ _ => exact ⟨_, rfl⟩

/-- A start symbol that covers the longer stream up to the cut is parsed of the shorter one. -/
theorem Tokens.Head.parse (h : ts.Head ts') (hs : start ≠ .stylesheet) (hpos : 0 < ts.size)
    (hlength : (start.length ts' 0).eval ts' = ts.size)
    (hbuilt : (start.build ts' 0).eval ts' = .ok (node, k)) :
    LessCss.parse ts none start = .ok node := by
  obtain ⟨A, -⟩ := Parser.exists_plain_reading h.left.wm
  obtain ⟨B, -⟩ := Parser.exists_plain_reading h.right.wm
  obtain ⟨hreturns, hk, -⟩ := Symbol.built_at h.right.wm B (hlength ▸ hpos) hbuilt
  rw [← Parser.value_eq_eval h.right.wm B] at hlength
  have hend : 0 + B.value (start.length ts' 0) = ts.size := by rw [hlength, Nat.zero_add]
  have hfound := Symbol.length_found (A := A) h start hs (hlength ▸ hpos) hend
  have hnode := (Symbol.build_remade (A := A) h start hs (hlength ▸ hpos) hend (Nat.le_refl 0) node k
    hreturns).2 (by rw [hk, ← Parser.value_eq_eval h.right.wm B, hlength])
  rw [hlength, Parser.value_eq_eval h.left.wm A] at hfound
  rw [Parser.parse_eq_ok_iff h.left.wm hs]
  exact ⟨hpos, Nat.le_of_eq hfound.symm, k, hnode.eval h.left.wm⟩

/-- A stylesheet that is built is parsed. -/
theorem parse_stylesheet (wm : ts.WellMarked)
    (hpos : 0 < (Symbol.stylesheet.length ts 0).eval ts)
    (hbuilt : (Symbol.stylesheet.build ts 0).eval ts = .ok (node, k)) :
    parse ts none .stylesheet = .ok node := by
  obtain ⟨A, -⟩ := Parser.exists_plain_reading wm
  obtain ⟨-, hk, hall⟩ := Symbol.built_at wm A hpos hbuilt
  rw [← hk] at hpos
  rw [hall rfl] at hk hpos
  rw [Parser.parse_eq_parsePlain wm, Parser.parsePlain_eq_ok_iff]
  exact Or.inr ⟨hpos, Nat.le_of_eq hk, k, hbuilt⟩

end

namespace Parser

variable {source : String} {start : Symbol} {i n k : Nat} {node : Node}

/-- Wherever in a source a start symbol covers tokens and its node is built, in whatever states of a
parse without a cap, the same node is parsed of these tokens alone, or for a stylesheet of all that
are left, unless the mark of a variable stands right before them. -/
theorem fragments_stand_alone (hbefore : i = 0 ∨ Tokens.is (Token.lex source) (i - 1) .atSign = false)
    {s s' : State} (hs : Reachable (Token.lex source) none s)
    (hs' : Reachable (Token.lex source) none s')
    (hn : ((start.length (Token.lex source) i).run (oracle (Token.lex source) none) s).1 = n)
    (hpos : 0 < n)
    (hbuilt : (((start.build (Token.lex source) i).run (host (Token.lex source) none fun part j =>
      construct (Token.lex source) none part j 0)).run s').1 = .ok (node, k)) :
    LessCss.parse (slice (Token.lex source) i
      (if start = .stylesheet then (Token.lex source).size else i + n)) none start = .ok node := by
  have wm := Token.lex_wellMarked source
  have hlooked : (start.length (Token.lex source) i).eval (Token.lex source) = n :=
    ((hs.transparent wm).looked _ 0).symm.trans hn
  have heval := ((hs'.transparent wm).built _ 0).symm.trans hbuilt
  obtain ⟨A, -⟩ := exists_plain_reading wm
  have hfits := A.value_fits (Symbol.length_measures wm start i)
  rw [value_eq_eval wm A, hlooked] at hfits
  have hle : i + n ≤ (Token.lex source).size := hfits.resolve_left (Nat.ne_of_gt hpos)
  have hlink : Token.link (Token.lex source).toList = Token.lex source := Token.link_toList _
  have htail := slice_tail hlink (Nat.lt_of_lt_of_le (Nat.lt_add_of_pos_right hpos) hle) hbefore
  obtain ⟨hlength, j, hfront⟩ := htail.built (Token.link_wellMarked _) (hlooked ▸ hpos) heval
  rw [hlooked] at hlength
  by_cases hsheet : start = .stylesheet
  · subst hsheet
    exact parse_stylesheet (Token.link_wellMarked _) (hlength ▸ hpos) hfront
  · rw [if_neg hsheet]
    have hsize : (slice (Token.lex source) i (i + n)).size = n := by
      rw [size_slice hle, Nat.add_sub_cancel_left]
    have hhead := (Token.lex_faithful source).slice_head (fun t ht => ⟨source, t, ht, rfl, rfl⟩)
      (Nat.lt_add_of_pos_right hpos) hle
    exact hhead.parse hsheet (Nat.lt_of_lt_of_eq hpos hsize.symm) (hlength.trans hsize.symm) hfront

/-- A declaration in a block, parsed of its own tokens. -/
theorem fragments_stand_alone_declaration :
    let ts := Token.lex "p\x7bw:@@a (1) ;c:d\x7d"
    let node : Node := .branch .declaration
      [.branch .property [.leaf .ident "w" ⟨1, 3⟩] ⟨1, 3⟩, .leaf .propertyDelimiter ":" ⟨1, 4⟩,
       .branch .value
        [.branch .var [.branch .var [.leaf .ident "a" ⟨1, 7⟩] ⟨1, 6⟩] ⟨1, 5⟩,
         .leaf .space " " ⟨1, 8⟩,
         .branch .parentheses [.leaf .number "1" ⟨1, 10⟩] ⟨1, 9⟩] ⟨1, 5⟩] ⟨1, 3⟩
    (((Symbol.declaration.build ts 2).run (host ts none fun part j =>
      construct ts none part j 0)).run (.start ts.size)).1 = .ok (node, 11) ∧
    LessCss.parse (ts.slice 2 11) none .declaration = .ok node := by
  intro ts node
  have hlength : ((Symbol.declaration.length ts 2).run (oracle ts none) (.start ts.size)).1 = 9 := by
    decide +kernel
  have hbuilt : (((Symbol.declaration.build ts 2).run (host ts none fun part j =>
      construct ts none part j 0)).run (.start ts.size)).1 = .ok (node, 11) := by decide +kernel
  have hparse := fragments_stand_alone (Or.inr (by decide +kernel)) .refl .refl hlength (by decide)
    hbuilt
  rw [if_neg (by decide)] at hparse
  exact ⟨hbuilt, hparse⟩

end Parser

end LessCss
