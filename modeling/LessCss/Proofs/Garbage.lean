import LessCss.Proofs.Brackets
import LessCss.Proofs.Lexing.SinglePass

/-! Garbage in sources that have a tree. A block comment that is never closed takes all that is
left, so in a single pass it is the last token, and no tree is built: garbage shows up in a tree
only as verbatim text, and never at the end of the stream. Where the rest of a line in an address is
cut up on its own, a comment that the line leaves open is garbage in the middle of the stream, and
the address takes it as it stands. -/

namespace LessCss

open Token.Kind Tokens

/-! ## Trees -/

section
variable {ts : Tokens} {source : String} {i j m : Nat} {t : Token}

mutual
/-- Garbage that a node hides is not the last token. -/
theorem Covers.garbage_lt (hf : ts.Faithful source) (ht : ts[m]? = some t)
    (hk : t.kind = .garbage) :
    ∀ {i j : Nat} {n : Node}, Covers ts i j n → j ≤ ts.size → Node.hides [n] t = true →
      m + 1 < ts.size
  | _, _, _, .leaf frame le _ opening textual, hj, hh => by
    rw [Node.hides_leaf, conceals_leaf_iff hf frame le hj opening ht, Bool.and_eq_true,
      decide_eq_true_eq] at hh
    obtain ⟨-, hlo, hhi⟩ := hh
    exact textual.sealed hf.spelled m hlo hhi (is_iff.2 (by rw [kind?, ht, Option.map_some, hk]))
  | _, _, _, .blockComment _, _, hh => by
    rw [Node.hides_leaf] at hh
    cases hh
  | _, _, _, .lineComment _, _, hh => by
    rw [Node.hides_leaf] at hh
    cases hh
  | _, _, _, .branch frame _ tiles, hj, hh => by
    obtain ⟨_, hhi, _, _⟩ := frame.marks_eq hf
    rw [Node.hides_branch] at hh
    exact tiles.garbage_lt hf ht hk (Nat.le_trans hhi hj) hh

theorem Tiles.garbage_lt (hf : ts.Faithful source) (ht : ts[m]? = some t)
    (hk : t.kind = .garbage) :
    ∀ {i j : Nat} {ns : List Node}, Tiles ts i j ns → j ≤ ts.size → Node.hides ns t = true →
      m + 1 < ts.size
  | _, _, _, .nil, _, hh => by
    rw [Node.hides, Node.visit] at hh
    cases hh
  | _, _, _, .cons first rest, hj, hh => by
    rw [Node.hides_cons, Bool.or_eq_true] at hh
    rcases hh with hh | hh
    · exact first.garbage_lt hf ht hk (Nat.le_trans rest.le hj) hh
    · exact rest.garbage_lt hf ht hk hj hh
end

end

section
variable {source : String} {start : Symbol} {tree : Node} {t : Token}

theorem covers_of_mem (h : parseText source start = .ok tree) (ht : t ∈ Token.lex source) :
    Covers (Token.lex source) 0 (Token.lex source).size tree := by
  rcases parse_covers h with ⟨rfl, _⟩ | ⟨_, hcovers⟩
  · have hempty : Token.lex "" = #[] := by decide +kernel
    rw [hempty] at ht
    exact absurd ht (Array.not_mem_empty t)
  · exact hcovers

/-- In a source that has a tree, garbage stands in verbatim text of the tree. -/
theorem garbage_hidden (h : parseText source start = .ok tree) (ht : t ∈ Token.lex source)
    (hk : t.kind = .garbage) : Node.hides [tree] t = true := by
  have hf := Token.lex_faithful source
  have hclean := ((covers_of_mem h ht).orderly hf (Nat.le_refl _)).2.clean
  rw [shown, Array.extract_size] at hclean
  refine eq_true_of_ne_false fun hshows => hclean ?_
  refine List.mem_map.2 ⟨t, List.mem_filter.2 ⟨Array.mem_toList_iff.2 ht, ?_⟩, hk⟩
  rw [hshows]
  rfl

/-- In a source that has a tree, the last token is no garbage. -/
theorem last_not_garbage (h : parseText source start = .ok tree)
    (ht : (Token.lex source).back? = some t) : t.kind ≠ .garbage := by
  intro hk
  have hmem := Array.mem_of_back? ht
  rw [Array.back?] at ht
  have hlt := (covers_of_mem h hmem).garbage_lt (Token.lex_faithful source) ht hk (Nat.le_refl _)
    (garbage_hidden h hmem hk)
  omega

end

/-! ## Single passes -/

namespace Lexeme

theorem Starts.eq_of_garbage {cs : List Char} {x : Lexeme} (h : Starts cs x)
    (hk : x.kind = .garbage) : x.chars = cs := by
  cases h with
  | token admits _ =>
    cases hk
    obtain ⟨c, hc, _⟩ := admits
    cases hc
  | unclosed _ _ => rfl

/-- What is taken behind garbage: nothing. -/
theorem SinglePass.garbage_last {url : Bool} {cs : List Char} {xs : List Lexeme}
    (h : SinglePass url cs xs) {x : Lexeme} (hx : x ∈ xs) (hk : x.kind = .garbage) :
    xs.getLast? = some x := by
  induction h with
  | done => cases hx
  | @slashes cs xs rest ih =>
    have hne : x ≠ slash := by
      rintro rfl
      cases hk
    have hmem : x ∈ xs := by simpa [hne] using hx
    rw [List.getLast?_cons_cons, List.getLast?_cons, ih hmem]
    rfl
  | @lexeme url text cs y xs plain longest cut rest ih =>
    rcases List.mem_cons.1 hx with rfl | hmem
    · -- nothing is left of the text
      have hchars := longest.starts.eq_of_garbage hk
      rw [← hchars] at cut
      obtain rfl : cs = [] := List.self_eq_append_right.1 cut
      rw [rest.eq_pass, pass]
      rfl
    · rw [List.getLast?_cons, ih hmem]
      rfl

end Lexeme

/-- Garbage in a source that has a tree stands in verbatim text of the tree and is not the last
token; so the tokens of the source were not cut in a single pass. -/
theorem garbage_of_parsed (source : String) (start : Symbol) (tree : Node)
    (h : parseText source start = .ok tree) :
    ∀ t ∈ Token.lex source, t.kind = .garbage →
      tree.descendants.any (·.conceals t) = true ∧ (Token.lex source).back? ≠ some t ∧
      ¬ Lexeme.SinglePass false source.toList ((Token.lex source).toList.map Token.lexeme) := by
  intro t ht hk
  have hlast : (Token.lex source).back? ≠ some t := fun hback => last_not_garbage h hback hk
  refine ⟨garbage_hidden h ht hk, hlast, fun hpass => ?_⟩
  have hmem := List.mem_map_of_mem (f := Token.lexeme) (Array.mem_toList_iff.2 ht)
  have hend := hpass.garbage_last hmem hk
  rw [List.getLast?_map, Array.getLast?_toList] at hend
  obtain ⟨u, hu, hlexeme⟩ := Option.map_eq_some_iff.1 hend
  exact last_not_garbage h hu ((congrArg Lexeme.kind hlexeme).trans hk)

/-- A comment that a line of an address leaves open is taken as it stands. -/
theorem garbage_of_parsed_address :
    ∃ tree, parseText "url(//a/*b\n)" .uri = .ok tree ∧
      ∃ t ∈ Token.lex "url(//a/*b\n)", t.kind = .garbage ∧
        tree.descendants.any (·.conceals t) = true := by
  have hok : (parseText "url(//a/*b\n)" .uri).isOk = true := by decide +kernel
  obtain ⟨t, ht, hk⟩ : ∃ t ∈ Token.lex "url(//a/*b\n)", t.kind = .garbage := by decide +kernel
  cases h : parseText "url(//a/*b\n)" .uri with
  | ok tree => exact ⟨tree, rfl, t, ht, hk, (garbage_of_parsed _ _ tree h t ht hk).1⟩
  | error e =>
    rw [h] at hok
    cases hok

/-- A source with garbage that is not rejected. -/
theorem garbage_not_rejected :
    ¬ ∀ (source : String) (start : Symbol), (∃ t ∈ Token.lex source, t.kind = .garbage) →
      ∃ e, parseText source start = .error e := by
  intro hall
  have hok : (parseText "url(//a/*b\n)" .uri).isOk = true := by decide +kernel
  obtain ⟨e, he⟩ := hall "url(//a/*b\n)" .uri (by decide +kernel)
  rw [he] at hok
  cases hok

end LessCss
