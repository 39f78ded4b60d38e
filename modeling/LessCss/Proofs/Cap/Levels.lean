import LessCss.Proofs.Links
import LessCss.Proofs.Twins.Runs

/-! A cap bounds the nesting of trees. Every group that is built passes through the place where the
cap is checked, so a tree has no more levels of groups than the cap allows. A parse is compared with
itself here: what two runs side by side have in common includes how deep they go. -/

namespace LessCss

theorem Tokens.Twins.refl (ts : Tokens) : ts.Twins true ts := ⟨.refl ts, fun _ => rfl⟩

namespace Parser

/-- In a tree that was parsed under a cap no way down has more levels than the cap. -/
theorem shallow_of_parse {ts : Tokens} {limit : Option Nat} {start : Symbol} {tree : Node}
    (h : LessCss.parse ts limit start = .ok tree) : tree.Shallow limit none := by
  have hend := parse_twins (.refl ts) limit start
  rw [h] at hend
  cases hend with
  | ok related => exact related.shallow

/-- The tokens of a source are well marked; and in a well-marked stream, for every start symbol and
every cap `n`: on every way down a tree that was parsed under the cap, to a leaf or less far, there
are at most `n` blocks, parentheses, brackets and argument lists, not counting the arguments of
pseudo-classes. -/
theorem cap_bounds_levels :
    (∀ source, Tokens.WellMarked (Token.lex source)) ∧
    ∀ ts : Tokens, ts.WellMarked → ∀ (start : Symbol) (n : Nat) (tree : Node),
      LessCss.parse ts (some n) start = .ok tree →
        ∀ path, tree.Descends path → Node.levels none path ≤ n :=
  ⟨Token.lex_wellMarked, fun _ _ _ n _ h path hpath => shallow_of_parse h n rfl path hpath⟩

/-- A function in a block has two levels, which a cap of one refuses; the arguments of the
pseudo-class are none. -/
theorem cap_bounds_levels_function :
    (LessCss.parse (Token.lex "a:not(b)\x7bc:d(e)\x7d") (some 1) .ruleset).isOk = false ∧
    ∃ tree, LessCss.parse (Token.lex "a:not(b)\x7bc:d(e)\x7d") (some 2) .ruleset = .ok tree ∧
      ∀ path, tree.Descends path → Node.levels none path ≤ 2 := by
  have hok : (LessCss.parse (Token.lex "a:not(b)\x7bc:d(e)\x7d") (some 2) .ruleset).isOk = true := by
    decide +kernel
  refine ⟨by decide +kernel, ?_⟩
  cases h : LessCss.parse (Token.lex "a:not(b)\x7bc:d(e)\x7d") (some 2) .ruleset with
  | ok tree =>
    exact ⟨tree, rfl, cap_bounds_levels.2 _ (cap_bounds_levels.1 _) .ruleset 2 tree h⟩
  | error e =>
    rw [h] at hok
    cases hok

end Parser

end LessCss
