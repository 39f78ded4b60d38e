import LessCss.Proofs.Cap.Depth
import LessCss.Proofs.Cap.Lockstep

/-! A cap on nesting withholds results and changes none: a parse under a cap fails for the cap or ends
like the parse without one, a laxer cap keeps what a stricter one let through, and a cap with room
for all openers that have a closer lets everything through. -/

namespace LessCss.Parser

/-- The tokens of a source are well marked; and in a well-marked stream, for every start symbol and
every cap: a parse fails for the cap or gives what the parse without a cap gives; if it does not fail
for the cap, it gives the same under every higher cap; and it does not fail for a cap that is at least
the number of openers that have a closer. -/
theorem cap_withholds_only :
    (∀ source, Tokens.WellMarked (Token.lex source)) ∧
    ∀ ts : Tokens, ts.WellMarked → ∀ (start : Symbol) (n : Nat),
      (LessCss.parse ts (some n) start = .error .nestingTooDeep ∨
        LessCss.parse ts (some n) start = LessCss.parse ts none start) ∧
      (LessCss.parse ts (some n) start ≠ .error .nestingTooDeep →
        ∀ m, n ≤ m → LessCss.parse ts (some m) start = LessCss.parse ts (some n) start) ∧
      (ts.openers ≤ n → LessCss.parse ts (some n) start ≠ .error .nestingTooDeep) := by
  refine ⟨Token.lex_wellMarked, fun ts wm start n => ⟨?_, fun h m hm => ?_, fun hn => ?_⟩⟩
  · by_cases h : LessCss.parse ts (some n) start = .error .nestingTooDeep
    · exact Or.inl h
    · exact Or.inr (parse_eq_of_laxer (laxer_none _) h).symm
  · exact parse_eq_of_laxer (laxer_some hm) h
  · refine parse_ne_nestingTooDeep wm (fun depth hd => ?_) start
    simp only [allows, Option.all_some, decide_eq_true_eq]
    omega

/-- Two levels of negation are refused under a cap of one, and let through, with the result of the
parse without a cap, by every cap from two on. -/
theorem cap_withholds_only_negation :
    LessCss.parse (Token.lex "a:not(b:not(c))") (some 1) .selector = .error .nestingTooDeep ∧
    Tokens.WellMarked (Token.lex "a:not(b:not(c))") ∧
    Tokens.openers (Token.lex "a:not(b:not(c))") = 2 ∧
    LessCss.parse (Token.lex "a:not(b:not(c))") (some 2) .selector ≠ .error .nestingTooDeep ∧
    LessCss.parse (Token.lex "a:not(b:not(c))") (some 2) .selector =
      LessCss.parse (Token.lex "a:not(b:not(c))") none .selector ∧
    LessCss.parse (Token.lex "a:not(b:not(c))") (some 5) .selector =
      LessCss.parse (Token.lex "a:not(b:not(c))") (some 2) .selector := by
  have hopeners : Tokens.openers (Token.lex "a:not(b:not(c))") = 2 := by decide +kernel
  have hbites : (LessCss.parse (Token.lex "a:not(b:not(c))") (some 1) .selector).isOk ≠
      (LessCss.parse (Token.lex "a:not(b:not(c))") none .selector).isOk := by decide +kernel
  have wm := cap_withholds_only.1 "a:not(b:not(c))"
  have hdeep := (cap_withholds_only.2 _ wm .selector 1).1.resolve_right
    fun h => hbites (congrArg Except.isOk h)
  obtain ⟨hsame, hhigher, hroom⟩ := cap_withholds_only.2 _ wm .selector 2
  have hne := hroom (Nat.le_of_eq hopeners)
  exact ⟨hdeep, wm, hopeners, hne, hsame.resolve_left hne, hhigher hne 5 (by decide)⟩

end LessCss.Parser
