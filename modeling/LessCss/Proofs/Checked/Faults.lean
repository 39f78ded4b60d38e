import LessCss.Proofs.Checked.Places

/-! No source makes lexing or parsing go wrong. A checked parse of a well-marked stream finds no slot
of the memory missing, no distance taken backwards, no level left that was not entered, and no
condition broken, whatever the kinds and the texts of its tokens. Checked lexing cuts no text behind
its end, and linking reads and changes only tokens that exist. For a source whose characters can be
counted in 32 bits, with one to spare, all lengths and places fit into 32 bits as well. -/

namespace LessCss

/-- In well-marked streams, under any cap and from any start symbol, nothing goes wrong in a parse;
and nothing goes wrong in 32 bits in the lexing and the parse of a source that is short enough. -/
theorem parsing_finds_no_fault :
    (∀ ts : Tokens, ts.WellMarked → ∀ limit start,
      parseChecked .unlimited ts limit (Checked.bound ts) start = .ok (parse ts limit start)) ∧
    ∀ source : String, source.length < UInt32.size - 1 →
      Token.lexChecked UInt32.size (source.length + 1) source = .ok (Token.lex source) ∧
      Tokens.WellMarked (Token.lex source) ∧
      ∀ limit start,
        parseChecked (.below UInt32.size) (Token.lex source) limit (Checked.bound (Token.lex source))
          start = .ok (parse (Token.lex source) limit start) := by
  refine ⟨fun ts wm limit start => ?_, fun source hlen => ?_⟩
  · exact Checked.parseChecked_eq wm (Room.unlimited_suffices ts) (Nat.le_refl _) limit start
  · have hroom : source.length + 1 < UInt32.size := Nat.lt_sub_iff_add_lt.1 hlen
    have wm := Token.lex_wellMarked source
    exact ⟨Token.lexChecked_eq (Nat.lt_succ_self _) hroom, wm, fun limit start =>
      Checked.parseChecked_eq wm (Room.below_suffices hroom) (Nat.le_refl _) limit start⟩

/-- The cap refuses a question when the block is built, and the builder goes on with the answer. -/
theorem parsing_finds_no_fault_refused :
    "a\x7bb:not(:not(:not(c)))\x7bd:e\x7d\x7d".length < UInt32.size - 1 ∧
      Token.lexChecked UInt32.size ("a\x7bb:not(:not(:not(c)))\x7bd:e\x7d\x7d".length + 1)
        "a\x7bb:not(:not(:not(c)))\x7bd:e\x7d\x7d" =
          .ok (Token.lex "a\x7bb:not(:not(:not(c)))\x7bd:e\x7d\x7d") ∧
      parseChecked .unlimited (Token.lex "a\x7bb:not(:not(:not(c)))\x7bd:e\x7d\x7d") (some 2)
        (Checked.bound (Token.lex "a\x7bb:not(:not(:not(c)))\x7bd:e\x7d\x7d")) .stylesheet =
          .ok (.error .nestingTooDeep) ∧
      parseChecked (.below UInt32.size) (Token.lex "a\x7bb:not(:not(:not(c)))\x7bd:e\x7d\x7d") (some 2)
        (Checked.bound (Token.lex "a\x7bb:not(:not(:not(c)))\x7bd:e\x7d\x7d")) .stylesheet =
          .ok (.error .nestingTooDeep) := by
  have hlen : "a\x7bb:not(:not(:not(c)))\x7bd:e\x7d\x7d".length < UInt32.size - 1 := by decide
  have hparse : parse (Token.lex "a\x7bb:not(:not(:not(c)))\x7bd:e\x7d\x7d") (some 2) .stylesheet =
      .error .nestingTooDeep := by decide +kernel
  obtain ⟨hlex, wm, hchecked⟩ := parsing_finds_no_fault.2 _ hlen
  refine ⟨hlen, hlex, ?_, ?_⟩
  · rw [parsing_finds_no_fault.1 _ wm, hparse]
  · rw [hchecked, hparse]

end LessCss
