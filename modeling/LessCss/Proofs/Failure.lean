import LessCss.Proofs.Cap.Depth
import LessCss.Proofs.Transparency

/-! Where parses without a cap fail. The lookahead reads all of the stream but what stands behind an
opener that has a closer, which is read only when the inside is built. So a parse fails at the first
token that the measure of its start symbol leaves over; and if it leaves none over, the parse fails
behind such an opener or not at all. -/

namespace LessCss

namespace Parser

variable {ts : Tokens} {start : Symbol}

theorem measured_eq_eval (wm : ts.WellMarked) (start : Symbol) :
    (measured ts none start).1 = (start.length ts 0).eval ts :=
  oracle_run_eq_eval wm (start_sound ts) rfl (start.length ts 0) 0

/-- A parse is decided by the measure, and then by building from the state that measuring leaves. -/
theorem parse_eq_of_measured (wm : ts.WellMarked) (hne : 0 < ts.size) (start : Symbol) :
    LessCss.parse ts none start =
      if (measured ts none start).1 < ts.size then .error (ts.unexpected (measured ts none start).1)
      else (((build ts none start).run (measured ts none start).2).1).map Prod.fst := by
  have hempty : ¬ ts.isEmpty = true := by simpa [Array.isEmpty] using Nat.ne_of_gt hne
  have hg := (oracle_yields ts none (start.length ts 0) _ (start_sound ts)).1
  have hbuild : ((build ts none start).run (measured ts none start).2).1 =
      (start.build ts 0).eval ts := build_run_eq wm start hg.sound (hg.uncapped rfl)
  rw [LessCss.parse, if_neg hempty, hbuild, measured_eq_eval wm]
  exact parse_run_eq wm start

/-- A token that the start symbol leaves over is where the parse fails. -/
theorem parse_of_left_over (wm : ts.WellMarked) {t : Token}
    (h : ts[(measured ts none start).1]? = some t) :
    LessCss.parse ts none start = .error (.unexpectedToken t.start.line) := by
  have hlt := Tokens.lt_of_getElem? h
  have hmin : min (measured ts none start).1 (ts.size - 1) = (measured ts none start).1 := by omega
  rw [parse_eq_of_measured wm (Nat.zero_lt_of_lt hlt), if_pos hlt,
    Tokens.unexpected_eq (hmin.symm ▸ h)]

/-- Where the start symbol leaves nothing over, a parse fails behind an opener that has a closer. -/
theorem deferred_of_parse_error (wm : ts.WellMarked) (hne : 0 < ts.size)
    (hall : ts.size ≤ (measured ts none start).1) {e : Error}
    (h : LessCss.parse ts none start = .error e) : ∃ j, ts.Deferred j ∧ e = ts.unexpected j := by
  have hroom : ts.Roomy none := fun _ _ => rfl
  have hdeep := parse_ne_nestingTooDeep wm hroom start
  rw [h] at hdeep
  rw [parse_eq_of_measured wm hne, if_neg (Nat.not_lt.2 hall)] at h
  have hout := (build_delivers wm hne hall).2
  cases hres : ((build ts none start).run (measured ts none start).2).1 with
  | ok a =>
    rw [hres] at h
    cases h
  | error e' =>
    rw [hres] at h hout
    cases h
    exact hout.resolve_left fun he => hdeep (congrArg Except.error he)

end Parser

/-- What is deferred in the stream of a source stands behind a bracket that opens and has a
closer. -/
theorem Token.exists_linked_of_deferred {source : String} {j : Nat}
    (h : Tokens.Deferred (lex source) j) :
    ∃ (o : Nat) (t : Token), o < j ∧ (lex source)[o]? = some t ∧ t.linked = true := by
  obtain ⟨o, t, c, hlt, ht, hc⟩ := h
  obtain ⟨-, b, -, hopens, -⟩ := link_closer _ ht hc
  exact ⟨o, t, hlt, ht, by rw [linked, hopens, hc]; rfl⟩

/-- The place of a failure inside: an opener with a closer, and the token behind it whose line is
named, the last one if the failure is past the end. -/
theorem exists_place_of_parseText_error {source : String} {start : Symbol} {e : Error}
    (hne : 0 < (Token.lex source).size)
    (hall : (Token.lex source).size ≤ (Parser.measured (Token.lex source) none start).1)
    (h : parseText source start = .error e) : ∃ (o j : Nat) (t u : Token),
      o < j ∧ (Token.lex source)[o]? = some t ∧ t.linked = true ∧
        (Token.lex source)[min j ((Token.lex source).size - 1)]? = some u ∧
        e = .unexpectedToken u.start.line := by
  obtain ⟨j, hj, rfl⟩ := Parser.deferred_of_parse_error (Token.lex_wellMarked source) hne hall h
  obtain ⟨o, t, hlt, ht, hlinked⟩ := Token.exists_linked_of_deferred hj
  obtain ⟨u, hu⟩ : ∃ u, (Token.lex source)[min j ((Token.lex source).size - 1)]? = some u :=
    ⟨_, Array.getElem?_eq_getElem (by omega)⟩
  exact ⟨o, j, t, u, hlt, ht, hlinked, hu, Tokens.unexpected_eq hu⟩

/-- A parse fails on the line of the first token that is left over by the measure of its start
symbol. If none is left over, it fails for a token, on its line or past the end on that of the last
one, that stands behind an opener with a closer; so it succeeds if there is no such opener. -/
theorem parse_fails_left_over_or_inside (source : String) (start : Symbol)
    (hne : 0 < (Token.lex source).size) :
    (∀ t, (Token.lex source)[(Parser.measured (Token.lex source) none start).1]? = some t →
      parseText source start = .error (.unexpectedToken t.start.line)) ∧
    ((Token.lex source).size ≤ (Parser.measured (Token.lex source) none start).1 →
      (∀ e, parseText source start = .error e → ∃ (o j : Nat) (t u : Token),
        o < j ∧ (Token.lex source)[o]? = some t ∧ t.linked = true ∧
          (Token.lex source)[min j ((Token.lex source).size - 1)]? = some u ∧
          e = .unexpectedToken u.start.line) ∧
      ((∀ t ∈ Token.lex source, t.linked = false) →
        ∃ tree, parseText source start = .ok tree)) := by
  have wm := Token.lex_wellMarked source
  refine ⟨fun t ht => Parser.parse_of_left_over wm ht, fun hall =>
    ⟨fun e he => exists_place_of_parseText_error hne hall he, fun hnone => ?_⟩⟩
  cases hp : parseText source start with
  | ok tree => exact ⟨tree, rfl⟩
  | error e =>
    obtain ⟨o, -, t, -, -, ht, hlinked, -⟩ := exists_place_of_parseText_error hne hall hp
    rw [hnone t (Array.mem_of_getElem? ht)] at hlinked
    cases hlinked

/-- A bracket is left over by a stylesheet. In a block, all of which the measure covers, the bracket
is found when the block is built. A declaration has no inside where building could fail. -/
theorem parse_fails_left_over_or_inside_bracket :
    parseText "a\x7b\x7d\n]" .stylesheet = .error (.unexpectedToken 2) ∧
    (∃ (o j : Nat) (t u : Token), o < j ∧ (Token.lex "a\x7b\n]\x7d")[o]? = some t ∧
      t.linked = true ∧ (Token.lex "a\x7b\n]\x7d")[min j 4]? = some u ∧ u.start.line = 2) ∧
    ∃ tree, parseText "a:b" .declaration = .ok tree := by
  refine ⟨?_, ?_, ?_⟩
  · have hleft : (Token.lex "a\x7b\x7d\n]")[(Parser.measured (Token.lex "a\x7b\x7d\n]") none
        .stylesheet).1]?.map (·.start.line) = some 2 := by decide +kernel
    obtain ⟨t, ht, hline⟩ := Option.map_eq_some_iff.1 hleft
    rw [← hline]
    exact (parse_fails_left_over_or_inside _ .stylesheet (by decide +kernel)).1 t ht
  · have hsize : (Token.lex "a\x7b\n]\x7d").size = 5 := by decide +kernel
    have hline : (match parseText "a\x7b\n]\x7d" .stylesheet with
      | .error e => e.line?
      | .ok _ => none) = some 2 := by decide +kernel
    cases hp : parseText "a\x7b\n]\x7d" .stylesheet with
    | ok tree =>
      rw [hp] at hline
      cases hline
    | error e =>
      obtain ⟨o, j, t, u, hlt, ht, hlinked, hu, rfl⟩ :=
        ((parse_fails_left_over_or_inside "a\x7b\n]\x7d" .stylesheet (by decide +kernel)).2
          (by decide +kernel)).1 e hp
      rw [hp] at hline
      rw [hsize] at hu
      exact ⟨o, j, t, u, hlt, ht, hlinked, hu, Option.some.inj hline⟩
  · exact ((parse_fails_left_over_or_inside "a:b" .declaration (by decide +kernel)).2
      (by decide +kernel)).2 (by decide +kernel)

end LessCss
