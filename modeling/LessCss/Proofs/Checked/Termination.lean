import LessCss.Proofs.Checked.Places

/-! Parsing ends. What bounds a checked run is a number of steps, and a number that depends on the
size of the stream only is always enough: a question leads to questions about later tokens, or about
rules further down in a fixed order at the same token; insides stand behind the openers of what is
around them; and repetitions move the cursor. Cutting a text ends since each lexeme takes a
character from it, also where the rest of a line is cut up once more, and linking tokens ends since
both passes go forward. -/

namespace LessCss

open Lookahead

/-! ## The order of rules -/

namespace Rule

/-- The tiers of rules: atoms; selectors and values with the parts they are made of; rules and what
stands in them; and the items of stylesheets, of bodies and of blocks. The body of a rule is on the
lowest tier, since it asks nothing about its own token. -/
def tier : Rule → Nat
  | spacing | ident | number | important | progid | var | interpolation | classSelector
  | idSelector | combinator | attributeSelector | pseudoClass | ruleBody => 0
  | fragment | arguments | namespacePart | extendTarget | keyframeSelector | conditionPart
  | preludePart | valuePart | compound | value | selector | selectorGroup => 1
  | ruleset | declaration | atRule | extend | condition | mixin | mixinCall | argument => 2
  | blockItem | nestedRule | sheetItem | blockChunk => 3

/-- The rule is on a lower tier, or on the same one and of lower rank. -/
def Below (r' r : Rule) : Prop := r'.tier < r.tier ∨ r'.tier = r.tier ∧ r'.rank < r.rank

/-- The order has no circles. -/
theorem below_wellFounded : WellFounded Below :=
  Subrelation.wf (fun {r' r} h => by
    have hr' := r'.rank_lt
    change r'.tier * ranks + r'.rank < r.tier * ranks + r.rank
    simp only [ranks, Below] at *
    omega) (measure fun r => r.tier * ranks + r.rank).wf

/-- Tiers are stretches of ranks. -/
theorem tier_eq (r : Rule) :
    r.tier = if r.rank = 0 then 0 else if r.rank < 5 then 1 else if r.rank < 7 then 2 else 3 := by
  cases r <;> rfl

theorem below_of_rank_lt {r' r : Rule} (h : r'.rank < r.rank) : r'.Below r := by
  rw [Below, tier_eq, tier_eq]
  split_ifs <;> omega

end Rule

/-- The program asks rule `r` about token `j`, on some path of answers that stay inside the
stream. -/
def Lookahead.Asks {α : Type} (ts : Tokens) (r : Rule) (j : Nat) : Lookahead α → Prop
  | done _ => False
  | query r' i next => r' = r ∧ i = j ∨ ∃ a : Answer r', ts.Fits i a.length ∧ (next a).Asks ts r j
  | inside r' i next => r' = r ∧ i = j ∨ ∃ a : Answer r', ts.Fits i a.length ∧ (next a).Asks ts r j
  | distance lo hi next => (next (hi - lo)).Asks ts r j

/-- A program asks nothing outside its scope. -/
theorem Lookahead.Stays.asks {α : Type} {ts : Tokens} {s : Scope} {F : α → Prop} {q : Lookahead α}
    (h : q.Stays ts s F) {r : Rule} {j : Nat} (hq : q.Asks ts r j) : s.Open j r.rank := by
  induction q with
  | done a => exact hq.elim
  | query r' i next ih =>
    rcases hq with ⟨rfl, rfl⟩ | ⟨a, ha, hq⟩
    · exact h.1
    · exact ih a (h.2 a ha) hq
  | inside r' i next ih =>
    rcases hq with ⟨rfl, rfl⟩ | ⟨a, ha, hq⟩
    · exact h.2.1
    · exact ih a (h.2.2 a ha) hq
  | distance lo hi next ih => exact ih _ h.2 hq

/-! ## Enough steps -/

/-- A text is cut up in as many steps as it has characters, and one; and tokens are linked in as many
steps as there are tokens, and one. The tokens of a source are well marked; and in a well-marked
stream, whatever a rule asks, it asks about a later token or, at its own token, a rule below it in an
order without circles. So under any cap a number of steps that depends on the size of the stream only
is enough to measure any production anywhere in a parse, to build it from then on where it covers
tokens, and for whole parses. -/
theorem parsing_terminates :
    (∀ steps url cs, cs.length < steps →
      Lexeme.cutChecked steps url cs = .ok (Lexeme.cut url cs)) ∧
    (∀ steps (ts : List Token), ts.length < steps →
      Token.linkChecked steps (ts.map Token.unlinked).toArray = .ok (Token.link ts)) ∧
    (∀ source, Tokens.WellMarked (Token.lex source)) ∧
    WellFounded Rule.Below ∧
    ∀ ts : Tokens, ts.WellMarked →
      (∀ (r : Rule) (i : Nat), i < ts.size → ∀ r' j, (r.body ts i).Asks ts r' j →
        i < j ∨ i = j ∧ r'.Below r) ∧
      ∀ (limit : Option Nat) (steps : Nat), Checked.bound ts ≤ steps →
        (∀ (p : Production) (i depth : Nat) (s : Parser.State), Parser.Reachable ts limit s →
          Checked.Confirms depth (Checked.look (Checked.oracle .unlimited ts limit steps)
            (p.length ts i)) (p.measure ts limit depth i) s ∧
          (0 < (p.measure ts limit depth i s).1 →
            ∀ s', Parser.Reaches ts limit (p.measure ts limit depth i s).2 s' → ∀ depth',
              Checked.Confirms 0 (Checked.build .unlimited ts limit steps depth' (p.nodes ts i)).run
                (p.build ts limit depth' i).run s')) ∧
        ∀ start, parseChecked .unlimited ts limit steps start = .ok (parse ts limit start) := by
  refine ⟨fun steps url cs h => Lexeme.cutChecked_eq url h, fun steps ts h => Token.linkChecked_eq h,
    Token.lex_wellMarked, Rule.below_wellFounded,
    fun ts wm => ⟨fun r i hi r' j hasks => ?_, fun limit steps hsteps => ?_⟩⟩
  · rcases (Rule.body_stays wm r hi).asks hasks with hlt | ⟨he, hrank⟩
    · exact Or.inl hlt
    · exact Or.inr ⟨he, Rule.below_of_rank_lt hrank⟩
  · have hroom := Room.unlimited_suffices ts
    refine ⟨fun p i depth s hr => ⟨?_, fun hpos s' hs' depth' => ?_⟩, fun start => ?_⟩
    · exact Checked.measure_confirms wm hroom hsteps p i hr.sound
    · exact Checked.production_confirms wm hroom hsteps p hr.sound hpos hs' depth'
    · exact Checked.parseChecked_eq wm hroom hsteps limit start

/-- An item of a stylesheet, the first of the productions. -/
theorem parsing_terminates_sheetItem :
    Lexeme.cutChecked 7 true "a//b) ".toList = .ok (Lexeme.cut true "a//b) ".toList) ∧
    Token.linkChecked 4
      ((Token.place .origin (Lexeme.ofSource "a\x7b\x7d")).map Token.unlinked).toArray =
        .ok (Token.lex "a\x7b\x7d") ∧
    Rule.Below .spacing .sheetItem ∧
    0 < (Production.sheetItem.measure (Token.lex "a\x7b\x7d") none 0 0
      (.start (Token.lex "a\x7b\x7d").size)).1 ∧
    Checked.Confirms 0
      (Checked.build .unlimited (Token.lex "a\x7b\x7d") none (Checked.bound (Token.lex "a\x7b\x7d")) 0
        (Production.sheetItem.nodes (Token.lex "a\x7b\x7d") 0)).run
      (Production.sheetItem.build (Token.lex "a\x7b\x7d") none 0 0).run
      (Production.sheetItem.measure (Token.lex "a\x7b\x7d") none 0 0
        (.start (Token.lex "a\x7b\x7d").size)).2 ∧
    parseChecked .unlimited (Token.lex "a\x7b\x7d") none (Checked.bound (Token.lex "a\x7b\x7d"))
      .ruleset = .ok (parse (Token.lex "a\x7b\x7d") none .ruleset) := by
  obtain ⟨hcut, hlink, hlex, _, hparse⟩ := parsing_terminates
  obtain ⟨hasks, hruns⟩ := hparse _ (hlex "a\x7b\x7d")
  obtain ⟨hproductions, hstarts⟩ := hruns none _ (Nat.le_refl _)
  have hpos : 0 < (Production.sheetItem.measure (Token.lex "a\x7b\x7d") none 0 0
      (.start (Token.lex "a\x7b\x7d").size)).1 := by decide +kernel
  refine ⟨hcut 7 true _ (by decide), hlink 4 _ (by decide +kernel), ?_, hpos, ?_, hstarts _⟩
  · have hask := hasks .sheetItem 0 (by decide +kernel) .spacing 0 (Or.inl ⟨rfl, rfl⟩)
    exact (hask.resolve_left (Nat.lt_irrefl 0)).2
  · exact (hproductions .sheetItem 0 0 _ .refl).2 hpos _ .refl 0

end LessCss
