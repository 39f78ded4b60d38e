import LessCss.Proofs.Twins.Runs
import LessCss.Proofs.Words

/-! Only keywords matter. Two sources whose tokens have the same kinds, and the same texts wherever a
keyword stands, are parsed alike: with trees of the same outline, with the cap on nesting, or with an
error at the same token. So are two streams that differ only in where their tokens start. -/

namespace LessCss

open Lexeme

/-! ## Links -/

namespace Token

/-- What the grammar sees of a token but its text. -/
def marks (t : Token) : Kind × Option Nat × Option Nat := (t.kind, t.closer, t.runEnd)

theorem foldr_linkBracket_marks {ts ts' : List Token} (h : ts.map marks = ts'.map marks) (n : Nat) :
    ((ts.zipIdx n).foldr linkBracket ([], [])).1 = ((ts'.zipIdx n).foldr linkBracket ([], [])).1 ∧
    ((ts.zipIdx n).foldr linkBracket ([], [])).2.map marks =
      ((ts'.zipIdx n).foldr linkBracket ([], [])).2.map marks := by
  induction ts generalizing ts' n with
  | nil =>
    obtain rfl : ts' = [] := by simpa using h.symm
    exact ⟨rfl, rfl⟩
  | cons t ts ih =>
    obtain ⟨t', ts', rfl, ht, hts⟩ := List.map_eq_cons_iff.1 h.symm
    obtain ⟨hfree, hdone⟩ := ih hts.symm (n + 1)
    have hkind : t'.kind = t.kind := congrArg Prod.fst ht
    simp only [List.zipIdx_cons, List.foldr_cons]
    generalize (ts.zipIdx (n + 1)).foldr linkBracket ([], []) = x at hfree hdone ⊢
    generalize (ts'.zipIdx (n + 1)).foldr linkBracket ([], []) = x' at hfree hdone ⊢
    obtain ⟨free, done⟩ := x
    obtain ⟨free', done'⟩ := x'
    obtain rfl : free = free' := hfree
    have hrun : t'.runEnd = t.runEnd := congrArg (·.2.2) ht
    simp only [linkBracket, hkind]
    split
    · exact ⟨rfl, by simp only [List.map_cons, marks, hrun]; exact congrArg _ hdone⟩
    · exact ⟨rfl, by rw [List.map_cons, List.map_cons, ht]; exact congrArg _ hdone⟩
    · exact ⟨rfl, by rw [List.map_cons, List.map_cons, ht]; exact congrArg _ hdone⟩

theorem foldr_linkRun_marks {ts ts' : List Token} (h : ts.map marks = ts'.map marks) (n : Nat) :
    ((ts.zipIdx n).foldr linkRun (none, [])).1 = ((ts'.zipIdx n).foldr linkRun (none, [])).1 ∧
    ((ts.zipIdx n).foldr linkRun (none, [])).2.map marks =
      ((ts'.zipIdx n).foldr linkRun (none, [])).2.map marks := by
  induction ts generalizing ts' n with
  | nil =>
    obtain rfl : ts' = [] := by simpa using h.symm
    exact ⟨rfl, rfl⟩
  | cons t ts ih =>
    obtain ⟨t', ts', rfl, ht, hts⟩ := List.map_eq_cons_iff.1 h.symm
    obtain ⟨hrun, hdone⟩ := ih hts.symm (n + 1)
    have hkind : t'.kind = t.kind := congrArg Prod.fst ht
    simp only [List.zipIdx_cons, List.foldr_cons]
    generalize (ts.zipIdx (n + 1)).foldr linkRun (none, []) = x at hrun hdone ⊢
    generalize (ts'.zipIdx (n + 1)).foldr linkRun (none, []) = x' at hrun hdone ⊢
    obtain ⟨run, done⟩ := x
    obtain ⟨run', done'⟩ := x'
    obtain rfl : run = run' := hrun
    have hclose : t'.closer = t.closer := congrArg (·.2.1) ht
    simp only [linkRun, hkind]
    split
    · exact ⟨rfl, by simp only [List.map_cons, marks, hclose]; exact congrArg _ hdone⟩
    · exact ⟨rfl, by rw [List.map_cons, List.map_cons, ht]; exact congrArg _ hdone⟩

/-- The links of tokens depend on their kinds only. -/
theorem link_marks {ts ts' : List Token} (h : ts.map kind = ts'.map kind) :
    (link ts).toList.map marks = (link ts').toList.map marks := by
  have hunlinked : (ts.map unlinked).map marks = (ts'.map unlinked).map marks := by
    have hmarks : ∀ l : List Token,
        (l.map unlinked).map marks = (l.map kind).map fun k => (k, none, none) := by
      intro l
      rw [List.map_map, List.map_map]
      rfl
    rw [hmarks, hmarks, h]
  exact (foldr_linkRun_marks (foldr_linkBracket_marks hunlinked 0).2 0).2

end Token

/-! ## Keywords -/

/-- The words that the grammar knows. -/
def Text.keywords : List String :=
  ["when", "extend", "url", "expression", "important", "n", "from", "to", "progid",
   "DXImageTransform", "Microsoft"]

/-- The text is a keyword, or holds the one that is looked for inside names. -/
def Text.IsKeyword (t : String) : Prop := t ∈ Text.keywords ∨ Text.contains "keyframes" t = true

instance (t : String) : Decidable (Text.IsKeyword t) := inferInstanceAs (Decidable (_ ∨ _))

/-- The streams have the same kinds of tokens, and each token has the same text in both or is no
keyword in either. -/
structure Tokens.Akin (ts ts' : Tokens) : Prop where
  kinds : ts.map Token.kind = ts'.map Token.kind
  texts : ∀ i < ts.size, ts.text i = ts'.text i ∨
    ¬ Text.IsKeyword (ts.text i) ∧ ¬ Text.IsKeyword (ts'.text i)

namespace Tokens

variable {ts ts' : Tokens}

theorem Akin.size (h : ts.Akin ts') : ts.size = ts'.size := by
  have hsize := congrArg Array.size h.kinds
  rwa [Array.size_map, Array.size_map] at hsize

theorem Akin.kind? (h : ts.Akin ts') (i : Nat) : ts.kind? i = ts'.kind? i := by
  unfold Tokens.kind?
  rw [← Array.getElem?_map, ← Array.getElem?_map, h.kinds]

theorem Akin.symm (h : ts.Akin ts') : ts'.Akin ts where
  kinds := h.kinds.symm
  texts i hi := (h.texts i (h.size ▸ hi)).imp Eq.symm And.symm

theorem Akin.text_eq (h : ts.Akin ts') {i : Nat} (hw : Text.IsKeyword (ts.text i)) :
    ts'.text i = ts.text i := by
  rcases Nat.lt_or_ge i ts.size with hi | hi
  · exact ((h.texts i hi).resolve_right fun hno => hno.1 hw).symm
  · have hi' : ts'.size ≤ i := h.size ▸ hi
    rw [Tokens.text, Tokens.text, Array.getElem?_eq_none hi, Array.getElem?_eq_none hi']

theorem texts_eq_map (ts : Tokens) (lo hi : Nat) :
    ts.texts lo hi = (List.range (min hi ts.size - lo)).map fun k => ts.text (lo + k) := by
  refine List.ext_getElem? fun k => ?_
  rw [Tokens.texts, List.getElem?_map, Array.getElem?_toList, Array.getElem?_extract,
    List.getElem?_map]
  by_cases hk : k < min hi ts.size - lo
  · have hlt : lo + k < ts.size := by omega
    rw [if_pos hk, List.getElem?_range hk, Option.map_some (a := k), Tokens.text,
      Array.getElem?_eq_getElem hlt]
    rfl
  · rw [if_neg hk, List.getElem?_eq_none (by simpa using hk)]
    rfl

theorem length_texts (ts : Tokens) (lo hi : Nat) :
    (ts.texts lo hi).length = min hi ts.size - lo := by
  rw [texts_eq_map, List.length_map, List.length_range]

theorem mem_texts {lo hi : Nat} {t : String} :
    t ∈ ts.texts lo hi ↔ ∃ k < min hi ts.size - lo, ts.text (lo + k) = t := by
  simp [texts_eq_map]

/-- A stretch whose tokens cannot differ is the same in both streams. -/
theorem Akin.texts_congr (h : ts.Akin ts') {lo hi : Nat}
    (hsame : ∀ i, ts.text i ∈ ts.texts lo hi → ts'.text i = ts.text i) :
    ts'.texts lo hi = ts.texts lo hi := by
  rw [texts_eq_map ts', texts_eq_map ts, ← h.size]
  refine List.map_congr_left fun k hk => hsame _ ?_
  exact mem_texts.2 ⟨k, List.mem_range.1 hk, rfl⟩

theorem join_eq_join_texts (ts : Tokens) (lo hi : Nat) : ts.join lo hi = String.join (ts.texts lo hi) :=
  rfl

end Tokens

namespace Token

variable {source source' : String}

/-- The pieces of which the mark of a filter call is made. -/
theorem akin_text_of_piece (h : Tokens.Akin (lex source) (lex source')) {i : Nat}
    (hp : Text.IsKeyword (Tokens.text (lex source) i) ∨
      Tokens.text (lex source) i ∈ [":", "."]) :
    Tokens.text (lex source') i = Tokens.text (lex source) i := by
  rcases hp with hw | hm
  · exact h.text_eq hw
  have hmark : ∀ {c : Char} {k : Kind}, (∀ cs, munch c cs = (k, 0)) → c ≠ '/' → k.char? = some c →
      Tokens.text (lex source) i = String.ofList [c] →
      Tokens.text (lex source') i = Tokens.text (lex source) i := by
    intro c k hk hc hchar htext
    have his : Tokens.is (lex source') i k = true := by
      refine Tokens.is_iff.2 ?_
      rw [← h.kind?]
      exact Tokens.is_iff.1 (kind_of_mark source hk hc htext)
    rw [htext]
    exact (lex_faithful source').punctuation i k c his hchar
  simp only [List.mem_cons, List.not_mem_nil, or_false] at hm
  rcases hm with hm | hm
  · exact hmark (k := .colon) (c := ':') (fun _ => rfl) (by decide) rfl hm
  · exact hmark (k := .dot) (c := '.') (fun _ => rfl) (by decide) rfl hm

/-- A stretch that is made of keywords and marks is the same in both sources. -/
theorem akin_join_eq (h : Tokens.Akin (lex source) (lex source')) {lo hi : Nat} (ws : List String)
    (hws : ∀ w ∈ ws, Text.IsKeyword w ∨ w ∈ [":", "."])
    (hsplit : (String.join ws).toList.splitBy letters = ws.map String.toList)
    (hlen : ws.length ≤ min hi (lex source).size - lo)
    (hjoin : Tokens.join (lex source) lo hi = String.join ws) :
    Tokens.join (lex source') lo hi = String.join ws := by
  have htexts : Tokens.texts (lex source) lo hi = ws := by
    refine texts_eq_of_join source (by rw [hjoin, hsplit]) ?_
    rwa [Tokens.length_texts]
  rw [Tokens.join_eq_join_texts, h.texts_congr, htexts]
  intro i hi
  rw [htexts] at hi
  exact akin_text_of_piece h (hws _ hi)

theorem akin_word (h : Tokens.Akin (lex source) (lex source')) {w : String} (hw : w ∈ Tokens.words)
    {i : Nat} (he : Tokens.text (lex source) i = w) : Tokens.text (lex source') i = w := by
  have hkeyword : w ∈ Text.keywords := by
    have hall : ∀ w ∈ Tokens.words, w ∈ Text.keywords := by decide
    exact hall w hw
  rw [h.text_eq (he ▸ Or.inl hkeyword), he]

theorem akin_keyframe (h : Tokens.Akin (lex source) (lex source')) {w : String}
    (hw : w ∈ ["from", "to"]) {lo hi : Nat} (he : Tokens.join (lex source) lo hi = w) :
    Tokens.join (lex source') lo hi = w := by
  have hsplit : w.toList.splitBy letters = [w.toList] ∧ w ∈ Text.keywords ∧ w ≠ "" := by
    have hall : ∀ w ∈ ["from", "to"],
        w.toList.splitBy letters = [w.toList] ∧ w ∈ Text.keywords ∧ w ≠ "" := by decide
    exact hall w hw
  have hone : String.join [w] = w := by simp [String.join]
  have hlen : 1 ≤ min hi (lex source).size - lo := by
    refine Nat.one_le_iff_ne_zero.2 fun hz => hsplit.2.2 ?_
    have hnil : Tokens.texts (lex source) lo hi = [] :=
      List.eq_nil_of_length_eq_zero (by rw [Tokens.length_texts, hz])
    rw [← he, Tokens.join_eq_join_texts, hnil]
    rfl
  have hjoin := akin_join_eq h [w] (List.forall_mem_singleton.2 (Or.inl (Or.inl hsplit.2.1)))
    (by rw [hone]; exact hsplit.1) hlen (by rw [hone, he])
  rwa [hone] at hjoin

theorem akin_keyframes (h : Tokens.Akin (lex source) (lex source')) {lo hi : Nat}
    (he : Text.contains "keyframes" (Tokens.join (lex source) lo hi) = true) :
    Text.contains "keyframes" (Tokens.join (lex source') lo hi) = true := by
  have hletters : ∀ c ∈ "keyframes".toList, c.isAlpha = true := List.all_eq_true.1 (by decide)
  rw [contains_join_iff source hletters (by decide)] at he
  obtain ⟨t, ht, hcontains⟩ := he
  obtain ⟨k, hk, rfl⟩ := Tokens.mem_texts.1 ht
  rw [contains_join_iff source' hletters (by decide)]
  refine ⟨_, Tokens.mem_texts.2 ⟨k, h.size ▸ hk, rfl⟩, ?_⟩
  rwa [h.text_eq (Or.inr hcontains)]

theorem akin_progid (h : Tokens.Akin (lex source) (lex source')) {i : Nat}
    (hi : i + 6 ≤ (lex source).size)
    (he : Tokens.join (lex source) i (i + 6) = Grammar.progidMark) :
    Tokens.join (lex source') i (i + 6) = Grammar.progidMark :=
  akin_join_eq h ["progid", ":", "DXImageTransform", ".", "Microsoft", "."] (by decide)
    (by decide) (by simp only [List.length_cons, List.length_nil]; omega) he

/-- The grammar cannot tell akin sources apart. -/
theorem akin_alike (h : Tokens.Akin (lex source) (lex source')) :
    Tokens.Alike (lex source) (lex source') := by
  have hmarks : (lex source).toList.map marks = (lex source').toList.map marks := by
    refine link_marks ?_
    rw [← lex_map source kind fun _ => rfl, ← lex_map source' kind fun _ => rfl, ← Array.toList_map,
      ← Array.toList_map, h.kinds]
  have hmark : ∀ i : Nat, (lex source)[i]?.map marks = (lex source')[i]?.map marks := by
    intro i
    have hi := congrArg (fun l => l[i]?) hmarks
    simpa only [List.getElem?_map, Array.getElem?_toList] using hi
  have hlinks : ∀ (f : Kind × Option Nat × Option Nat → Option Nat) (i : Nat),
      ((lex source)[i]?.bind fun t => f t.marks) = (lex source')[i]?.bind fun t => f t.marks := by
    intro f i
    have hi := congrArg (Option.bind · f) (hmark i)
    simp only [Option.bind_map] at hi
    exact hi
  exact
    { size := h.size
      kind? := h.kind?
      closer := hlinks (·.2.1)
      runEnd := hlinks (·.2.2)
      word := fun w hw i => ⟨akin_word h hw, akin_word h.symm hw⟩
      keyframe := fun w hw lo hi => ⟨akin_keyframe h hw, akin_keyframe h.symm hw⟩
      keyframes := fun lo hi => Bool.eq_iff_iff.2 ⟨akin_keyframes h, akin_keyframes h.symm⟩
      progid := fun i hi => ⟨akin_progid h hi, akin_progid h.symm (h.size ▸ hi)⟩ }

end Token

/-! ## Places -/

/-- The token without the place where it starts. -/
def Token.unplaced (t : Token) : Token := { t with start := .origin }

/-- Streams that differ only in places have the same texts and cannot be told apart. -/
theorem Tokens.twins_of_unplaced {ts ts' : Tokens}
    (h : ts.map Token.unplaced = ts'.map Token.unplaced) : ts.Twins true ts' := by
  have hmap : ∀ {α : Type} (f : Token → α), (∀ t : Token, f t.unplaced = f t) →
      ts.map f = ts'.map f := by
    intro α f hf
    have hf' : f ∘ Token.unplaced = f := funext hf
    rw [← hf', ← Array.map_map, ← Array.map_map, h]
  have hget : ∀ {α : Type} (f : Token → α), (∀ t : Token, f t.unplaced = f t) →
      ∀ i : Nat, ts[i]?.map f = ts'[i]?.map f := by
    intro α f hf i
    rw [← Array.getElem?_map, ← Array.getElem?_map, hmap f hf]
  have htexts := hmap Token.text fun _ => rfl
  have hjoin : ∀ lo hi, ts.join lo hi = ts'.join lo hi := by
    intro lo hi
    unfold Tokens.join
    rw [← Array.toList_map, ← Array.toList_map, Array.map_extract, Array.map_extract, htexts]
  have hlink : ∀ f : Token → Option Nat, (∀ t : Token, f t.unplaced = f t) →
      ∀ i : Nat, ts[i]?.bind f = ts'[i]?.bind f := by
    intro f hf i
    have hi := congrArg (Option.bind · id) (hget f hf i)
    simp only [Option.bind_map] at hi
    exact hi
  refine ⟨?_, fun _ => htexts⟩
  exact
    { size := by simpa using congrArg Array.size h
      kind? := hget Token.kind fun _ => rfl
      closer := hlink Token.closer fun _ => rfl
      runEnd := hlink Token.runEnd fun _ => rfl
      word := fun w _ i => by rw [Tokens.text, hget Token.text fun _ => rfl, Tokens.text]
      keyframe := fun w _ lo hi => by rw [hjoin]
      keyframes := fun lo hi => by rw [hjoin]
      progid := fun i _ => by rw [hjoin] }

/-! ## Whole parses -/

namespace Parser

/-- Two parses end alike: with trees of the same outline, which has texts if `texts` says so; twice
with the cap on nesting; or twice with the line of a token, of the same index in both streams. A
stream without tokens has the line 1. -/
inductive EndsAlike (texts : Bool) (ts ts' : Tokens) : Except Error Node → Except Error Node → Prop
  | trees {tree tree' : Node} (same : tree.outline texts = tree'.outline texts) :
    EndsAlike texts ts ts' (.ok tree) (.ok tree')
  | tooDeep : EndsAlike texts ts ts' (.error .nestingTooDeep) (.error .nestingTooDeep)
  | token {i : Nat} {t t' : Token} (left : ts[i]? = some t) (right : ts'[i]? = some t') :
    EndsAlike texts ts ts' (.error (.unexpectedToken t.start.line))
      (.error (.unexpectedToken t'.start.line))
  | empty (left : ts = #[]) (right : ts' = #[]) :
    EndsAlike texts ts ts' (.error (.unexpectedToken 1)) (.error (.unexpectedToken 1))

theorem SameEnd.endsAlike {texts : Bool} {limit : Option Nat} {ts ts' : Tokens}
    (hsize : ts.size = ts'.size) {r r' : Except Error Node}
    (h : SameEnd ts ts' (Node.Twin texts limit) r r') : EndsAlike texts ts ts' r r' := by
  cases h with
  | ok related => exact .trees related.outline
  | tooDeep => exact .tooDeep
  | unexpected i =>
    rcases Nat.eq_zero_or_pos ts.size with hz | hpos
    · obtain rfl : ts = #[] := Array.eq_empty_of_size_eq_zero hz
      obtain rfl : ts' = #[] := Array.eq_empty_of_size_eq_zero (hsize.symm.trans hz)
      exact .empty rfl rfl
    · -- past the end the last token is named
      obtain ⟨t, ht⟩ : ∃ t, ts[min i (ts.size - 1)]? = some t :=
        ⟨_, Array.getElem?_eq_getElem (by omega)⟩
      obtain ⟨t', ht'⟩ : ∃ t, ts'[min i (ts'.size - 1)]? = some t :=
        ⟨_, Array.getElem?_eq_getElem (by omega)⟩
      rw [Tokens.unexpected_eq ht, Tokens.unexpected_eq ht']
      rw [← hsize] at ht'
      exact .token ht ht'

theorem parse_endsAlike {texts : Bool} {ts ts' : Tokens} (h : ts.Twins texts ts')
    (limit : Option Nat) (start : Symbol) :
    EndsAlike texts ts ts' (LessCss.parse ts limit start) (LessCss.parse ts' limit start) :=
  (parse_twins h limit start).endsAlike h.size

/-- Two sources whose tokens have the same kinds, and at each index the same text or no keyword in
either, are parsed alike, as every start symbol and under every cap. So are the tokens of a source
and any copy of them with other places, and then the texts of the leaves are the same. -/
theorem only_keywords_matter :
    (∀ source source' : String,
      (Token.lex source).map Token.kind = (Token.lex source').map Token.kind →
      (∀ i < (Token.lex source).size,
        Tokens.text (Token.lex source) i = Tokens.text (Token.lex source') i ∨
          ¬ Text.IsKeyword (Tokens.text (Token.lex source) i) ∧
            ¬ Text.IsKeyword (Tokens.text (Token.lex source') i)) →
      ∀ (start : Symbol) (limit : Option Nat),
        EndsAlike false (Token.lex source) (Token.lex source')
          (LessCss.parse (Token.lex source) limit start)
          (LessCss.parse (Token.lex source') limit start)) ∧
    ∀ (source : String) (ts : Tokens),
      ts.map Token.unplaced = (Token.lex source).map Token.unplaced →
      ∀ (start : Symbol) (limit : Option Nat),
        EndsAlike true (Token.lex source) ts (LessCss.parse (Token.lex source) limit start)
          (LessCss.parse ts limit start) := by
  refine ⟨fun source source' hkinds htexts start limit => ?_, fun source ts h start limit => ?_⟩
  · have h : Tokens.Twins false (Token.lex source) (Token.lex source') :=
      ⟨Token.akin_alike ⟨hkinds, htexts⟩, nofun⟩
    exact parse_endsAlike h limit start
  · exact parse_endsAlike (Tokens.twins_of_unplaced h.symm) limit start

/-- Two animations with other names, and one of them moved. -/
theorem only_keywords_matter_keyframes :
    EndsAlike false (Token.lex "@keyframes a\x7bfrom\x7bb:c(d)\x7d\x7d")
      (Token.lex "@keyframes spin\x7bfrom\x7btop:calc(e)\x7d\x7d")
      (LessCss.parse (Token.lex "@keyframes a\x7bfrom\x7bb:c(d)\x7d\x7d") (some 3) .atRule)
      (LessCss.parse (Token.lex "@keyframes spin\x7bfrom\x7btop:calc(e)\x7d\x7d") (some 3)
        .atRule) ∧
    EndsAlike true (Token.lex "a\x7bb:c\x7d")
      ((Token.lex "a\x7bb:c\x7d").map fun t => { t with start := t.start.shift 7 })
      (LessCss.parse (Token.lex "a\x7bb:c\x7d") none .ruleset)
      (LessCss.parse ((Token.lex "a\x7bb:c\x7d").map fun t => { t with start := t.start.shift 7 })
        none .ruleset) :=
  ⟨only_keywords_matter.1 _ _ (by decide +kernel) (by decide +kernel) .atRule (some 3),
    only_keywords_matter.2 _ _ (by decide +kernel) .ruleset none⟩

end Parser

end LessCss
