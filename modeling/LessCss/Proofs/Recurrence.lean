import LessCss.Proofs.Build.Selectors
import LessCss.Proofs.Names

/-! Stretches of tokens that recur. Where the tokens of one stream stand in another one too, between
walls that nothing reads across, looking ahead finds the same in both. How much a wall has to hold
back depends on what is read: a name stops at any token that cannot stand in it, spacing only at a
token that is no spacing, and whole selectors at nothing but a closing parenthesis or the end. -/

namespace LessCss

open Lookahead Grammar Tokens

/-- The tokens from `lo` up to `hi` of a stream stand in another one as well, `d` tokens further on,
but for their links. Behind them both streams end or go on with a token of the kinds `walls`. -/
structure Tokens.Recurs (walls : List Token.Kind) (ts ts' : Tokens) (d lo hi : Nat) : Prop where
  le_size : hi ≤ ts.size
  token : ∀ i, lo ≤ i → i < hi → ts'[d + i]?.map Token.unlinked = ts[i]?.map Token.unlinked
  wall : ∀ k, ts.kind? hi = some k → k ∈ walls
  wall' : ∀ k, ts'.kind? (d + hi) = some k → k ∈ walls

/-- The walls behind selectors. -/
def closedWalls : List Token.Kind := [.rightParen]

/-- The walls behind spacing and attributes. -/
def snugWalls : List Token.Kind := [.rightParen, .rightSquare]

/-- The walls behind names: also white space, and what a combinator starts with. -/
def softWalls : List Token.Kind :=
  [.rightParen, .rightSquare, .space, .tab, .newline, .bar, .plus, .greater, .tilde, .slash]

/-- The walls behind a name alone: also the parenthesis of a function. -/
def nameWalls : List Token.Kind := .leftParen :: softWalls

namespace Tokens.Recurs

variable {walls : List Token.Kind} {ts ts' : Tokens} {d lo hi i j : Nat} {k : Token.Kind}
  {ks : List Token.Kind}

theorem widen {walls' : List Token.Kind} (h : ts.Recurs walls ts' d lo hi) (hw : walls ⊆ walls') :
    ts.Recurs walls' ts' d lo hi :=
  ⟨h.le_size, h.token, fun k hk => hw (h.wall k hk), fun k hk => hw (h.wall' k hk)⟩

theorem tail {lo' : Nat} (h : ts.Recurs walls ts' d lo hi) (hlo : lo ≤ lo') :
    ts.Recurs walls ts' d lo' hi :=
  ⟨h.le_size, fun i hi => h.token i (Nat.le_trans hlo hi), h.wall, h.wall'⟩

/-! ## Tests at one token -/

theorem kind?_eq (h : ts.Recurs walls ts' d lo hi) (hlo : lo ≤ i) (hhi : i < hi) :
    ts'.kind? (d + i) = ts.kind? i := by
  have ht := congrArg (Option.map Token.kind) (h.token i hlo hhi)
  rw [Option.map_map, Option.map_map] at ht
  exact ht

theorem text_eq (h : ts.Recurs walls ts' d lo hi) (hlo : lo ≤ i) (hhi : i < hi) :
    ts'.text (d + i) = ts.text i := by
  have ht := congrArg (Option.map Token.text) (h.token i hlo hhi)
  rw [Option.map_map, Option.map_map] at ht
  exact congrArg (Option.getD · "") ht

theorem lt_size (h : ts.Recurs walls ts' d lo hi) (hlo : lo ≤ i) (hhi : i < hi) :
    d + i < ts'.size := by
  have hi := h.le_size
  have hk := h.kind?_eq hlo hhi
  rw [kind?, kind?, Array.getElem?_eq_getElem (show i < ts.size by omega)] at hk
  obtain ⟨t, ht, _⟩ := Option.map_eq_some_iff.1 hk
  exact lt_of_getElem? ht

theorem position_eq (h : ts.Recurs walls ts' d lo hi) (hlo : lo ≤ i) (hhi : i < hi) :
    ts'.position (d + i) = ts.position i := by
  have hi := h.le_size
  have hlt := h.lt_size hlo hhi
  have ht := congrArg (Option.map Token.start) (h.token i hlo hhi)
  rw [Option.map_map, Option.map_map, Array.getElem?_eq_getElem hlt,
    Array.getElem?_eq_getElem (show i < ts.size by omega)] at ht
  rw [position, position, Array.getElem?_eq_getElem hlt,
    Array.getElem?_eq_getElem (show i < ts.size by omega)]
  exact Option.some.inj ht

/-- A test that no wall passes gives the same in both streams, also at the wall. -/
theorem is_eq (h : ts.Recurs walls ts' d lo hi) (hk : k ∉ walls) (hlo : lo ≤ i) (hhi : i ≤ hi) :
    ts'.is (d + i) k = ts.is i k := by
  rcases Nat.eq_or_lt_of_le hhi with rfl | hlt
  · have hno : ts.is i k = false := Bool.eq_false_iff.2 fun hi => hk (h.wall k (is_iff.1 hi))
    have hno' : ts'.is (d + i) k = false :=
      Bool.eq_false_iff.2 fun hi => hk (h.wall' k (is_iff.1 hi))
    rw [hno, hno']
  · rw [is, is, h.kind?_eq hlo hlt]

theorem isAny_eq (h : ts.Recurs walls ts' d lo hi) (hks : ∀ k ∈ ks, k ∉ walls) (hlo : lo ≤ i)
    (hhi : i ≤ hi) : ts'.isAny (d + i) ks = ts.isAny i ks := by
  rw [Bool.eq_iff_iff, isAny_iff, isAny_iff]
  refine exists_congr fun k => and_congr_right fun hk => ?_
  rw [← is_iff, ← is_iff, h.is_eq (hks k hk) hlo hhi]

theorem lt_of_is (h : ts.Recurs walls ts' d lo hi) (hk : k ∉ walls) (hhi : i ≤ hi)
    (his : ts.is i k = true) : i < hi := by
  rcases Nat.eq_or_lt_of_le hhi with rfl | hlt
  · exact absurd (h.wall k (is_iff.1 his)) hk
  · exact hlt

theorem lt_of_isAny (h : ts.Recurs walls ts' d lo hi) (hks : ∀ k ∈ ks, k ∉ walls) (hhi : i ≤ hi)
    (hany : ts.isAny i ks = true) : i < hi := by
  obtain ⟨k, hk, he⟩ := isAny_iff.1 hany
  exact h.lt_of_is (hks k hk) hhi (is_iff.2 he)

/-! ## Runs and texts -/

theorem spanEnd_eq (h : ts.Recurs walls ts' d lo hi) (ks : List Token.Kind)
    (hks : ∀ k ∈ ks, k ∉ walls) (hlo : lo ≤ i) (hhi : i ≤ hi) :
    ts'.spanEnd ks (d + i) = d + ts.spanEnd ks i ∧ ts.spanEnd ks i ≤ hi := by
  have hle := le_spanEnd ts ks i
  have hend : ts.spanEnd ks i ≤ hi := by
    refine Nat.le_of_not_lt fun hlt => ?_
    exact Nat.lt_irrefl hi (h.lt_of_isAny hks (Nat.le_refl hi) (isAny_of_lt_spanEnd hhi hlt))
  refine ⟨Tokens.spanEnd_eq (by omega) (fun m hm hm' => ?_) ?_, hend⟩
  · obtain ⟨n, rfl⟩ := Nat.exists_eq_add_of_le (show d ≤ m by omega)
    rw [h.isAny_eq hks (by omega) (by omega)]
    exact isAny_of_lt_spanEnd (j := i) (by omega) (by omega)
  · rw [h.isAny_eq hks (by omega) hend]
    exact not_isAny_spanEnd

theorem join_eq (h : ts.Recurs walls ts' d lo hi) (hlo : lo ≤ i) (hij : i ≤ j) (hhi : j ≤ hi) :
    ts'.join (d + i) (d + j) = ts.join i j := by
  obtain ⟨n, rfl⟩ := Nat.exists_eq_add_of_le hij
  clear hij
  induction n with
  | zero => rw [Nat.add_zero, join_self, join_self]
  | succ n ih =>
    have hsplit : ts.join i (i + n + 1) = ts.join i (i + n) ++ ts.text (i + n) := by
      rw [← join_append (Nat.le_add_right i n) (Nat.le_succ (i + n)), join_succ]
    have hsplit' : ts'.join (d + i) (d + (i + n) + 1) =
        ts'.join (d + i) (d + (i + n)) ++ ts'.text (d + (i + n)) := by
      rw [← join_append (show d + i ≤ d + (i + n) by omega) (Nat.le_succ _), join_succ]
    change ts'.join (d + i) (d + (i + n) + 1) = ts.join i (i + n + 1)
    rw [hsplit, hsplit', ih (by omega), h.text_eq (by omega) (by omega)]

/-- A shorter stretch, up to a token that is a wall itself. -/
theorem upTo {walls' : List Token.Kind} {lo' hi' : Nat} (h : ts.Recurs walls ts' d lo hi)
    (hlo : lo ≤ lo') (hle : lo' ≤ hi') (hhi : hi' < hi) (hk : ts.is hi' k = true)
    (hw : k ∈ walls') : ts.Recurs walls' ts' d lo' hi' := by
  have hsize := h.le_size
  have hkind := is_iff.1 hk
  refine ⟨by omega, fun i hi hi' => h.token i (by omega) (by omega), fun l hl => ?_, fun l hl => ?_⟩
  · rw [hkind] at hl
    cases hl
    exact hw
  · rw [h.kind?_eq (by omega) hhi, hkind] at hl
    cases hl
    exact hw

end Tokens.Recurs

/-! ## Answers that agree -/

/-- Without refusals a rule is answered by its body, also past the end of the stream. -/
theorem Reading.tell_eq_body {ts : Tokens} (A : Reading ts false) {r : Rule} {s : Scope} {i : Nat}
    (h : (r.body ts i).Matches ts s i) : A.tell r i = A.value (r.body ts i) := by
  rcases Nat.lt_or_ge i ts.size with hi | hi
  · obtain ⟨inner, hinner, he⟩ := A.explains r i hi
    rw [he, hinner.resolve_right fun h => Bool.false_ne_true h.1]
    rfl
  · have hfits : ∀ m, (r.body ts i).result A.tell A.tell = some m → ts.Fits i m.length :=
      h.result (fun r j _ => A.fits r j) fun r j _ => A.fits r j
    rw [A.past_end r i hi]
    change none = (r.body ts i).result A.tell A.tell
    cases hv : (r.body ts i).result A.tell A.tell with
    | none => rfl
    | some m =>
      have hpos := m.length_pos
      have hm := hfits m hv
      omega

section
variable {ts ts' : Tokens} (A : Reading ts false) (B : Reading ts' false)

/-- The rule says the same about token `i` of the one stream and about the token `d` tokens further
on in the other, and covers nothing from token `hi` on. -/
structure Reading.Agrees (d hi : Nat) (r : Rule) (i : Nat) : Prop where
  tell : B.tell r (d + i) = A.tell r i
  le : i + A.len r i ≤ hi

end

namespace Reading

variable {ts ts' : Tokens} {A : Reading ts false} {B : Reading ts' false} {d lo hi i : Nat}
  {r : Rule}

theorem Agrees.len (h : A.Agrees B d hi r i) : B.len r (d + i) = A.len r i := by
  rw [Reading.len, h.tell, Reading.len]

/-- Rules agree if their bodies do. -/
theorem agrees_of_body {s s' : Scope} (hm : (r.body ts i).Matches ts s i)
    (hm' : (r.body ts' (d + i)).Matches ts' s' (d + i))
    (hv : B.value (r.body ts' (d + i)) = A.value (r.body ts i)) (hle : i + A.len r i ≤ hi) :
    A.Agrees B d hi r i := by
  refine ⟨?_, hle⟩
  rw [A.tell_eq_body hm, B.tell_eq_body hm', hv]

theorem len_eq_of_sole {q : Lookahead Nat} {s : Scope} {u : r.Shape} (hm : q.Measures ts s i)
    (hb : r.body ts i = q >>= fun n => pure (Match.of? n u)) : A.len r i = A.value q := by
  have hbody : (r.body ts i).Matches ts s i := by
    rw [hb]
    exact Stays.bind hm fun _ hn => stays_pure fun _ hx => of?_fits hn hx
  rw [Reading.len, A.tell_eq_body hbody, hb, A.value_bind, A.value_pure]
  exact length_of? _ _

/-- Rules with one form agree if they measure the same. -/
theorem agrees_of_sole {q q' : Lookahead Nat} {s s' : Scope} {u : r.Shape}
    (hm : q.Measures ts s i) (hm' : q'.Measures ts' s' (d + i))
    (hb : r.body ts i = q >>= fun n => pure (Match.of? n u))
    (hb' : r.body ts' (d + i) = q' >>= fun n => pure (Match.of? n u))
    (hv : B.value q' = A.value q) (hle : i + A.value q ≤ hi) : A.Agrees B d hi r i := by
  have hbody : (r.body ts i).Matches ts s i := by
    rw [hb]
    exact Stays.bind hm fun _ hn => stays_pure fun _ hx => of?_fits hn hx
  have hbody' : (r.body ts' (d + i)).Matches ts' s' (d + i) := by
    rw [hb']
    exact Stays.bind hm' fun _ hn => stays_pure fun _ hx => of?_fits hn hx
  refine agrees_of_body hbody hbody' ?_ ?_
  · rw [hb, hb', A.value_bind, B.value_bind, hv]
    rfl
  · rw [len_eq_of_sole hm hb]
    exact hle

/-- A repetition agrees if its rounds do. -/
theorem walk_agrees {walls : List Token.Kind} {step step' : Nat → Lookahead Step} {j : Nat}
    (h : ts.Recurs walls ts' d lo hi)
    (hs : ∀ j, lo ≤ j → j ≤ hi → B.value (step' (d + j)) = A.value (step j) ∧
      j + (A.value (step j)).length ≤ hi) (hlo : lo ≤ j) (hhi : j ≤ hi) :
    B.value (walk ts'.size step' (d + j)) = d + A.value (walk ts.size step j) ∧
      A.value (walk ts.size step j) ≤ hi := by
  generalize hn : hi - j = n
  induction n using Nat.strongRecOn generalizing j with
  | ind n ih =>
    obtain ⟨hv, hle⟩ := hs j hlo hhi
    rw [A.value_walk, B.value_walk, hv]
    rcases Nat.eq_or_lt_of_le hhi with rfl | hlt
    · -- at the wall no round covers anything
      have hz : (A.value (step j)).length = 0 := by omega
      simp [hz]
    · have hsize := h.le_size
      rw [if_pos (h.lt_size hlo hlt), if_pos (show j < ts.size by omega)]
      split
      · rw [Nat.add_assoc]
        exact ih _ (by omega) (by omega) hle rfl
      · exact ⟨Nat.add_assoc _ _ _, hle⟩

theorem walkWhile_agrees {walls : List Token.Kind} {s t : Nat → Lookahead Nat} {j : Nat}
    (h : ts.Recurs walls ts' d lo hi)
    (hs : ∀ j, lo ≤ j → j ≤ hi → B.value (t (d + j)) = A.value (s j) ∧
      j + A.value (s j) ≤ hi) (hlo : lo ≤ j) (hhi : j ≤ hi) :
    B.value (walkWhile ts'.size t (d + j)) = d + A.value (walkWhile ts.size s j) ∧
      A.value (walkWhile ts.size s j) ≤ hi := by
  refine walk_agrees h (fun j hlo hhi => ?_) hlo hhi
  rw [A.value_map, B.value_map, (hs j hlo hhi).1]
  exact ⟨rfl, (hs j hlo hhi).2⟩

end Reading

/-! ## Names, numbers and spacing -/

section
variable {ts ts' : Tokens} {A : Reading ts false} {B : Reading ts' false} {d lo hi i j : Nat}

/-- What a round of a name does, also past the end of the stream. -/
theorem identEnd_cases (A : Reading ts false) (named : Bool) (j : Nat) :
    (∃ k ∈ Ident.plain, ts.is (j + A.len .interpolation j) k = true ∧
      (k = .digits → named = true) ∧ A.value (identEnd ts named j) =
        A.value (identEnd ts (k == .identifier || named) (j + A.len .interpolation j + 1))) ∨
    (∀ k ∈ Ident.plain, ts.is (j + A.len .interpolation j) k = true →
      k = .digits ∧ named = false) ∧
      A.value (identEnd ts named j) = (named, j + A.len .interpolation j) := by
  rcases Nat.lt_or_ge j ts.size with hj | hj
  · rcases Ident.identRest_cases A.tell named hj rfl with ⟨k, hk, hmem, hd, he⟩ | ⟨hno, he⟩
    · exact Or.inl ⟨k, hmem, is_iff.2 hk, hd, he⟩
    · exact Or.inr ⟨fun k hk hi => hno k (is_iff.1 hi) hk, he⟩
  · have hz : A.len .interpolation j = 0 := by rw [Reading.len, A.past_end _ _ hj]; rfl
    refine Or.inr ⟨fun k _ hi => ?_, ?_⟩
    · have := lt_of_is hi
      omega
    · rw [hz]
      exact Ident.identRest_past_end hj

theorem identEnd_agrees (h : ts.Recurs nameWalls ts' d lo hi) (named : Bool)
    (hin : ∀ l, j ≤ l → l ≤ hi → A.Agrees B d hi .interpolation l) (hlo : lo ≤ j) (hhi : j ≤ hi) :
    (B.value (identEnd ts' named (d + j))).1 = (A.value (identEnd ts named j)).1 ∧
      (B.value (identEnd ts' named (d + j))).2 = d + (A.value (identEnd ts named j)).2 ∧
      (A.value (identEnd ts named j)).2 ≤ hi := by
  have hwall : ∀ k ∈ Ident.plain, k ∉ nameWalls := by decide
  generalize hn : hi - j = n
  induction n using Nat.strongRecOn generalizing j named with
  | ind n ih =>
    have hpart := hin j (Nat.le_refl j) hhi
    have hle := hpart.le
    have his : ∀ k ∈ Ident.plain, ts'.is (d + j + B.len .interpolation (d + j)) k =
        ts.is (j + A.len .interpolation j) k := by
      intro k hk
      rw [hpart.len, Nat.add_assoc, h.is_eq (hwall k hk) (by omega) hle]
    rcases identEnd_cases A named j with ⟨k, hk, hi, hd, he⟩ | ⟨hno, he⟩
    · have hlt := h.lt_of_is (hwall k hk) hle hi
      have hrest := ih _ (by omega) (k == .identifier || named) (j := j + A.len .interpolation j + 1)
        (fun l hl hl' => hin l (by omega) hl') (by omega) (by omega) rfl
      rcases identEnd_cases B named (d + j) with ⟨k', hk', hi', _, he'⟩ | ⟨hno', _⟩
      · rw [his k' hk', is_iff, is_iff.1 hi] at hi'
        cases hi'
        rw [he, he', hpart.len, show d + j + A.len .interpolation j + 1 =
          d + (j + A.len .interpolation j + 1) by omega]
        exact hrest
      · obtain ⟨hk', hn'⟩ := hno' k hk ((his k hk).trans hi)
        rw [hd hk'] at hn'
        cases hn'
    · rcases identEnd_cases B named (d + j) with ⟨k, hk, hi, hd, _⟩ | ⟨_, he'⟩
      · obtain ⟨hk', hn'⟩ := hno k hk ((his k hk).symm.trans hi)
        rw [hd hk'] at hn'
        cases hn'
      · rw [he, he', hpart.len]
        exact ⟨rfl, Nat.add_assoc _ _ _, hle⟩

theorem value_identLength_eq_zero (h : ts.isAny i nameHeads = false) :
    A.value (identLength ts i) = 0 := by
  rw [Bool.eq_false_iff] at h
  unfold identLength
  split
  · next hk => exact absurd (isAny_iff.2 ⟨_, by decide, hk⟩) h
  · next k _ hk =>
    rw [if_neg fun hm => h (isAny_iff.2 ⟨k, List.mem_cons_of_mem _ hm, hk⟩)]
    rfl
  · rfl

theorem identLength_agrees (h : ts.Recurs nameWalls ts' d lo hi)
    (hin : ∀ l, i < l → l ≤ hi → A.Agrees B d hi .interpolation l) (hlo : lo ≤ i) (hhi : i ≤ hi) :
    B.value (identLength ts' (d + i)) = A.value (identLength ts i) ∧
      i + A.value (identLength ts i) ≤ hi := by
  rcases Nat.eq_or_lt_of_le hhi with rfl | hlt
  · have hheads : ∀ k ∈ nameHeads, k ∉ nameWalls := by decide
    have hno : ts.isAny i nameHeads = false := Bool.eq_false_iff.2 fun hany =>
      Nat.lt_irrefl i (h.lt_of_isAny hheads (Nat.le_refl i) hany)
    have hno' : ts'.isAny (d + i) nameHeads = false := by
      rw [h.isAny_eq hheads hlo (Nat.le_refl i), hno]
    rw [value_identLength_eq_zero hno, value_identLength_eq_zero hno']
    exact ⟨rfl, Nat.le_refl i⟩
  · unfold identLength
    rw [h.kind?_eq hlo hlt]
    split
    · obtain ⟨he, hle⟩ := h.spanEnd_eq [.minus, .digits, .underscore, .identifier]
        (by decide) (show lo ≤ i + 1 by omega) hlt
      have hge := le_spanEnd ts [.minus, .digits, .underscore, .identifier] (i + 1)
      rw [A.value_tokensBetween, B.value_tokensBetween, Nat.add_assoc, he]
      omega
    · next k _ hk =>
      split
      · obtain ⟨hnamed, hend, hle⟩ := identEnd_agrees h (k == .identifier) (j := i + 1)
          (fun l hl hl' => hin l hl hl') (by omega) hlt
        rw [A.value_bind, B.value_bind, Nat.add_assoc]
        generalize A.value (identEnd ts (k == .identifier) (i + 1)) = x at hnamed hend hle
        generalize B.value (identEnd ts' (k == .identifier) (d + (i + 1))) = x' at hnamed hend
        obtain ⟨named, stop⟩ := x
        obtain ⟨named', stop'⟩ := x'
        obtain rfl : named' = named := hnamed
        obtain rfl : stop' = d + stop := hend
        dsimp only at hle ⊢
        split
        · rw [A.value_tokensBetween, B.value_tokensBetween]
          omega
        · exact ⟨rfl, hhi⟩
      · exact ⟨rfl, hhi⟩
    · exact ⟨rfl, hhi⟩

theorem interpolationLength_agrees (h : ts.Recurs nameWalls ts' d lo hi)
    (hin : ∀ l, i < l → l ≤ hi → A.Agrees B d hi .ident l) (hlo : lo ≤ i) (hhi : i ≤ hi) :
    B.value (interpolationLength ts' (d + i)) = A.value (interpolationLength ts i) ∧
      i + A.value (interpolationLength ts i) ≤ hi := by
  unfold interpolationLength
  cases hat : ts.is i .atSign with
  | false =>
    rw [h.is_eq (by decide) hlo hhi, hat]
    exact ⟨rfl, hhi⟩
  | true =>
    have hlt := h.lt_of_is (by decide) hhi hat
    rw [h.is_eq (by decide) hlo hhi, hat, Nat.add_assoc, h.is_eq (by decide) (by omega) hlt]
    cases hcurly : ts.is (i + 1) .leftCurly with
    | false => exact ⟨rfl, hhi⟩
    | true =>
      have hlt' := h.lt_of_is (by decide) hlt hcurly
      have hname := hin (i + 2) (by omega) (by omega)
      have hle := hname.le
      rw [if_pos (by rfl), if_pos (by rfl), A.value_bind, B.value_bind, A.value_lengthOf,
        B.value_lengthOf, Nat.add_assoc, hname.len, A.value_pure, B.value_pure, Nat.add_assoc,
        h.is_eq (by decide) (by omega) hle]
      cases hclose : ts.is (i + 2 + A.len .ident (i + 2)) .rightCurly with
      | false => simpa using hhi
      | true =>
        have hlast := h.lt_of_is (by decide) hle hclose
        refine ⟨rfl, ?_⟩
        split <;> omega

/-- Names stop at the walls. -/
theorem ident_and_interpolation_agree (h : ts.Recurs nameWalls ts' d lo hi) (hlo : lo ≤ i)
    (hhi : i ≤ hi) : A.Agrees B d hi .ident i ∧ A.Agrees B d hi .interpolation i := by
  generalize hn : hi - i = n
  induction n using Nat.strongRecOn generalizing i with
  | ind n ih =>
    have hin : ∀ l, i < l → l ≤ hi →
        A.Agrees B d hi .ident l ∧ A.Agrees B d hi .interpolation l :=
      fun l hl hl' => ih _ (by omega) (by omega) hl' rfl
    obtain ⟨hname, hname'⟩ := identLength_agrees h (fun l hl hl' => (hin l hl hl').2) hlo hhi
    obtain ⟨hpart, hpart'⟩ := interpolationLength_agrees h (fun l hl hl' => (hin l hl hl').1) hlo hhi
    exact ⟨Reading.agrees_of_sole (r := .ident) (u := ()) (identLength_measures (s := .top)
        (Nat.zero_le i)) (identLength_measures (s := .top) (Nat.zero_le _)) rfl rfl hname hname',
      Reading.agrees_of_sole (r := .interpolation) (u := ()) (interpolationLength_measures
        (s := .top) (Nat.zero_le i)) (interpolationLength_measures (s := .top) (Nat.zero_le _))
        rfl rfl hpart hpart'⟩

theorem Tokens.Recurs.ident (h : ts.Recurs softWalls ts' d lo hi) (hlo : lo ≤ i) (hhi : i ≤ hi) :
    A.Agrees B d hi .ident i := (ident_and_interpolation_agree (h.widen (by decide)) hlo hhi).1

theorem Tokens.Recurs.interpolation (h : ts.Recurs softWalls ts' d lo hi) (hlo : lo ≤ i)
    (hhi : i ≤ hi) : A.Agrees B d hi .interpolation i :=
  (ident_and_interpolation_agree (h.widen (by decide)) hlo hhi).2

theorem Tokens.Recurs.number (h : ts.Recurs softWalls ts' d lo hi) (hlo : lo ≤ i) (hhi : i ≤ hi) :
    A.Agrees B d hi .number i := by
  have hv : B.value (numberLength ts' (d + i)) = A.value (numberLength ts i) ∧
      i + A.value (numberLength ts i) ≤ hi := by
    unfold numberLength
    rw [A.value_pure, B.value_pure, h.is_eq (by decide) hlo hhi, h.is_eq (by decide) hlo hhi]
    cases hdigits : ts.is i .digits with
    | true =>
      have hlt := h.lt_of_is (by decide) hhi hdigits
      rw [Nat.add_assoc, h.is_eq (by decide) (by omega) hlt]
      cases hdot : ts.is (i + 1) .dot with
      | false => exact ⟨rfl, hlt⟩
      | true =>
        have hlt' := h.lt_of_is (by decide) hlt hdot
        rw [Nat.add_assoc, h.is_eq (by decide) (by omega) hlt']
        cases hmore : ts.is (i + 2) .digits with
        | false => exact ⟨rfl, hlt'⟩
        | true => exact ⟨rfl, h.lt_of_is (by decide) hlt' hmore⟩
    | false =>
      cases hdot : ts.is i .dot with
      | false => exact ⟨rfl, hhi⟩
      | true =>
        have hlt := h.lt_of_is (by decide) hhi hdot
        rw [Nat.add_assoc, h.is_eq (k := .digits) (by decide) (show lo ≤ i + 1 by omega) hlt]
        cases hmore : ts.is (i + 1) .digits with
        | false => exact ⟨rfl, hhi⟩
        | true => exact ⟨rfl, h.lt_of_is (by decide) hlt hmore⟩
  exact Reading.agrees_of_sole (r := .number) (u := ()) (numberLength_measures (s := .top))
    (numberLength_measures (s := .top)) rfl rfl hv.1 hv.2

theorem nameMatch_agrees (h : ts.Recurs softWalls ts' d lo hi) (hlo : lo ≤ i) (hhi : i ≤ hi) :
    B.value (nameMatch (d + i)) = A.value (nameMatch i) ∧
      ∀ m, A.value (nameMatch i) = some m → i + m.length ≤ hi := by
  have hname := h.ident (A := A) (B := B) hlo hhi
  have hpart := h.interpolation (A := A) (B := B) hlo hhi
  refine ⟨?_, fun m hm => ?_⟩
  · rw [nameMatch, nameMatch, A.value_firstOf_cons, B.value_firstOf_cons, A.value_firstOf_cons,
      B.value_firstOf_cons, A.value_lengthOf, B.value_lengthOf, A.value_lengthOf,
      B.value_lengthOf, hname.len, hpart.len]
    rfl
  · rcases name_cases hm with ⟨_, hl⟩ | ⟨_, hl, _⟩
    · exact hl ▸ hpart.le
    · exact hl ▸ hname.le

theorem markedNameMatch_agrees (h : ts.Recurs softWalls ts' d lo hi) {mark : Token.Kind}
    (hmark : mark ∉ softWalls) (hlo : lo ≤ i) (hhi : i ≤ hi) :
    B.value (markedNameMatch ts' mark (d + i)) = A.value (markedNameMatch ts mark i) ∧
      ∀ m, A.value (markedNameMatch ts mark i) = some m → i + m.length ≤ hi := by
  unfold markedNameMatch
  rw [h.is_eq hmark hlo hhi]
  cases hm : ts.is i mark with
  | false =>
    refine ⟨rfl, fun m hm => ?_⟩
    cases hm
  | true =>
    have hlt := h.lt_of_is hmark hhi hm
    obtain ⟨hv, hle⟩ := nameMatch_agrees (A := A) (B := B) h (show lo ≤ i + 1 by omega) hlt
    rw [if_pos rfl, if_pos rfl, A.value_bind, B.value_bind, Nat.add_assoc, hv]
    refine ⟨rfl, fun m hm => ?_⟩
    obtain ⟨n, hn, rfl⟩ := Option.map_eq_some_iff.1 hm
    have hend := hle n hn
    change i + (n.length + 1) ≤ hi
    omega

/-- A rule whose body finds the same in both streams. -/
theorem Reading.agrees_of_match {r : Rule} {s s' : Scope} (hm : (r.body ts i).Matches ts s i)
    (hm' : (r.body ts' (d + i)).Matches ts' s' (d + i))
    (hv : B.value (r.body ts' (d + i)) = A.value (r.body ts i) ∧
      ∀ m, A.value (r.body ts i) = some m → i + m.length ≤ hi) (hhi : i ≤ hi) :
    A.Agrees B d hi r i := by
  refine agrees_of_body hm hm' hv.1 ?_
  rw [Reading.len, A.tell_eq_body hm]
  cases hb : A.value (r.body ts i) with
  | none => exact hhi
  | some m => exact hv.2 m hb

theorem Tokens.Recurs.classSelector (h : ts.Recurs softWalls ts' d lo hi) (hlo : lo ≤ i)
    (hhi : i ≤ hi) : A.Agrees B d hi .classSelector i :=
  Reading.agrees_of_match (r := .classSelector)
    (markedNameMatch_matches (s := .top) (Nat.zero_le i) .dot)
    (markedNameMatch_matches (s := .top) (Nat.zero_le _) .dot)
    (markedNameMatch_agrees h (by decide) hlo hhi) hhi

theorem Tokens.Recurs.idSelector (h : ts.Recurs softWalls ts' d lo hi) (hlo : lo ≤ i)
    (hhi : i ≤ hi) : A.Agrees B d hi .idSelector i :=
  Reading.agrees_of_match (r := .idSelector)
    (markedNameMatch_matches (s := .top) (Nat.zero_le i) .hash)
    (markedNameMatch_matches (s := .top) (Nat.zero_le _) .hash)
    (markedNameMatch_agrees h (by decide) hlo hhi) hhi

/-- Spacing stops at a snug wall. -/
theorem Tokens.Recurs.spacing (h : ts.Recurs snugWalls ts' d lo hi) (wm : ts.WellMarked)
    (wm' : ts'.WellMarked) (hlo : lo ≤ i) (hhi : i ≤ hi) : A.Agrees B d hi .spacing i := by
  obtain ⟨he, hle⟩ := h.spanEnd_eq spacingKinds (by decide) hlo hhi
  rw [← len_spacing wm A i, ← len_spacing wm' B (d + i)] at he
  rw [← len_spacing wm A i] at hle
  have hv : B.value (spacingLength ts' (d + i)) = A.value (spacingLength ts i) := by
    rw [← Reading.len_eq_of_sole (r := .spacing) (u := ()) (spacingLength_measures (s := .top) wm')
        rfl,
      ← Reading.len_eq_of_sole (r := .spacing) (u := ()) (spacingLength_measures (s := .top) wm)
        rfl]
    omega
  refine Reading.agrees_of_sole (r := .spacing) (u := ()) (spacingLength_measures (s := .top) wm)
    (spacingLength_measures (s := .top) wm') rfl rfl hv ?_
  rw [← Reading.len_eq_of_sole (r := .spacing) (u := ()) (spacingLength_measures (s := .top) wm)
    rfl]
  exact hle

/-- The token behind the name of a namespace and the comment behind it. -/
def namespaceEnd (A : Reading ts false) (i : Nat) : Nat :=
  i + A.value (nameOrStar ts i) + (ts.is (i + A.value (nameOrStar ts i)) .blockComment).toNat

theorem nameOrStar_agrees (h : ts.Recurs softWalls ts' d lo hi) (hlo : lo ≤ i) (hhi : i ≤ hi) :
    B.value (nameOrStar ts' (d + i)) = A.value (nameOrStar ts i) ∧
      i + A.value (nameOrStar ts i) ≤ hi := by
  have hname := h.ident (A := A) (B := B) hlo hhi
  rw [nameOrStar, nameOrStar, A.value_orElse, B.value_orElse, A.value_lengthOf, B.value_lengthOf,
    hname.len, value_tokenLength, value_tokenLength, h.isAny_eq (by decide) hlo hhi]
  refine ⟨rfl, ?_⟩
  split
  · cases hstar : ts.isAny i [.asterisk] with
    | false => exact hhi
    | true => exact h.lt_of_isAny (by decide) hhi hstar
  · exact hname.le

theorem namespaceEnd_agrees (h : ts.Recurs softWalls ts' d lo hi) (hlo : lo ≤ i) (hhi : i ≤ hi) :
    namespaceEnd B (d + i) = d + namespaceEnd A i ∧ namespaceEnd A i ≤ hi := by
  obtain ⟨hname, hle⟩ := nameOrStar_agrees (A := A) (B := B) h hlo hhi
  rw [namespaceEnd, namespaceEnd, hname, Nat.add_assoc d, h.is_eq (by decide) (by omega) hle]
  refine ⟨Nat.add_assoc _ _ _, ?_⟩
  cases hc : ts.is (i + A.value (nameOrStar ts i)) .blockComment with
  | false => exact hle
  | true => exact h.lt_of_is (by decide) hle hc

/-- A namespace is the same in both streams if the tests for its bar are. -/
theorem namespaceMatch_agrees (h : ts.Recurs softWalls ts' d lo hi) (hlo : lo ≤ i) (hhi : i ≤ hi)
    (hbar : ∀ j, j ≤ hi → ts.is j .bar = true → j < hi)
    (hfirst : ts'.is (d + i) .bar = ts.is i .bar)
    (hlast : ts'.is (d + namespaceEnd A i) .bar = ts.is (namespaceEnd A i) .bar) :
    B.value (namespaceMatch ts' (d + i)) = A.value (namespaceMatch ts i) ∧
      ∀ m, A.value (namespaceMatch ts i) = some m → i + m.length ≤ hi := by
  obtain ⟨hname, _⟩ := nameOrStar_agrees (A := A) (B := B) h hlo hhi
  obtain ⟨hend, hle⟩ := namespaceEnd_agrees (A := A) (B := B) h hlo hhi
  constructor
  · unfold namespaceMatch
    rw [A.value_bind, B.value_bind]
    change B.value (if (decide (0 < B.value (nameOrStar ts' (d + i))) &&
        ts'.is (namespaceEnd B (d + i)) .bar) = true then _ else _) =
      A.value (if (decide (0 < A.value (nameOrStar ts i)) && ts.is (namespaceEnd A i) .bar) = true
        then _ else _)
    rw [hname, hend, hlast, hfirst]
    split
    · change Match.of? (namespaceEnd B (d + i) + 1 - (d + i)) _ =
        Match.of? (namespaceEnd A i + 1 - i) _
      rw [hend, show d + namespaceEnd A i + 1 - (d + i) = namespaceEnd A i + 1 - i by omega]
    · split <;> rfl
  · intro m hm
    rcases namespace_cases hm with ⟨_, _, hb, hl⟩ | ⟨_, hb, hl⟩
    · have hlt := hbar (namespaceEnd A i) hle hb
      rw [hl]
      exact hlt
    · rw [hl]
      exact hbar i hhi hb

/-- Namespaces stop at a snug wall. -/
theorem Tokens.Recurs.namespacePart (h : ts.Recurs snugWalls ts' d lo hi) (hlo : lo ≤ i)
    (hhi : i ≤ hi) : A.Agrees B d hi .namespacePart i := by
  have hs : ts.Recurs softWalls ts' d lo hi := h.widen (by decide)
  have hend := (namespaceEnd_agrees (A := A) (B := B) hs hlo hhi).2
  have hge : i ≤ namespaceEnd A i := by unfold namespaceEnd; omega
  refine Reading.agrees_of_match (r := .namespacePart)
    (namespaceMatch_matches (s := .top) (Scope.top_open (by decide) i))
    (namespaceMatch_matches (s := .top) (Scope.top_open (by decide) _)) ?_ hhi
  exact namespaceMatch_agrees hs hlo hhi (fun j hj => h.lt_of_is (by decide) hj)
    (h.is_eq (by decide) hlo hhi) (h.is_eq (by decide) (by omega) hend)

end

end LessCss
