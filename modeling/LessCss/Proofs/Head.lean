import LessCss.Proofs.Paths.Rules
import LessCss.Proofs.Recurrence.Walls

/-! Streams that others begin with. Where a stream ends, another one may go on, so what is covered
there may end earlier than in the longer stream, or not be found at all. What ends no later than the
shorter stream does is found there as well. -/

namespace LessCss

open Lookahead Grammar Tokens

/-- What is sought before some more kinds is sought without them, if it stands before them. -/
theorem Bracket.seek_of_append {b : Bracket} {depth n : Nat} {ks ls : List Token.Kind}
    (h : b.seek depth (ks ++ ls) = some n) (hn : n < ks.length) : b.seek depth ks = some n := by
  induction ks generalizing depth n with
  | nil => cases hn
  | cons k ks ih =>
    rw [List.cons_append] at h
    rcases seek_cons_cases h with ⟨hc, rfl, rfl⟩ |
      ⟨_, m, rfl, hm, ⟨ho, rfl⟩ | ⟨_, ⟨hc, rfl⟩ | ⟨hc, rfl⟩⟩⟩
    · exact seek_closes_zero hc
    · rw [seek_opens ho, ih hm (Nat.lt_of_succ_lt_succ hn)]
      rfl
    · rw [seek_closes_succ hc, ih hm (Nat.lt_of_succ_lt_succ hn)]
      rfl
    · rw [seek_other ‹_› hc, ih hm (Nat.lt_of_succ_lt_succ hn)]
      rfl

/-- The stream is what another one begins with, but for links to what it leaves out. Where it stops,
the other one goes on. -/
structure Tokens.Head (ts ts' : Tokens) : Prop where
  left : ts.Regular
  right : ts'.Regular
  nests : ts.Nests
  token : ∀ i, i < ts.size → ts'[i]?.map Token.unlinked = ts[i]?.map Token.unlinked
  seam : ts'.position ts.size = ts.position ts.size

namespace Tokens.Head

variable {ts ts' : Tokens} {i j c : Nat} {k : Token.Kind} {ks : List Token.Kind}

/-! ## Tests at one token -/

section
variable (h : ts.Head ts')
include h

theorem kind?_eq (hi : i < ts.size) : ts'.kind? i = ts.kind? i := by
  have ht := congrArg (Option.map Token.kind) (h.token i hi)
  rw [Option.map_map, Option.map_map] at ht
  exact ht

theorem is_eq (hi : i < ts.size) (k : Token.Kind) : ts'.is i k = ts.is i k := by
  rw [is, is, h.kind?_eq hi]

theorem isAny_eq (hi : i < ts.size) (ks : List Token.Kind) : ts'.isAny i ks = ts.isAny i ks := by
  rw [isAny, isAny, h.kind?_eq hi]

/-- A test fails behind the shorter stream, and before that it is the test of the longer one. -/
theorem is_cut (i : Nat) (k : Token.Kind) :
    ts.is i k = (decide (i < ts.size) && ts'.is i k) := by
  rcases Nat.lt_or_ge i ts.size with hi | hi
  · rw [h.is_eq hi, decide_eq_true hi, Bool.true_and]
  · rw [decide_eq_false (Nat.not_lt.2 hi), Bool.false_and]
    exact Bool.eq_false_iff.2 fun his => Nat.not_lt.2 hi (lt_of_is his)

theorem isAny_cut (i : Nat) (ks : List Token.Kind) :
    ts.isAny i ks = (decide (i < ts.size) && ts'.isAny i ks) := by
  rcases Nat.lt_or_ge i ts.size with hi | hi
  · rw [h.isAny_eq hi, decide_eq_true hi, Bool.true_and]
  · rw [decide_eq_false (Nat.not_lt.2 hi), Bool.false_and]
    exact Bool.eq_false_iff.2 fun hany => Nat.not_lt.2 hi (lt_of_isAny hany)

theorem is_of_is (his : ts.is i k = true) : ts'.is i k = true := by
  rwa [h.is_eq (lt_of_is his)]

theorem isAny_of_isAny (hany : ts.isAny i ks = true) : ts'.isAny i ks = true := by
  rwa [h.isAny_eq (lt_of_isAny hany)]

theorem text_eq (hi : i < ts.size) : ts'.text i = ts.text i := by
  have ht := congrArg (Option.map Token.text) (h.token i hi)
  rw [Option.map_map, Option.map_map] at ht
  exact congrArg (Option.getD · "") ht

theorem text_cut (i : Nat) : ts.text i = if i < ts.size then ts'.text i else "" := by
  split
  · next hi => rw [h.text_eq hi]
  · next hi => rw [text, Array.getElem?_eq_none (Nat.le_of_not_lt hi)]; rfl

theorem lt_size (hi : i < ts.size) : i < ts'.size := by
  have hk := h.kind?_eq hi
  rw [kind?, kind?, Array.getElem?_eq_getElem hi] at hk
  obtain ⟨t, ht, _⟩ := Option.map_eq_some_iff.1 hk
  exact lt_of_getElem? ht

theorem le_size : ts.size ≤ ts'.size := Nat.le_of_not_lt fun hlt =>
  Nat.lt_irrefl _ (h.lt_size hlt)

theorem position_eq (hi : i ≤ ts.size) : ts'.position i = ts.position i := by
  rcases Nat.eq_or_lt_of_le hi with rfl | hi
  · exact h.seam
  have hi' := h.lt_size hi
  have ht := congrArg (Option.map Token.start) (h.token i hi)
  rw [Option.map_map, Option.map_map, Array.getElem?_eq_getElem hi',
    Array.getElem?_eq_getElem hi] at ht
  rw [position, position, Array.getElem?_eq_getElem hi', Array.getElem?_eq_getElem hi]
  exact Option.some.inj ht

/-! ## Runs, texts and brackets -/

/-- A run ends where it ends in the longer stream, or where the shorter one does. -/
theorem spanEnd_eq (ks : List Token.Kind) (hi : i ≤ ts.size) :
    ts.spanEnd ks i = min (ts'.spanEnd ks i) ts.size := by
  have hle := le_spanEnd ts ks i
  have hsize : ts.spanEnd ks i ≤ ts.size := spanEnd_le hi
  have hin : ∀ m, i ≤ m → m < ts.spanEnd ks i → ts'.isAny m ks = true := fun m hm hm' =>
    h.isAny_of_isAny (isAny_of_lt_spanEnd hm hm')
  have hrun := spanEnd_of_run hle hin
  rcases Nat.eq_or_lt_of_le hsize with he | hlt
  · have := le_spanEnd ts' ks (ts.spanEnd ks i)
    omega
  · have hstop : ts'.isAny (ts.spanEnd ks i) ks = false := by
      rw [h.isAny_eq hlt]
      exact not_isAny_spanEnd
    rw [hrun, spanEnd_eq_self hstop]
    omega

theorem join_eq (hij : i ≤ j) (hj : j ≤ ts.size) : ts'.join i j = ts.join i j := by
  obtain ⟨n, rfl⟩ := Nat.exists_eq_add_of_le hij
  clear hij
  induction n with
  | zero => rw [Nat.add_zero, join_self, join_self]
  | succ n ih =>
    have hnext : i + n ≤ i + n + 1 := Nat.le_succ _
    have hone : ∀ ts : Tokens, ts.join i (i + n + 1) = ts.join i (i + n) ++ ts.text (i + n) :=
      fun ts => by rw [← join_append (Nat.le_add_right i n) hnext, join_succ]
    rw [← Nat.add_assoc, hone ts, hone ts', ih (by omega), h.text_eq (by omega)]

/-- The kinds of the longer stream are those of the shorter one, and more. -/
theorem kinds_eq : ∃ back, ts'.toList.map Token.kind = ts.toList.map Token.kind ++ back := by
  refine ⟨(ts'.toList.map Token.kind).drop ts.size, ?_⟩
  have htake : (ts'.toList.map Token.kind).take ts.size = ts.toList.map Token.kind := by
    refine List.ext_getElem? fun i => ?_
    rw [List.getElem?_take, ← kind?_eq_getElem?, ← kind?_eq_getElem?]
    split
    · next hi => exact h.kind?_eq hi
    · next hi =>
      rw [kind?, Array.getElem?_eq_none (Nat.le_of_not_lt hi)]
      rfl
  rw [← htake, List.take_append_drop]

/-- A bracket is closed as in the longer stream, if its closer is not left out. -/
theorem closer?_iff (hk : k.opens?.isSome = true) :
    ts.closer? i k = some c ↔ ts'.closer? i k = some c ∧ c < ts.size := by
  obtain ⟨b, hb⟩ := Option.isSome_iff_exists.1 hk
  obtain ⟨back, hback⟩ := h.kinds_eq
  have hlength : (ts.toList.map Token.kind).length = ts.size := by
    rw [List.length_map, Array.length_toList]
  have hdrop : ts.is i k = true → (ts'.toList.map Token.kind).drop (i + 1) =
      (ts.toList.map Token.kind).drop (i + 1) ++ back := fun his => by
    rw [hback, List.drop_append_of_le_length (hlength ▸ lt_of_is his)]
  constructor
  · intro hc
    have his := is_of_closer? hc
    have hlt := (h.left.wm.closer_lt hc).2
    rw [h.left.linked i k b his hb] at hc
    obtain ⟨m, hm, rfl⟩ := Option.map_eq_some_iff.1 hc
    rw [h.right.linked i k b (h.is_of_is his) hb, hdrop his, Bracket.seek_append hm]
    exact ⟨rfl, hlt⟩
  · rintro ⟨hc, hlt⟩
    have his' := is_of_closer? hc
    have hic := (h.right.wm.closer_lt hc).1
    have his : ts.is i k = true := by rwa [← h.is_eq (by omega)]
    rw [h.right.linked i k b his' hb, hdrop his] at hc
    obtain ⟨m, hm, rfl⟩ := Option.map_eq_some_iff.1 hc
    rw [h.left.linked i k b his hb, Bracket.seek_of_append hm]
    · rfl
    · rw [List.length_drop, hlength]
      omega

theorem closer?_eq_none (hk : k.opens?.isSome = true) (hc : ts'.closer? i k = none) :
    ts.closer? i k = none := by
  rw [Option.eq_none_iff_forall_ne_some] at hc ⊢
  exact fun c he => hc c ((h.closer?_iff hk).1 he).1

/-- A bracket whose closer is left out is not closed. -/
theorem closer?_left_out (hc : ts'.closer? i k = some c) (hk : k.opens?.isSome = true)
    (hge : ts.size ≤ c) : ts.closer? i k = none := by
  refine Option.eq_none_iff_forall_ne_some.2 fun e he => ?_
  obtain ⟨he', hlt⟩ := (h.closer?_iff hk).1 he
  rw [hc] at he'
  cases he'
  omega

/-- What stands before a token of the shorter stream recurs in the longer one. -/
theorem recurs {walls : List Token.Kind} (lo : Nat) (hj : ts.is j k = true) (hk : k ∈ walls) :
    ts.Recurs walls ts' 0 lo j := by
  have hlt := lt_of_is hj
  refine ⟨Nat.le_of_lt hlt, fun i _ hi => ?_, fun l hl => ?_, fun l hl => ?_⟩
  · rw [Nat.zero_add]
    exact h.token i (Nat.lt_trans hi hlt)
  · rw [is_iff.1 hj] at hl
    cases hl
    exact hk
  · rw [Nat.zero_add, h.kind?_eq hlt, is_iff.1 hj] at hl
    cases hl
    exact hk

/-- Paths of the shorter stream are paths of the longer one. -/
theorem path (hp : ts.Path i j) : ts'.Path i j := by
  refine hp.flatten fun i j hop => ?_
  rcases hop with ⟨k, his, hk, rfl⟩ | ⟨k, c, hk, hc, rfl⟩
  · exact path_token (h.is_of_is his) hk
  · exact path_closer h.right.wm ((h.closer?_iff hk).1 hc).1 hk

end

end Tokens.Head

/-! ## Before a closer -/

/-- What an opener is linked to closes brackets. -/
theorem Tokens.Linked.closes_closer {ts : Tokens} {i c : Nat} {k : Token.Kind} (hl : ts.Linked)
    (hk : k.opens?.isSome = true) (hc : ts.closer? i k = some c) :
    ∃ l : Token.Kind, l.closes?.isSome = true ∧ ts.is c l = true := by
  obtain ⟨b, hb⟩ := Option.isSome_iff_exists.1 hk
  rw [hl i k b (is_of_closer? hc) hb] at hc
  obtain ⟨n, hn, rfl⟩ := Option.map_eq_some_iff.1 hc
  obtain ⟨l, hl, hcl⟩ := Bracket.closes_of_seek hn
  rw [List.getElem?_drop, ← kind?_eq_getElem?] at hl
  exact ⟨l, Option.isSome_iff_exists.2 ⟨b, hcl⟩, is_iff.2 hl⟩

/-- From token `i` a path leads to a closer of the shorter stream; so nothing that starts there goes
on behind that stream. -/
def Tokens.Inside (ts ts' : Tokens) (i : Nat) : Prop :=
  ∃ c k, k.closes?.isSome = true ∧ ts.is c k = true ∧ ts'.Path i c

namespace Tokens.Inside

variable {ts ts' : Tokens} {i j : Nat}

theorem next (h : ts.Inside ts' i) (hd : ts.Head ts') (hp : ts'.Path i j) : ts.Inside ts' j := by
  obtain ⟨c, k, hk, hc, hpc⟩ := h
  exact ⟨c, k, hk, hc, hp.rest hpc (hpc.le_of_closes (hd.is_of_is hc) hk hp)⟩

theorem lt (h : ts.Inside ts' i) : i < ts.size := by
  obtain ⟨c, k, _, hc, hpc⟩ := h
  exact Nat.lt_of_le_of_lt hpc.le (lt_of_is hc)

theorem end_lt (h : ts.Inside ts' i) (hd : ts.Head ts') (hp : ts'.Path i j) : j < ts.size :=
  (h.next hd hp).lt

end Tokens.Inside

/-! ## What is kept -/

/-- From token `i` as much is covered in both streams, if what is covered in the longer one ends in
the shorter one. -/
def Tokens.Kept (ts : Tokens) (i a b : Nat) : Prop := i + b ≤ ts.size → a = b

/-- The rule says the same about token `i` in both streams, if what it covers in the longer one ends
in the shorter one. -/
def Reading.Keeps {ts ts' : Tokens} (A : Reading ts false) (B : Reading ts' false) (r : Rule)
    (i : Nat) : Prop := i + B.len r i ≤ ts.size → A.tell r i = B.tell r i

section
variable {ts ts' : Tokens} {A : Reading ts false} {B : Reading ts' false} {i j e : Nat} {r : Rule}

theorem Reading.Keeps.len (h : A.Keeps B r i) : ts.Kept i (A.len r i) (B.len r i) :=
  fun hle => congrArg Answer.length (h hle)

theorem Reading.tell_eq_none (A : Reading ts false) (h : A.len r i = 0) : A.tell r i = none := by
  cases ht : A.tell r i with
  | none => rfl
  | some m =>
    rw [Reading.len, ht] at h
    exact absurd h (Nat.ne_of_gt m.length_pos)

theorem Reading.len_past_end (A : Reading ts false) (hi : ts.size ≤ i) : A.len r i = 0 := by
  rw [Reading.len, A.past_end r i hi]
  rfl

/-- Without refusals a rule is answered by its body. -/
theorem Reading.tell_eq_value (A : Reading ts false) (hi : i < ts.size) :
    A.tell r i = A.value (r.body ts i) := by
  obtain ⟨inner, hinner, he⟩ := A.explains r i hi
  rw [he, hinner.resolve_right fun h => Bool.false_ne_true h.1]
  rfl

/-- A bound for a match is one for the measure it is made of. -/
theorem end_le_of_match {σ : Type} {n : Nat} {s : σ} (hi : i ≤ e)
    (hle : ∀ m, Match.of? n s = some m → i + m.length ≤ e) : i + n ≤ e := by
  rcases Nat.eq_zero_or_pos n with rfl | hpos
  · exact hi
  · exact hle _ (Match.of?_pos hpos s)

section
variable (h : ts.Head ts')
include h

theorem Reading.keeps_of_body (hv : i < ts.size →
    (∀ m, B.value (r.body ts' i) = some m → i + m.length ≤ ts.size) →
      A.value (r.body ts i) = B.value (r.body ts' i)) : A.Keeps B r i := by
  intro hle
  rcases Nat.lt_or_ge i ts.size with hi | hi
  · have hb := B.tell_eq_value (r := r) (h.lt_size hi)
    rw [Reading.len, hb] at hle
    rw [A.tell_eq_value hi, hb, hv hi fun m hm => by rwa [hm] at hle]
  · rw [A.past_end r i hi, B.tell_eq_none (by omega)]

/-- A rule with one form is kept if what it measures is. -/
theorem Reading.keeps_of_sole {q q' : Lookahead Nat} {u : r.Shape}
    (hb : r.body ts i = q >>= fun n => pure (Match.of? n u))
    (hb' : r.body ts' i = q' >>= fun n => pure (Match.of? n u))
    (hv : i < ts.size → ts.Kept i (A.value q) (B.value q')) : A.Keeps B r i := by
  refine keeps_of_body h fun hi hle => ?_
  rw [hb', B.value_bind] at hle
  rw [hb, hb', A.value_bind, B.value_bind, hv hi (end_le_of_match (Nat.le_of_lt hi) hle)]
  rfl

end

/-- What is found in the shorter stream is found in the longer one, and what ends in the shorter one
is the same there: so it is kept. -/
theorem kept_of_pos {a b : Nat} (hfound : 0 < a → 0 < b)
    (hkept : 0 < b → i + b ≤ ts.size → a = b) : ts.Kept i a b := by
  intro hle
  rcases Nat.eq_zero_or_pos b with hz | hpos
  · have := hfound
    omega
  · exact hkept hpos hle

/-- A rule with one form is kept if what it covers is. -/
theorem Reading.keeps_of_len [Subsingleton r.Shape] (h : ts.Kept i (A.len r i) (B.len r i)) :
    A.Keeps B r i := by
  intro hle
  have hlen := h hle
  rcases Nat.eq_zero_or_pos (A.len r i) with hz | hpos
  · rw [A.tell_eq_none hz, B.tell_eq_none (hlen ▸ hz)]
  · obtain ⟨⟨n, s, hn⟩, hm, rfl⟩ := A.exists_of_len hpos
    obtain ⟨⟨n', s', hn'⟩, hm', hl'⟩ := B.exists_of_len (hlen ▸ hpos)
    obtain rfl : n' = A.len r i := hl'.trans hlen.symm
    rw [hm, hm', Subsingleton.elim s s']

theorem kept_orElse {x y x' y' : Lookahead Nat} (hx : ts.Kept i (A.value x) (B.value x'))
    (hy : ts.Kept i (A.value y) (B.value y')) :
    ts.Kept i (A.value (x <|> y)) (B.value (x' <|> y')) := by
  intro hle
  rw [A.value_orElse, B.value_orElse] at *
  split at hle
  · next hz => rw [hx (by omega), hz, if_pos rfl, if_pos rfl, hy hle]
  · next hz => rw [hx hle, if_neg hz, if_neg hz]

section
variable {σ : Type}

/-- Of two alternatives the second is kept where the first covers nothing. -/
theorem kept_firstOf_cons {shape : σ} {scan scan' : Nat → Lookahead Nat}
    {rest rest' : List (σ × (Nat → Lookahead Nat))} (hi : i ≤ ts.size)
    (hscan : ts.Kept i (A.value (scan i)) (B.value (scan' i)))
    (hrest : B.value (scan' i) = 0 →
      (∀ m, B.value (firstOf i rest') = some m → i + m.length ≤ ts.size) →
        A.value (firstOf i rest) = B.value (firstOf i rest'))
    (hle : ∀ m, B.value (firstOf i ((shape, scan') :: rest')) = some m → i + m.length ≤ ts.size) :
    A.value (firstOf i ((shape, scan) :: rest)) =
      B.value (firstOf i ((shape, scan') :: rest')) := by
  rw [B.value_firstOf_cons] at hle
  rw [A.value_firstOf_cons, B.value_firstOf_cons]
  rcases Nat.eq_zero_or_pos (B.value (scan' i)) with hz | hpos
  · have hz' : A.value (scan i) = 0 := by rw [hscan (by omega), hz]
    rw [hz, Match.of?_zero, Option.none_or] at hle
    rw [hz, hz', Match.of?_zero, Option.none_or, Option.none_or, hrest hz hle]
  · rw [Match.of?_pos hpos, Option.some_or] at hle
    rw [hscan (hle _ rfl), Match.of?_pos hpos, Option.some_or, Option.some_or]

/-- Alternatives that are the same one by one. -/
theorem firstOf_eq {alts alts' : List (σ × (Nat → Lookahead Nat))}
    (h : List.Forall₂ (fun a a' => a.1 = a'.1 ∧ A.value (a.2 i) = B.value (a'.2 i)) alts alts') :
    A.value (firstOf i alts) = B.value (firstOf i alts') := by
  induction h with
  | nil => rfl
  | @cons a a' _ _ ha _ ih =>
    obtain ⟨shape, scan⟩ := a
    obtain ⟨shape', scan'⟩ := a'
    obtain ⟨rfl, hscan⟩ := ha
    rw [A.value_firstOf_cons, B.value_firstOf_cons, hscan, ih]

/-- Alternatives are kept if each of them is. -/
theorem kept_firstOf {alts alts' : List (σ × (Nat → Lookahead Nat))} (hi : i ≤ ts.size)
    (h : List.Forall₂ (fun a a' => a.1 = a'.1 ∧
      ts.Kept i (A.value (a.2 i)) (B.value (a'.2 i))) alts alts')
    (hle : ∀ m, B.value (firstOf i alts') = some m → i + m.length ≤ ts.size) :
    A.value (firstOf i alts) = B.value (firstOf i alts') := by
  induction h with
  | nil => rfl
  | @cons a a' _ _ ha _ ih =>
    obtain ⟨shape, scan⟩ := a
    obtain ⟨shape', scan'⟩ := a'
    obtain ⟨rfl, hscan⟩ := ha
    exact kept_firstOf_cons hi hscan (fun _ hle => ih hle) hle

end

/-- A repetition that ends in the shorter stream is kept if each of its rounds is. The invariant `I`
says which tokens it comes to. -/
theorem walk_kept {I : Nat → Prop} {step step' : Nat → Lookahead Step} (h : ts.Head ts')
    (hnext : ∀ j, I j → I (j + (B.value (step' j)).length))
    (hstep : ∀ j, I j → j < ts.size → B.value (walk ts'.size step' j) = e →
      j + (B.value (step' j)).length ≤ ts.size → A.value (step j) = B.value (step' j))
    (he : e ≤ ts.size) (hI : I j) (hj : B.value (walk ts'.size step' j) = e) :
    A.value (walk ts.size step j) = e := by
  have hmono : ∀ k, k ≤ B.value (walk ts'.size step' k) :=
    fun k => (B.trail_walk ts'.size step' k).le
  generalize hn : ts.size - j = n
  induction n using Nat.strongRecOn generalizing j with
  | ind n ih =>
    have hje := hj ▸ hmono j
    rw [A.value_walk]
    rw [B.value_walk] at hj
    rcases Nat.eq_or_lt_of_le (Nat.le_trans hje he) with hend | hlt
    · rw [if_neg (by omega)]
      omega
    · have hlt' := h.lt_size hlt
      have hround := hstep j hI hlt
      rw [B.value_walk, if_pos hlt'] at hround
      rw [if_pos hlt'] at hj
      rw [if_pos hlt]
      have hle : j + (B.value (step' j)).length ≤ e := by
        rw [← hj]
        split
        · exact hmono _
        · exact Nat.le_refl _
      rw [hround hj (by omega)]
      split at hj
      · next hgo =>
        rw [if_pos hgo]
        exact ih _ (by omega) (hnext j hI) hj rfl
      · next hgo =>
        rw [if_neg hgo]
        exact hj

theorem value_walkWhile {stop : Nat} {scan : Nat → Lookahead Nat} (A : Reading ts false) (i : Nat) :
    A.value (walkWhile stop scan i) = if i < stop ∧ 0 < A.value (scan i) then
      A.value (walkWhile stop scan (i + A.value (scan i))) else i := by
  rw [walkWhile, A.value_walk, A.value_map]
  simp only [Step.go, and_true]
  split
  · next hlt =>
    split
    · next hpos => rw [if_pos ⟨hlt, hpos⟩]; rfl
    · next hz => rw [if_neg fun h => hz h.2, Nat.eq_zero_of_not_pos hz]; rfl
  · next hge => rw [if_neg fun h => hge h.1]

/-- A repetition ends behind its first round, or goes on from there. -/
theorem round_le_walkWhile {stop : Nat} {scan : Nat → Lookahead Nat} (A : Reading ts false)
    (hlt : i < stop) : i + A.value (scan i) ≤ A.value (walkWhile stop scan i) := by
  rw [value_walkWhile]
  split
  · exact (A.trail_walkWhile stop scan _).le
  · next hz => omega

/-- A repetition of a measure that is kept. -/
theorem walkWhile_kept {scan scan' : Nat → Lookahead Nat} (h : ts.Head ts')
    (hscan : ∀ j, ts.Kept j (A.value (scan j)) (B.value (scan' j)))
    (he : B.value (walkWhile ts'.size scan' j) ≤ ts.size) :
    A.value (walkWhile ts.size scan j) = B.value (walkWhile ts'.size scan' j) := by
  refine walk_kept (I := fun _ => True) h (fun _ _ => trivial) (fun j _ _ _ hle => ?_) he trivial rfl
  rw [A.value_map, B.value_map]
  rw [B.value_map] at hle
  exact congrArg Step.go (hscan j hle)

end

end LessCss
