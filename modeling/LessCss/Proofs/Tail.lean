import LessCss.Proofs.Closers
import LessCss.Proofs.Transparency
import Mathlib.Data.List.Forall2

/-! Streams that others end with. What stands before a stretch of tokens does not show in it: links
go forwards, and nothing looks back but a variable, at the marks before its own. So where a stream
is what another one ends with, every production looks ahead in both by the same program, but for
the place where it asks, and every question is answered alike. -/

namespace LessCss

open Lookahead Grammar Tokens

/-- The token, with links to tokens `d` further on. -/
def Token.later (d : Nat) (t : Token) : Token :=
  { t with closer := t.closer.map (d + ·), runEnd := t.runEnd.map (d + ·) }

/-- The stream is what another one ends with, behind its first `d` tokens, and if it starts with the
mark of a variable, no other mark stands before it. -/
structure Tokens.Tail (d : Nat) (ts ts' : Tokens) : Prop where
  size : ts'.size = d + ts.size
  token : ∀ i, ts'[d + i]? = ts[i]?.map (Token.later d)
  pos : 0 < ts.size
  first : ts.is 0 .atSign = true → d = 0 ∨ ts'.is (d - 1) .atSign = false

/-! ## Links -/

namespace Token

variable {d n : Nat}

/-- Closers that are free, counted from another token. -/
def freeLater (d : Nat) (free : List (Bracket × Nat)) : List (Bracket × Nat) :=
  free.map fun x => (x.1, d + x.2)

theorem takeCloser_later (d : Nat) (b : Bracket) (free : List (Bracket × Nat)) :
    takeCloser b (freeLater d free) =
      ((takeCloser b free).1.map (d + ·), freeLater d (takeCloser b free).2) := by
  induction free with
  | nil => rfl
  | cons x free ih =>
    obtain ⟨b', j⟩ := x
    rw [freeLater] at ih
    by_cases h : b' = b <;> simp [freeLater, takeCloser, h, ih]

theorem linkBracket_later {t : Token} (ht : t.runEnd = none) (hc : t.closer = none)
    (free : List (Bracket × Nat)) (done : List Token) :
    linkBracket (t, d + n) (freeLater d free, done.map (later d)) =
      (freeLater d (linkBracket (t, n) (free, done)).1,
        (linkBracket (t, n) (free, done)).2.map (later d)) := by
  have hlater : later d t = t := by
    obtain ⟨⟩ := t
    simp_all [later]
  unfold linkBracket
  dsimp only
  split
  · rw [takeCloser_later]
    simp [later, ht]
  · simp [freeLater, hlater]
  · simp [hlater]

theorem foldr_linkBracket_later (d : Nat) {ts : List Token}
    (h : ∀ t ∈ ts, t.runEnd = none ∧ t.closer = none) (n : Nat) :
    (ts.zipIdx (d + n)).foldr linkBracket ([], []) =
      (freeLater d ((ts.zipIdx n).foldr linkBracket ([], [])).1,
        ((ts.zipIdx n).foldr linkBracket ([], [])).2.map (later d)) := by
  induction ts generalizing n with
  | nil => rfl
  | cons t ts ih =>
    obtain ⟨ht, hc⟩ := h t (List.mem_cons_self ..)
    rw [List.zipIdx_cons, List.zipIdx_cons, List.foldr_cons, List.foldr_cons, Nat.add_assoc,
      ih fun u hu => h u (List.mem_cons_of_mem _ hu)]
    exact linkBracket_later ht hc _ _

theorem linkRun_later (t : Token) (run : Option Nat) (done : List Token) :
    linkRun (later d t, d + n) (run.map (d + ·), done.map (later d)) =
      ((linkRun (t, n) (run, done)).1.map (d + ·),
        (linkRun (t, n) (run, done)).2.map (later d)) := by
  unfold linkRun
  dsimp only
  by_cases hw : t.kind.isWhitespace = true
  · have hstop : (run.map (d + ·)).getD (d + n) = d + run.getD n := by cases run <;> rfl
    simp [later, hw, hstop]
  · simp [later, hw]

theorem foldr_linkRun_later (d : Nat) (ts : List Token) (n : Nat) :
    ((ts.map (later d)).zipIdx (d + n)).foldr linkRun (none, []) =
      (((ts.zipIdx n).foldr linkRun (none, [])).1.map (d + ·),
        ((ts.zipIdx n).foldr linkRun (none, [])).2.map (later d)) := by
  induction ts generalizing n with
  | nil => rfl
  | cons t ts ih =>
    rw [List.map_cons, List.zipIdx_cons, List.zipIdx_cons, List.foldr_cons, List.foldr_cons,
      Nat.add_assoc, ih]
    exact linkRun_later t _ _

/-- A pass that puts one token before those that are done leaves the latter alone. -/
theorem drop_foldr {σ : Type} {step : Token × Nat → σ × List Token → σ × List Token}
    (hstep : ∀ x s done, ∃ s' u, step x (s, done) = (s', u :: done)) (ts : List (Token × Nat))
    (init : σ × List Token) : (ts.foldr step init).2.drop ts.length = init.2 := by
  induction ts with
  | nil => rfl
  | cons x ts ih =>
    obtain ⟨s, u, hs⟩ := hstep x (ts.foldr step init).1 (ts.foldr step init).2
    rw [List.foldr_cons, List.length_cons, hs, List.drop_succ_cons, ih]

theorem linkBracket_cons (x : Token × Nat) (free : List (Bracket × Nat)) (done : List Token) :
    ∃ free' u, linkBracket x (free, done) = (free', u :: done) := by
  unfold linkBracket
  dsimp only
  split <;> exact ⟨_, _, rfl⟩

theorem linkRun_cons (x : Token × Nat) (run : Option Nat) (done : List Token) :
    ∃ run' u, linkRun x (run, done) = (run', u :: done) := by
  unfold linkRun
  dsimp only
  split <;> exact ⟨_, _, rfl⟩

theorem drop_markBrackets (front : List Token) {ts : List Token}
    (h : ∀ t ∈ ts, t.runEnd = none ∧ t.closer = none) :
    (markBrackets (front ++ ts)).drop front.length =
      (markBrackets ts).map (later front.length) := by
  have hdrop := drop_foldr linkBracket_cons front.zipIdx
    ((ts.zipIdx (0 + front.length)).foldr linkBracket ([], []))
  rw [List.length_zipIdx] at hdrop
  rw [markBrackets, List.zipIdx_append, List.foldr_append, hdrop, Nat.add_comm 0,
    foldr_linkBracket_later _ h]
  rfl

theorem drop_markRuns (front ts : List Token) :
    (markRuns (front ++ ts.map (later front.length))).drop front.length =
      (markRuns ts).map (later front.length) := by
  have hdrop := drop_foldr linkRun_cons front.zipIdx
    (((ts.map (later front.length)).zipIdx (0 + front.length)).foldr linkRun (none, []))
  rw [List.length_zipIdx] at hdrop
  rw [markRuns, List.zipIdx_append, List.foldr_append, hdrop, Nat.add_comm 0,
    foldr_linkRun_later]
  rfl

/-- Linked tokens that stand behind others are linked alike. -/
theorem drop_link (front ts : List Token) :
    (link (front ++ ts)).toList.drop front.length =
      (link ts).toList.map (later front.length) := by
  have hunlinked : ∀ t ∈ ts.map unlinked, t.runEnd = none ∧ t.closer = none := by
    intro t ht
    obtain ⟨u, -, rfl⟩ := List.mem_map.1 ht
    exact ⟨rfl, rfl⟩
  have hbrackets := drop_markBrackets (front.map unlinked) hunlinked
  rw [List.length_map] at hbrackets
  have hsplit : markBrackets (front.map unlinked ++ ts.map unlinked) =
      (markBrackets (front.map unlinked ++ ts.map unlinked)).take front.length ++
        (markBrackets (ts.map unlinked)).map (later front.length) := by
    rw [← hbrackets, List.take_append_drop]
  have htake : ((markBrackets (front.map unlinked ++ ts.map unlinked)).take front.length).length =
      front.length := by
    obtain ⟨_, hspec⟩ := bracketed_spec (front ++ ts)
    have hlength := congrArg List.length hspec.unlinked
    simp only [bracketed, List.length_map, List.map_append, List.length_append] at hlength
    rw [List.length_take, hlength, Nat.min_eq_left (Nat.le_add_right ..)]
  have hruns := drop_markRuns
    ((markBrackets (front.map unlinked ++ ts.map unlinked)).take front.length)
    (markBrackets (ts.map unlinked))
  rw [htake, ← hsplit] at hruns
  change (markRuns (markBrackets ((front ++ ts).map unlinked))).drop front.length = _
  rw [List.map_append]
  exact hruns

end Token

/-- Behind other tokens, a stream is a tail if it does not go on with marks of a variable. -/
theorem Token.link_append_tail (front : List Token) {ts : List Token} (hne : ts ≠ [])
    (hfirst : (link ts).is 0 .atSign = true →
      front.length = 0 ∨ (link (front ++ ts)).is (front.length - 1) .atSign = false) :
    Tokens.Tail front.length (link ts) (link (front ++ ts)) where
  size := by rw [size_link, size_link, List.length_append]
  token i := by
    rw [← Array.getElem?_toList, ← List.getElem?_drop, drop_link, List.getElem?_map,
      Array.getElem?_toList]
  pos := by
    rw [size_link]
    exact List.length_pos_of_ne_nil hne
  first := hfirst

/-- Behind other tokens, a stream that does not start with the mark of a variable is a tail. -/
theorem Token.link_tail (front : List Token) {t : Token} {ts : List Token}
    (ht : t.kind ≠ .atSign) : Tokens.Tail front.length (link (t :: ts)) (link (front ++ t :: ts)) := by
  refine link_append_tail front (List.cons_ne_nil t ts) fun h => ?_
  have hk := is_iff.1 h
  rw [kind?_link] at hk
  exact absurd (Option.some.inj hk) ht

/-! ## What a tail shows -/

namespace Tokens.Tail

variable {d : Nat} {ts ts' : Tokens} (h : ts.Tail d ts')
include h

theorem kind? (i : Nat) : ts'.kind? (d + i) = ts.kind? i := by
  rw [Tokens.kind?, h.token, Option.map_map, Tokens.kind?]
  rfl

theorem is (i : Nat) (k : Token.Kind) : ts'.is (d + i) k = ts.is i k := by
  rw [Tokens.is, h.kind?, Tokens.is]

theorem isAny (i : Nat) (ks : List Token.Kind) : ts'.isAny (d + i) ks = ts.isAny i ks := by
  rw [Tokens.isAny, h.kind?, Tokens.isAny]

theorem text (i : Nat) : ts'.text (d + i) = ts.text i := by
  rw [Tokens.text, h.token, Option.map_map, Tokens.text]
  rfl

theorem closer? (i : Nat) (k : Token.Kind) :
    ts'.closer? (d + i) k = (ts.closer? i k).map (d + ·) := by
  rw [Tokens.closer?, h.token, Tokens.closer?]
  cases ts[i]? with
  | none => rfl
  | some t => by_cases hk : t.kind = k <;> simp [Token.later, hk]

theorem spanEnd (ks : List Token.Kind) (j : Nat) :
    ts'.spanEnd ks (d + j) = d + ts.spanEnd ks j := by
  fun_induction Tokens.spanEnd ts ks j with
  | case1 j hlt hany ih =>
    rw [Tokens.spanEnd.eq_def, h.size, h.isAny, if_pos (by omega), if_pos hany]
    exact ih
  | case2 j hlt hany =>
    rw [Tokens.spanEnd.eq_def, h.size, h.isAny, if_pos (by omega), if_neg hany]
  | case3 j hge => rw [Tokens.spanEnd.eq_def, h.size, if_neg (by omega)]

theorem back? : ts'.back? = ts.back?.map (Token.later d) := by
  have hpos := h.pos
  rw [Array.back?, Array.back?, h.size, show d + ts.size - 1 = d + (ts.size - 1) by omega, h.token]

theorem position (i : Nat) : ts'.position (d + i) = ts.position i := by
  rw [Tokens.position, Tokens.position, h.token, Tokens.stop, Tokens.stop, h.back?,
    Option.map_map, Option.map_map]
  rfl

theorem unexpected (i : Nat) : ts'.unexpected (d + i) = ts.unexpected i := by
  rw [Tokens.unexpected, Tokens.unexpected, Tokens.lineAt, Tokens.lineAt, h.token, h.back?]
  cases ts[i]? with
  | some t => rfl
  | none => cases ts.back? <;> rfl

theorem join (lo hi : Nat) : ts'.join (d + lo) (d + hi) = ts.join lo hi := by
  have hdrop : ts'.toList.drop d = ts.toList.map (Token.later d) := by
    apply List.ext_getElem?
    intro i
    rw [List.getElem?_drop, List.getElem?_map, Array.getElem?_toList, Array.getElem?_toList, h.token]
  have hextract : ∀ us : Tokens, us.join (d + lo) (d + hi) =
      String.join (((us.toList.drop d).extract lo hi).map Token.text) := by
    intro us
    rw [Tokens.join, Array.toList_extract, List.extract_eq_take_drop, List.extract_eq_take_drop,
      List.drop_drop, Nat.add_sub_add_left]
  rw [hextract, hdrop, Tokens.join, Array.toList_extract, List.extract_eq_take_drop,
    List.extract_eq_take_drop, ← List.map_drop, ← List.map_take, List.map_map]
  rfl

end Tokens.Tail

/-! ## Programs that ask further on -/

namespace Lookahead

variable {α β : Type} (d : Nat)

/-- The program, asking about tokens `d` further on. -/
def later : Lookahead α → Lookahead α
  | done a => done a
  | query r i next => query r (d + i) fun a => (next a).later
  | inside r i next => inside r (d + i) fun a => (next a).later
  | distance lo hi next => distance (d + lo) (d + hi) fun n => (next n).later

@[simp] theorem later_done (a : α) : (done a).later d = done a := rfl

@[simp] theorem later_pure (a : α) : (pure a : Lookahead α).later d = pure a := rfl

@[simp] theorem later_bind (x : Lookahead α) (f : α → Lookahead β) :
    (x >>= f).later d = x.later d >>= fun a => (f a).later d := by
  change (x.bind f).later d = (x.later d).bind fun a => (f a).later d
  induction x with
  | done a => rfl
  | query r i next ih => simp [bind, later, ih]
  | inside r i next ih => simp [bind, later, ih]
  | distance lo hi next ih => simp [bind, later, ih]

@[simp] theorem later_map (f : α → β) (x : Lookahead α) : (f <$> x).later d = f <$> x.later d := by
  rw [map_eq_pure_bind, later_bind, map_eq_pure_bind]
  rfl

@[simp] theorem later_find (r : Rule) (i : Nat) : (find r i).later d = find r (d + i) := rfl

@[simp] theorem later_lengthOf (r : Rule) (i : Nat) :
    (lengthOf r i).later d = lengthOf r (d + i) := rfl

@[simp] theorem later_lengthInside (r : Rule) (i : Nat) :
    (lengthInside r i).later d = lengthInside r (d + i) := rfl

@[simp] theorem later_tokensBetween (lo hi : Nat) :
    (tokensBetween lo hi).later d = tokensBetween (d + lo) (d + hi) := rfl

@[simp] theorem later_ite (c : Prop) [Decidable c] (x y : Lookahead α) :
    (if c then x else y).later d = if c then x.later d else y.later d := apply_ite (later d) c x y

@[simp] theorem later_through (lo mid n : Nat) :
    (through lo mid n).later d = through (d + lo) (d + mid) n := by
  simp [through, Nat.add_assoc]

@[simp] theorem later_orElse (x y : Lookahead Nat) :
    (x <|> y).later d = (x.later d <|> y.later d) := by
  change (orElse x fun _ => y).later d = orElse (x.later d) fun _ => y.later d
  rw [orElse, later_bind, orElse]
  congr 1
  funext n
  cases n <;> rfl

@[simp] theorem later_sole (q : Lookahead Nat) : (sole q).later d = sole (q.later d) := by
  simp [sole]

variable {d}

/-- Where the answers are the same further on, so is the result. -/
theorem result_later {tell tell' inner inner' : Answers}
    (htell : ∀ r i, tell' r (d + i) = tell r i) (hinner : ∀ r i, inner' r (d + i) = inner r i)
    (q : Lookahead α) : (q.later d).result tell' inner' = q.result tell inner := by
  induction q with
  | done a => rfl
  | query r i next ih => rw [later, result_query, result_query, htell, ih]
  | inside r i next ih => rw [later, result_inside, result_inside, hinner, ih]
  | distance lo hi next ih => rw [later, result_distance, result_distance, Nat.add_sub_add_left, ih]

/-- Alternatives that ask further on. -/
theorem firstOf_later {σ : Type} {i : Nat} {alts alts' : List (σ × (Nat → Lookahead Nat))}
    (h : List.Forall₂ (fun a' a => a'.1 = a.1 ∧ a'.2 (d + i) = (a.2 i).later d) alts' alts) :
    firstOf (d + i) alts' = (firstOf i alts).later d := by
  induction h with
  | nil => rfl
  | @cons a' a _ _ ha _ ih =>
    obtain ⟨shape, scan⟩ := a
    obtain ⟨shape', scan'⟩ := a'
    obtain ⟨rfl, hscan⟩ := ha
    dsimp only at hscan
    simp only [firstOf, later_bind, hscan]
    congr 1
    funext n
    cases Match.of? n shape' with
    | none => exact ih
    | some m => rfl

/-- A repetition that asks further on. -/
theorem walk_later {stop : Nat} {step step' : Nat → Lookahead Step}
    (h : ∀ j, step' (d + j) = (step j).later d) (j : Nat) :
    walk (d + stop) step' (d + j) = (d + ·) <$> (walk stop step j).later d := by
  generalize hn : stop - j = n
  induction n using Nat.strongRecOn generalizing j with
  | ind n ih =>
    rw [walk, walk.eq_def stop]
    by_cases hj : j < stop
    · rw [dif_pos (Nat.add_lt_add_left hj d), dif_pos hj, h]
      change ((step j).later d >>= _) = (d + ·) <$> (step j >>= _).later d
      rw [later_bind, map_bind]
      congr 1
      funext s
      by_cases hs : 0 < s.length ∧ s.more = true
      · rw [dif_pos hs, dif_pos hs, Nat.add_assoc]
        exact ih _ (by omega) _ rfl
      · rw [dif_neg hs, dif_neg hs, Nat.add_assoc]
        rfl
    · rw [dif_neg (by omega), dif_neg hj]
      rfl

section
variable {x x' : Lookahead α} {f f' : α → Lookahead β} {g g' : Nat → Lookahead β} {stop : Nat}

theorem bind_later (hx : x' = x.later d) (hf : ∀ a, f' a = (f a).later d) :
    x' >>= f' = (x >>= f).later d := by
  rw [later_bind, hx, funext hf]

theorem walk_bind_later {step step' : Nat → Lookahead Step}
    (h : ∀ j, step' (d + j) = (step j).later d) (hg : ∀ k, g' (d + k) = (g k).later d) (j : Nat) :
    walk (d + stop) step' (d + j) >>= g' = (walk stop step j >>= g).later d := by
  rw [walk_later h, later_bind, bind_map_left, funext hg]

theorem walkWhile_bind_later {scan scan' : Nat → Lookahead Nat}
    (h : ∀ j, scan' (d + j) = (scan j).later d) (hg : ∀ k, g' (d + k) = (g k).later d) (j : Nat) :
    walkWhile (d + stop) scan' (d + j) >>= g' = (walkWhile stop scan j >>= g).later d :=
  walk_bind_later (fun j => by rw [h, later_map]) hg j

end

end Lookahead

/-! ## Spacing, names and literals -/

section
variable (d i : Nat)

theorem nameMatch_later : nameMatch (d + i) = (nameMatch i).later d := firstOf_later (by simp)

theorem classOrIdLength_later : classOrIdLength (d + i) = (classOrIdLength i).later d := by
  simp [classOrIdLength]

theorem propertyLength_later : propertyLength (d + i) = (propertyLength i).later d := by
  simp [propertyLength]

end

section
variable {d : Nat} {ts ts' : Tokens} (h : ts.Tail d ts')
include h

theorem tokenLength_later (ks : List Token.Kind) (i : Nat) :
    tokenLength ts' ks (d + i) = (tokenLength ts ks i).later d := by
  simp [tokenLength, h.isAny]

theorem spaceLength_later (i : Nat) : spaceLength ts' (d + i) = (spaceLength ts i).later d := by
  unfold spaceLength
  rw [h.token]
  cases ts[i]? with
  | none => rfl
  | some t =>
    by_cases hw : t.kind.isWhitespace = true
    · cases hr : t.runEnd <;> simp [Token.later, hw, hr, Nat.add_assoc]
    · simp [Token.later, hw]

theorem spacingLength_later (i : Nat) :
    spacingLength ts' (d + i) = (spacingLength ts i).later d := by
  rw [spacingLength, h.size]
  refine walkWhile_bind_later (fun j => ?_) (fun k => rfl) i
  rw [spaceLength_later h, tokenLength_later h, later_orElse]

theorem identEnd_later (named : Bool) (j : Nat) :
    identEnd ts' named (d + j) = (fun x => (x.1, d + x.2)) <$> (identEnd ts named j).later d := by
  generalize hn : ts.size - j = n
  induction n using Nat.strongRecOn generalizing named j with
  | ind n ih =>
    rw [identEnd, identEnd.eq_def ts, h.size]
    by_cases hj : j < ts.size
    · have hnext : ∀ named k, identEnd ts' named (d + (j + k) + 1) =
          (fun x => (x.1, d + x.2)) <$> (identEnd ts named (j + k + 1)).later d :=
        fun named k => ih _ (by omega) named (j + k + 1) rfl
      rw [dif_pos (Nat.add_lt_add_left hj d), dif_pos hj]
      change (lengthOf .interpolation (d + j) >>= _) = _ <$> (lengthOf .interpolation j >>= _).later d
      rw [later_bind, map_bind]
      congr 1
      funext k
      rw [Nat.add_assoc d, h.kind?]
      generalize ts.kind? (j + k) = kind
      split
      · exact hnext named k
      · exact hnext named k
      · exact hnext true k
      · cases named with
        | true => exact hnext true k
        | false => rfl
      · rfl
    · rw [dif_neg (by omega), dif_neg hj]
      rfl

theorem identLength_later (i : Nat) : identLength ts' (d + i) = (identLength ts i).later d := by
  unfold identLength
  rw [h.kind?, Nat.add_assoc, h.spanEnd]
  split
  · rfl
  · simp [identEnd_later h]
  · rfl

theorem interpolationLength_later (i : Nat) :
    interpolationLength ts' (d + i) = (interpolationLength ts i).later d := by
  simp [interpolationLength, h.is, Nat.add_assoc]

/-- Two marks before a third one are seen from the tail as well. -/
theorem marksBefore_later (i : Nat) :
    (!ts'.is (d + i) .atSign ||
      (2 ≤ d + i && ts'.is (d + i - 1) .atSign && ts'.is (d + i - 2) .atSign)) =
    (!ts.is i .atSign || (2 ≤ i && ts.is (i - 1) .atSign && ts.is (i - 2) .atSign)) := by
  have hfirst := h.first
  rw [h.is]
  match i with
  | 0 =>
    cases hmark : ts.is 0 .atSign with
    | false => rfl
    | true =>
      rcases hfirst hmark with rfl | hbefore
      · rfl
      · simp [hbefore]
  | 1 =>
    have hmark : ts'.is d .atSign = ts.is 0 .atSign := h.is 0 .atSign
    cases hzero : ts.is 0 .atSign with
    | false => simp [hmark, hzero]
    | true =>
      rcases hfirst hzero with rfl | hbefore
      · rfl
      · have hback : d + 1 - 2 = d - 1 := by omega
        simp [hback, hbefore]
  | i + 2 =>
    have hmark : ts'.is (d + i + 1) .atSign = ts.is (i + 1) .atSign := h.is (i + 1) .atSign
    simp [← Nat.add_assoc, h.is, hmark]

theorem varLength_later (i : Nat) : varLength ts' (d + i) = (varLength ts i).later d := by
  simp only [varLength, marksBefore_later h, later_ite, later_bind, later_orElse, later_lengthOf,
    later_pure, Nat.add_assoc]

theorem varListLength_later (i : Nat) :
    varListLength ts' (d + i) = (varListLength ts i).later d := by
  simp [varListLength, h.spanEnd, Nat.add_assoc]

theorem atKeywordLength_later (i : Nat) :
    atKeywordLength ts' (d + i) = (atKeywordLength ts i).later d := by
  simp [atKeywordLength, h.is, Nat.add_assoc]

theorem markedNameMatch_later (mark : Token.Kind) (i : Nat) :
    markedNameMatch ts' mark (d + i) = (markedNameMatch ts mark i).later d := by
  simp [markedNameMatch, h.is, Nat.add_assoc, nameMatch_later]

theorem numberLength_later (i : Nat) : numberLength ts' (d + i) = (numberLength ts i).later d := by
  simp [numberLength, h.is, Nat.add_assoc]

theorem unitLength_later (i : Nat) : unitLength ts' (d + i) = unitLength ts i := by
  simp [unitLength, h.kind?, h.is, Nat.add_assoc]

theorem dimensionLength_later (i : Nat) :
    dimensionLength ts' (d + i) = (dimensionLength ts i).later d := by
  simp [dimensionLength, unitLength_later h, Nat.add_assoc]

theorem percentageLength_later (i : Nat) :
    percentageLength ts' (d + i) = (percentageLength ts i).later d := by
  simp [percentageLength, h.is, Nat.add_assoc]

theorem escapedStringLength_later (i : Nat) :
    escapedStringLength ts' (d + i) = (escapedStringLength ts i).later d := by
  simp [escapedStringLength, h.is, h.isAny, Nat.add_assoc]

theorem importantLength_later (i : Nat) :
    importantLength ts' (d + i) = (importantLength ts i).later d := by
  simp [importantLength, h.is, h.text, Nat.add_assoc]

theorem colorLength_later (i : Nat) : colorLength ts' (d + i) = (colorLength ts i).later d := by
  simp [colorLength, h.is, unitLength_later h, Nat.add_assoc]

/-! ## Groups and values -/

theorem throughCloser_later (k : Token.Kind) (i j : Nat) :
    throughCloser ts' k (d + i) (d + j) = (throughCloser ts k i j).later d := by
  unfold throughCloser
  rw [h.closer?]
  cases ts.closer? j k <;> simp [Nat.add_assoc]

theorem parenthesesLength_later (i : Nat) :
    parenthesesLength ts' (d + i) = (parenthesesLength ts i).later d := throughCloser_later h _ i i

theorem bracketsLength_later (i : Nat) :
    bracketsLength ts' (d + i) = (bracketsLength ts i).later d := throughCloser_later h _ i i

theorem blockLength_later (i : Nat) : blockLength ts' (d + i) = (blockLength ts i).later d :=
  throughCloser_later h _ i i

theorem uriLength_later (i : Nat) : uriLength ts' (d + i) = (uriLength ts i).later d := by
  simp [uriLength, h.is, h.text, throughCloser_later h, Nat.add_assoc]

theorem expressionLength_later (i : Nat) :
    expressionLength ts' (d + i) = (expressionLength ts i).later d := by
  simp [expressionLength, h.text, throughCloser_later h, Nat.add_assoc]

theorem progidLength_later (i : Nat) : progidLength ts' (d + i) = (progidLength ts i).later d := by
  simp [progidLength, h.size, h.join, throughCloser_later h, Nat.add_assoc]

theorem functionLength_later (i : Nat) :
    functionLength ts' (d + i) = (functionLength ts i).later d := by
  refine bind_later rfl fun n => ?_
  cases n with
  | zero => rfl
  | succ n => simp [throughCloser_later h, Nat.add_assoc]

theorem fragmentMatch_later (i : Nat) :
    fragmentMatch ts' (d + i) = (fragmentMatch ts i).later d :=
  firstOf_later (by simp [bracketsLength_later h, parenthesesLength_later h, stringLength,
    varListLength_later h, percentageLength_later h, dimensionLength_later h, uriLength_later h,
    expressionLength_later h, functionLength_later h, unaryLength, tokenLength_later h])

theorem preludePartMatch_later (i : Nat) :
    preludePartMatch ts' (d + i) = (preludePartMatch ts i).later d :=
  firstOf_later (by simp [colorLength_later h, operatorLength, tokenLength_later h])

theorem preludeEnd_later (i : Nat) :
    preludeEnd ts' (d + i) = (d + ·) <$> (preludeEnd ts i).later d := by
  rw [preludeEnd, h.size]
  exact walk_later (fun j => rfl) i

theorem valuePartMatch_later (i : Nat) :
    valuePartMatch ts' (d + i) = (valuePartMatch ts i).later d :=
  firstOf_later (by simp [escapedStringLength_later h, colorLength_later h, blockLength_later h,
    atKeywordLength_later h, operatorLength, tokenLength_later h])

theorem valueLength_later (i : Nat) : valueLength ts' (d + i) = (valueLength ts i).later d := by
  rw [valueLength, h.size]
  refine walk_bind_later (fun j => ?_) (fun k => rfl) i
  refine bind_later rfl fun n => bind_later (by rw [later_find, Nat.add_assoc]) fun m => ?_
  cases m <;> rfl

/-! ## Declarations and arguments -/

theorem declarationLength_later (i : Nat) :
    declarationLength ts' (d + i) = (declarationLength ts i).later d := by
  refine bind_later (propertyLength_later d i) fun n => ?_
  cases n with
  | zero => rfl
  | succ n => simp [h.is, Nat.add_assoc]

theorem argumentMatch_later (i : Nat) :
    argumentMatch ts' (d + i) = (argumentMatch ts i).later d :=
  firstOf_later (by simp [escapedStringLength_later h, varListLength_later h, unaryLength,
    operatorLength, delimiterLength, declarationDelimiterLength, tokenLength_later h, stringLength,
    percentageLength_later h, dimensionLength_later h, uriLength_later h, functionLength_later h,
    colorLength_later h, blockLength_later h, parenthesesLength_later h])

theorem argumentsLength_later (i : Nat) :
    argumentsLength ts' (d + i) = (argumentsLength ts i).later d := by
  unfold argumentsLength
  rw [h.closer?]
  cases ts.closer? i .leftParen with
  | none => rfl
  | some close =>
    refine walkWhile_bind_later (fun j => rfl) (fun k => ?_) (i + 1)
    simp [Nat.add_assoc]

/-! ## Selectors -/

theorem namespaceMatch_later (i : Nat) :
    namespaceMatch ts' (d + i) = (namespaceMatch ts i).later d := by
  simp [namespaceMatch, tokenLength_later h, h.is, Nat.add_assoc]

theorem typeSelectorLength_later (i : Nat) :
    typeSelectorLength ts' (d + i) = (typeSelectorLength ts i).later d := by
  simp [typeSelectorLength, h.is, Nat.add_assoc]

theorem parentSuffixLength_later (i : Nat) :
    parentSuffixLength ts' (d + i) = (parentSuffixLength ts i).later d := by
  rw [parentSuffixLength, h.size]
  exact walkWhile_bind_later (fun j => by simp) (fun k => rfl) i

theorem parentLength_later (i : Nat) : parentLength ts' (d + i) = (parentLength ts i).later d := by
  simp [parentLength, h.is, parentSuffixLength_later h, Nat.add_assoc]

omit h in
theorem attributeNameLength_later (i : Nat) :
    attributeNameLength (d + i) = (attributeNameLength i).later d := by
  refine bind_later rfl fun n => ?_
  cases n with
  | zero => rfl
  | succ n =>
    refine bind_later (by rw [later_lengthOf, Nat.add_assoc]) fun m => ?_
    cases m <;> rfl

theorem comparatorLength_later (i : Nat) : comparatorLength ts' (d + i) = comparatorLength ts i := by
  simp [comparatorLength, h.is, h.isAny, Nat.add_assoc]

theorem attributeValueLength_later (i : Nat) :
    attributeValueLength ts' (d + i) = (attributeValueLength ts i).later d := by
  simp [attributeValueLength, stringLength, tokenLength_later h]

omit h in
theorem flagSpacing_later (j n : Nat) : flagSpacing (d + j) n = (flagSpacing j n).later d := by
  simp [flagSpacing, Nat.add_assoc]

theorem attributeSelectorMatch_later (i : Nat) :
    attributeSelectorMatch ts' (d + i) = (attributeSelectorMatch ts i).later d := by
  simp [attributeSelectorMatch, attributeNameLength_later, attributeValueLength_later h,
    flagSpacing_later, comparatorLength_later h, h.is, Nat.add_assoc]

theorem pseudoElementLength_later (i : Nat) :
    pseudoElementLength ts' (d + i) = (pseudoElementLength ts i).later d := by
  simp [pseudoElementLength, h.is, nameMatch_later, Nat.add_assoc]

theorem closedAt_later (opener j : Nat) :
    closedAt ts' (d + opener) (d + j) = (closedAt ts opener j).later d := by
  unfold closedAt
  rw [h.closer?]
  cases ts.closer? opener .leftParen <;> simp [Nat.add_assoc]

theorem nthMultiplier_later (i : Nat) :
    nthMultiplier ts' (d + i) = Option.map (d + ·) <$> (nthMultiplier ts i).later d := by
  simp [nthMultiplier, h.is, h.isAny, h.text, Nat.add_assoc, apply_ite]

theorem nthFormulaLength_later (i : Nat) :
    nthFormulaLength ts' (d + i) = (nthFormulaLength ts i).later d := by
  rw [nthFormulaLength, nthFormulaLength, Nat.add_assoc, nthMultiplier_later h, bind_map_left]
  refine bind_later rfl fun j => ?_
  cases j with
  | none => rfl
  | some j => simp [h.is, h.isAny, closedAt_later h, Nat.add_assoc]

theorem nthMultipleLength_later (i : Nat) :
    nthMultipleLength ts' (d + i) = (nthMultipleLength ts i).later d := by
  rw [nthMultipleLength, nthMultipleLength, Nat.add_assoc, nthMultiplier_later h, bind_map_left]
  refine bind_later rfl fun j => ?_
  cases j with
  | none => rfl
  | some j => simp [closedAt_later h, Nat.add_assoc]

theorem nthOffsetLength_later (i : Nat) :
    nthOffsetLength ts' (d + i) = (nthOffsetLength ts i).later d := by
  simp [nthOffsetLength, h.is, h.isAny, closedAt_later h, Nat.add_assoc]

theorem pseudoSelectorsLength_later (i : Nat) :
    pseudoSelectorsLength ts' (d + i) = (pseudoSelectorsLength ts i).later d := by
  refine bind_later rfl fun n => ?_
  cases n with
  | zero => rfl
  | succ n => simp [closedAt_later h, Nat.add_assoc]

theorem pseudoIdentLength_later (i : Nat) :
    pseudoIdentLength ts' (d + i) = (pseudoIdentLength ts i).later d := by
  refine bind_later rfl fun s => bind_later (by simp [Nat.add_assoc]) fun n => ?_
  cases n with
  | zero => rfl
  | succ n => simp [closedAt_later h, Nat.add_assoc]

omit h in
theorem pseudoForm_later {opener close : Nat} {forms forms' : List (PseudoShape × (Nat → Lookahead Nat))}
    (hf : List.Forall₂ (fun a' a => a'.1 = a.1 ∧ a'.2 (d + opener) = (a.2 opener).later d)
      forms' forms) :
    pseudoForm (d + opener) (d + close) forms' = (pseudoForm opener close forms).later d := by
  induction hf with
  | nil => rfl
  | @cons a' a _ _ ha _ ih =>
    obtain ⟨shape, scan⟩ := a
    obtain ⟨shape', scan'⟩ := a'
    obtain ⟨rfl, hscan⟩ := ha
    dsimp only at hscan
    simp [pseudoForm, hscan, ih, Nat.add_assoc]

omit h in
theorem pseudoBareMatch_later (i : Nat) :
    pseudoBareMatch (d + i) = (pseudoBareMatch i).later d := by
  simp [pseudoBareMatch, nameMatch_later, Nat.add_assoc]

theorem pseudoForms_later (opener : Nat) :
    List.Forall₂ (fun a' a => a'.1 = a.1 ∧ a'.2 (d + opener) = (a.2 opener).later d)
      (pseudoForms ts') (pseudoForms ts) := by
  simp [pseudoForms, nthFormulaLength_later h, nthMultipleLength_later h, nthOffsetLength_later h,
    pseudoSelectorsLength_later h, pseudoIdentLength_later h]

theorem pseudoClassMatch_later (i : Nat) :
    pseudoClassMatch ts' (d + i) = (pseudoClassMatch ts i).later d := by
  unfold pseudoClassMatch
  rw [h.is]
  by_cases hcolon : ts.is i .colon = true
  · simp only [hcolon, Bool.not_true, Bool.false_eq_true, if_false, Nat.add_assoc]
    refine bind_later rfl fun name => ?_
    have hclose : (if 0 < name then ts'.closer? (d + (i + (1 + name))) .leftParen else none) =
        (if 0 < name then ts.closer? (i + (1 + name)) .leftParen else none).map (d + ·) := by
      rw [h.closer?, apply_ite (Option.map (d + ·)), Option.map_none]
    rw [hclose]
    cases (if 0 < name then ts.closer? (i + (1 + name)) .leftParen else none) with
    | none => exact pseudoBareMatch_later i
    | some close =>
      refine bind_later (pseudoForm_later (pseudoForms_later h _)) fun shape => ?_
      cases shape with
      | none => exact pseudoBareMatch_later i
      | some shape => simp [Nat.add_assoc]
  · simp [hcolon]

theorem pseudoLength_later (i : Nat) : pseudoLength ts' (d + i) = (pseudoLength ts i).later d := by
  simp [pseudoLength, pseudoElementLength_later h]

theorem compoundPartLength_later (i : Nat) :
    compoundPartLength ts' (d + i) = (compoundPartLength ts i).later d := by
  simp [compoundPartLength, pseudoLength_later h]

theorem compoundMatch_later (i : Nat) : compoundMatch ts' (d + i) = (compoundMatch ts i).later d := by
  rw [compoundMatch, h.size]
  refine bind_later (by simp [typeSelectorLength_later h, parentLength_later h]) fun n => ?_
  rw [Nat.add_assoc]
  exact walkWhile_bind_later (compoundPartLength_later h) (fun k => by simp) _

theorem combinatorLength_later (i : Nat) :
    combinatorLength ts' (d + i) = (combinatorLength ts i).later d := by
  simp [combinatorLength, h.is, h.isAny, Nat.add_assoc]

omit h in
theorem afterCompound_later (j : Nat) : afterCompound (d + j) = (afterCompound j).later d := by
  refine bind_later rfl fun s => bind_later (by simp [Nat.add_assoc]) fun c => ?_
  by_cases hc : c = 0
  · simp [hc, Nat.add_assoc]
  · rw [if_neg hc, if_neg hc]
    refine bind_later (by simp [Nat.add_assoc]) fun g => bind_later (by simp [Nat.add_assoc]) fun n => ?_
    cases n <;> rfl

omit h in
theorem afterCombinator_later (j : Nat) : afterCombinator (d + j) = (afterCombinator j).later d := by
  refine bind_later rfl fun s => bind_later (by simp [Nat.add_assoc]) fun n => ?_
  cases n with
  | zero => rfl
  | succ n =>
    refine bind_later (by simp [Nat.add_assoc]) fun g => bind_later (by simp [Nat.add_assoc]) fun m => ?_
    cases m <;> rfl

theorem selectorMatch_later (i : Nat) : selectorMatch ts' (d + i) = (selectorMatch ts i).later d := by
  rw [selectorMatch, h.size]
  refine bind_later rfl fun n => ?_
  cases n with
  | zero =>
    refine bind_later rfl fun n => ?_
    cases n with
    | zero => rfl
    | succ n =>
      simp only [Nat.add_assoc]
      exact walk_bind_later afterCombinator_later (fun k => by simp) _
  | succ n =>
    simp only [Nat.add_assoc]
    exact walk_bind_later afterCompound_later (fun k => by simp) _

theorem afterComma_later (r : Rule) (j : Nat) :
    afterComma ts' r (d + j) = (afterComma ts r j).later d := by
  simp [afterComma, h.is, Nat.add_assoc]

theorem commaListLength_later (r : Rule) (i : Nat) :
    commaListLength ts' r (d + i) = (commaListLength ts r i).later d := by
  rw [commaListLength, h.size]
  refine bind_later rfl fun n => ?_
  cases n with
  | zero => rfl
  | succ n =>
    simp only [Nat.add_assoc]
    exact walkWhile_bind_later (afterComma_later h r) (fun k => rfl) _

/-! ## Rulesets and at-rules -/

theorem rulesetLength_later (i : Nat) : rulesetLength ts' (d + i) = (rulesetLength ts i).later d := by
  refine bind_later rfl fun n => ?_
  cases n with
  | zero => rfl
  | succ n => simp [blockLength_later h, Nat.add_assoc]

theorem keyframeSelectorMatch_later (i : Nat) :
    keyframeSelectorMatch ts' (d + i) = (keyframeSelectorMatch ts i).later d := by
  refine bind_later rfl fun n => ?_
  cases n with
  | zero => simp [percentageLength_later h]
  | succ n => simp [h.join, Nat.add_assoc]

theorem keyframeLength_later (i : Nat) :
    keyframeLength ts' (d + i) = (keyframeLength ts i).later d := by
  refine bind_later (commaListLength_later h _ i) fun n => ?_
  cases n with
  | zero => rfl
  | succ n => simp [blockLength_later h, Nat.add_assoc]

theorem keyframesLength_later (i : Nat) :
    keyframesLength ts' (d + i) = (keyframesLength ts i).later d := by
  unfold keyframesLength
  rw [h.closer?]
  cases ts.closer? i .leftCurly with
  | none => rfl
  | some close =>
    refine bind_later rfl fun s => bind_later
      (by simp [keyframeLength_later h, Nat.add_assoc]) fun n => ?_
    cases n with
    | zero => rfl
    | succ n =>
      simp only [Nat.add_assoc]
      exact walkWhile_bind_later (fun j => by simp [keyframeLength_later h]) (fun k => by simp) _

theorem keyframesRuleLength_later (i : Nat) :
    keyframesRuleLength ts' (d + i) = (keyframesRuleLength ts i).later d := by
  simp [keyframesRuleLength, atKeywordLength_later h, h.join, keyframesLength_later h,
    Nat.add_assoc]

theorem ruleBodyLength_later (i : Nat) :
    ruleBodyLength ts' (d + i) = (ruleBodyLength ts i).later d := by
  rw [ruleBodyLength, h.size]
  exact walkWhile_bind_later (fun j => rfl) (fun k => rfl) (i + 1)

theorem atRuleHead_later (i : Nat) :
    atRuleHead ts' (d + i) = Option.map (d + ·) <$> (atRuleHead ts i).later d := by
  rw [atRuleHead, atRuleHead, later_bind, map_bind, atKeywordLength_later h]
  congr 1
  funext n
  cases n with
  | zero => rfl
  | succ n => simp [preludeEnd_later h, Nat.add_assoc]

theorem rulesRuleLength_later (i : Nat) :
    rulesRuleLength ts' (d + i) = (rulesRuleLength ts i).later d := by
  rw [rulesRuleLength, rulesRuleLength, atRuleHead_later h, bind_map_left]
  refine bind_later rfl fun j => ?_
  cases j with
  | none => rfl
  | some j =>
    simp only [Option.map_some, h.closer?]
    cases ts.closer? j .leftCurly with
    | none => rfl
    | some close => simp [Nat.add_assoc]

theorem blockRuleLength_later (i : Nat) :
    blockRuleLength ts' (d + i) = (blockRuleLength ts i).later d := by
  rw [blockRuleLength, blockRuleLength, atRuleHead_later h, bind_map_left]
  refine bind_later rfl fun j => ?_
  cases j with
  | none => rfl
  | some j => simp [blockLength_later h]

theorem bareRuleLength_later (i : Nat) :
    bareRuleLength ts' (d + i) = (bareRuleLength ts i).later d := by
  rw [bareRuleLength, bareRuleLength, atRuleHead_later h, bind_map_left]
  refine bind_later rfl fun j => ?_
  cases j <;> rfl

theorem atRuleMatch_later (i : Nat) : atRuleMatch ts' (d + i) = (atRuleMatch ts i).later d :=
  firstOf_later (by simp [keyframesRuleLength_later h, rulesRuleLength_later h,
    blockRuleLength_later h, bareRuleLength_later h])

/-! ## Mixins, guards and extends -/

theorem conditionPartMatch_later (i : Nat) :
    conditionPartMatch ts' (d + i) = (conditionPartMatch ts i).later d :=
  firstOf_later (by simp [functionLength_later h, bracketsLength_later h, parenthesesLength_later h,
    delimiterLength, operatorLength, stringLength, tokenLength_later h])

theorem conditionLength_later (i : Nat) :
    conditionLength ts' (d + i) = (conditionLength ts i).later d := by
  unfold conditionLength
  rw [h.is, h.text, h.size]
  split
  · rfl
  · refine bind_later rfl fun n => ?_
    split
    · rfl
    · rw [Nat.add_assoc]
      refine walkWhile_bind_later (fun j => ?_) (fun k => ?_) (i + 1)
      · rw [blockLength_later h, later_bind]
        simp
      · simp [blockLength_later h]

omit h in
theorem mixinHeadLength_later (i : Nat) :
    mixinHeadLength (d + i) = (mixinHeadLength i).later d := by
  refine bind_later (classOrIdLength_later d i) fun n => ?_
  cases n with
  | zero => rfl
  | succ n => simp [Nat.add_assoc]

theorem mixinMatch_later (i : Nat) : mixinMatch ts' (d + i) = (mixinMatch ts i).later d := by
  refine bind_later (mixinHeadLength_later i) fun n => ?_
  cases n with
  | zero => rfl
  | succ n =>
    refine bind_later (by simp [Nat.add_assoc]) fun s => bind_later (by simp [Nat.add_assoc]) fun c => ?_
    refine bind_later (by rw [← blockLength_later h]; simp [Nat.add_assoc]) fun b => ?_
    cases b with
    | zero => rfl
    | succ b => simp [Nat.add_assoc]

theorem callHeadLength_later (i : Nat) :
    callHeadLength ts' (d + i) = (callHeadLength ts i).later d := by
  rw [callHeadLength, h.size]
  refine bind_later (classOrIdLength_later d i) fun n => ?_
  cases n with
  | zero => rfl
  | succ n =>
    refine walkWhile_bind_later (fun j => ?_) (fun k => rfl) i
    simp [classOrIdLength_later, tokenLength_later h]

theorem mixinCallMatch_later (i : Nat) :
    mixinCallMatch ts' (d + i) = (mixinCallMatch ts i).later d := by
  refine bind_later (callHeadLength_later h i) fun n => ?_
  cases n with
  | zero => rfl
  | succ n =>
    refine bind_later (by simp [Nat.add_assoc]) fun m => ?_
    cases m with
    | zero => rfl
    | succ m => simp [Nat.add_assoc]

theorem extendTargetMatch_later (i : Nat) :
    extendTargetMatch ts' (d + i) = (extendTargetMatch ts i).later d :=
  firstOf_later (by simp [parentLength_later h])

theorem extendMatch_later (i : Nat) : extendMatch ts' (d + i) = (extendMatch ts i).later d := by
  refine bind_later rfl fun target => ?_
  cases target with
  | none => rfl
  | some target =>
    simp only [Nat.add_assoc, h.text]
    split
    · rfl
    · refine bind_later rfl fun n => ?_
      cases n with
      | zero => rfl
      | succ n =>
        refine bind_later (by simp) fun s => bind_later ?_ fun b => ?_
        · rw [← blockLength_later h]
        · cases b <;> simp

/-! ## Statements -/

theorem spacingAfterSemicolon_later (i : Nat) :
    spacingAfterSemicolon ts' (d + i) = (spacingAfterSemicolon ts i).later d := by
  simp [spacingAfterSemicolon, h.is, Nat.add_assoc]

theorem blockChunkMatch_later (i : Nat) :
    blockChunkMatch ts' (d + i) = (blockChunkMatch ts i).later d := by
  refine bind_later rfl fun s => bind_later (by rw [Nat.add_assoc]; rfl) fun item => ?_
  cases item with
  | some item =>
    refine bind_later (by rw [← spacingAfterSemicolon_later h]; simp [Nat.add_assoc]) fun n => ?_
    cases n <;> simp [Nat.add_assoc]
  | none => simp [h.is, Nat.add_assoc]

theorem varDeclarationLength_later (i : Nat) :
    varDeclarationLength ts' (d + i) = (varDeclarationLength ts i).later d := by
  simp [varDeclarationLength, h.is, Nat.add_assoc]

theorem sheetItemMatch_later (i : Nat) :
    sheetItemMatch ts' (d + i) = (sheetItemMatch ts i).later d :=
  firstOf_later (by simp [varDeclarationLength_later h, declarationDelimiterLength,
    tokenLength_later h])

/-! ## Rules -/

theorem Rule.body_later (r : Rule) (i : Nat) : r.body ts' (d + i) = (r.body ts i).later d := by
  cases r with
  | spacing => simp [body, spacingLength_later h]
  | ident => simp [body, identLength_later h]
  | number => simp [body, numberLength_later h]
  | important => simp [body, importantLength_later h]
  | progid => simp [body, progidLength_later h]
  | var => simp [body, varLength_later h]
  | interpolation => simp [body, interpolationLength_later h]
  | classSelector => exact markedNameMatch_later h _ i
  | idSelector => exact markedNameMatch_later h _ i
  | fragment => exact fragmentMatch_later h i
  | preludePart => exact preludePartMatch_later h i
  | arguments => simp [body, argumentsLength_later h]
  | argument => exact argumentMatch_later h i
  | value => simp [body, valueLength_later h]
  | valuePart => exact valuePartMatch_later h i
  | selectorGroup => simp [body, commaListLength_later h]
  | selector => exact selectorMatch_later h i
  | compound => exact compoundMatch_later h i
  | combinator => simp [body, combinatorLength_later h]
  | namespacePart => exact namespaceMatch_later h i
  | attributeSelector => exact attributeSelectorMatch_later h i
  | pseudoClass => exact pseudoClassMatch_later h i
  | keyframeSelector => exact keyframeSelectorMatch_later h i
  | ruleset => simp [body, rulesetLength_later h]
  | declaration => simp [body, declarationLength_later h]
  | blockChunk => exact blockChunkMatch_later h i
  | blockItem => exact firstOf_later (by simp)
  | atRule => exact atRuleMatch_later h i
  | nestedRule => exact firstOf_later (by simp)
  | ruleBody => simp [body, ruleBodyLength_later h]
  | mixin => exact mixinMatch_later h i
  | mixinCall => exact mixinCallMatch_later h i
  | extend => exact extendMatch_later h i
  | extendTarget => exact extendTargetMatch_later h i
  | condition => simp [body, conditionLength_later h]
  | conditionPart => exact conditionPartMatch_later h i
  | sheetItem => exact sheetItemMatch_later h i

/-! ## Start symbols -/

theorem stylesheetLength_later (i : Nat) :
    stylesheetLength ts' (d + i) = (stylesheetLength ts i).later d := by
  rw [stylesheetLength, stylesheetLength, h.size]
  exact walkWhile_bind_later (fun j => rfl) (fun k => by simp) i

/-- A start symbol is measured further on by the same program. -/
theorem Symbol.length_later (start : Symbol) (i : Nat) :
    start.length ts' (d + i) = (start.length ts i).later d := by
  cases start with
  | atKeyword => exact atKeywordLength_later h i
  | block => exact blockLength_later h i
  | brackets => exact bracketsLength_later h i
  | color => exact colorLength_later h i
  | dimension => exact dimensionLength_later h i
  | escapedString => exact escapedStringLength_later h i
  | expression => exact expressionLength_later h i
  | function => exact functionLength_later h i
  | parentheses => exact parenthesesLength_later h i
  | percentage => exact percentageLength_later h i
  | property => exact propertyLength_later d i
  | pseudoElement => exact pseudoElementLength_later h i
  | space => exact spaceLength_later h i
  | stylesheet => exact stylesheetLength_later h i
  | typeSelector => exact typeSelectorLength_later h i
  | uri => exact uriLength_later h i
  | varList => exact varListLength_later h i
  | declarationDelimiter | delimiter | blockComment | namespaceBar | operator | parentSelector
  | propertyDelimiter | lineComment | string | unary => exact tokenLength_later h _ i
  | arguments | atRule | attributeSelector | classSelector | combinator | compoundSelector
  | condition | declaration | extend | idSelector | ident | important | mixinCall
  | interpolation | mixin | number | progid | pseudoClass | ruleset | selector | value | var => rfl

/-! ## Answers -/

/-- A rule says the same about a token of the tail as about the token in the whole stream. -/
theorem Tokens.Tail.meaning (r : Rule) (i : Nat) : r.meaning ts' (d + i) = r.meaning ts i := by
  generalize hw : r.weight ts.size i = w
  induction w using Nat.strongRecOn generalizing r i with
  | ind w ih =>
    rw [Rule.meaning, Rule.meaning.eq_def ts, h.size]
    by_cases hi : i < ts.size
    · rw [dif_pos (Nat.add_lt_add_left hi d), dif_pos hi, Rule.body_later h]
      have hnext : ∀ r' j,
          (if Rule.Before r' (d + j) r (d + i) then r'.meaning ts' (d + j) else none) =
            if Rule.Before r' j r i then r'.meaning ts j else none := by
        intro r' j
        have hbefore : Rule.Before r' (d + j) r (d + i) ↔ Rule.Before r' j r i := by
          simp [Rule.Before]
        rw [if_congr hbefore rfl rfl]
        split
        · next hb => exact ih _ (hw ▸ Rule.weight_lt hi hb) r' j rfl
        · rfl
      exact result_later hnext hnext _
    · rw [dif_neg (by omega), dif_neg hi]

/-- A program that asks further on finds in the whole stream what it finds in the tail. -/
theorem Tokens.Tail.eval {α : Type} (q : Lookahead α) : (q.later d).eval ts' = q.eval ts :=
  result_later h.meaning h.meaning q

end

end LessCss
