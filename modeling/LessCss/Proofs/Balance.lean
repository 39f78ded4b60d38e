import LessCss.Proofs.Closers

/-! Brackets counted. Linking goes through a stream once and keeps the closers that are still free;
what it finds can be said by counting. The closer of an opener is the first token behind it up to
which the stream, from the opener on, closes as many brackets of that type as it opens. Brackets of
the other types, and closers that nothing opens, do not matter. -/

namespace LessCss

namespace Bracket

/-- How many of some kinds open a bracket of type `b`. -/
def opened (b : Bracket) (ks : List Token.Kind) : Nat := ks.countP fun k => k.opens? == some b

/-- How many of some kinds close a bracket of type `b`. -/
def closed (b : Bracket) (ks : List Token.Kind) : Nat := ks.countP fun k => k.closes? == some b

/-- Of some kinds, as many close a bracket of type `b` as open one. -/
def Even (b : Bracket) (ks : List Token.Kind) : Prop := b.opened ks = b.closed ks

variable {b : Bracket} {k : Token.Kind} {ks : List Token.Kind} {depth n : Nat}

theorem opened_cons (b : Bracket) (k : Token.Kind) (ks : List Token.Kind) :
    b.opened (k :: ks) = b.opened ks + if k.opens? = some b then 1 else 0 := by
  simp [opened, List.countP_cons]

theorem closed_cons (b : Bracket) (k : Token.Kind) (ks : List Token.Kind) :
    b.closed (k :: ks) = b.closed ks + if k.closes? = some b then 1 else 0 := by
  simp [closed, List.countP_cons]

/-- Behind `depth` open brackets, kind `n` closes one more than the kinds up to it open. -/
def Surplus (b : Bracket) (depth : Nat) (ks : List Token.Kind) (n : Nat) : Prop :=
  depth + 1 + b.opened (ks.take (n + 1)) = b.closed (ks.take (n + 1))

theorem surplus_zero (b : Bracket) (depth : Nat) (k : Token.Kind) (ks : List Token.Kind) :
    b.Surplus depth (k :: ks) 0 ↔ k.closes? = some b ∧ depth = 0 := by
  rw [Surplus, List.take_succ_cons, List.take_zero, opened_cons, closed_cons]
  by_cases hc : k.closes? = some b
  · have ho : k.opens? ≠ some b := fun ho => by
      rw [Token.Kind.closes?_of_opens? ho] at hc
      cases hc
    simp [hc, ho, opened, closed]
  · simp only [hc, opened, closed, List.countP_nil, if_false, false_and, iff_false]
    omega

/-- A kind in front moves what is sought by one place, at the depth that it leaves. -/
theorem surplus_succ {depth' : Nat} (h : k.opens? = some b ∧ depth' = depth + 1 ∨
      k.opens? ≠ some b ∧ (k.closes? = some b ∧ depth = depth' + 1 ∨
        k.closes? ≠ some b ∧ depth' = depth)) (ks : List Token.Kind) (n : Nat) :
    b.Surplus depth (k :: ks) (n + 1) ↔ b.Surplus depth' ks n := by
  rw [Surplus, Surplus, List.take_succ_cons, opened_cons, closed_cons]
  rcases h with ⟨ho, rfl⟩ | ⟨ho, ⟨hc, rfl⟩ | ⟨hc, rfl⟩⟩
  · rw [if_pos ho, if_neg (by rw [Token.Kind.closes?_of_opens? ho]; simp)]
    omega
  · rw [if_neg ho, if_pos hc]
    omega
  · rw [if_neg ho, if_neg hc]
    omega

/-- What a kind in front does to what is sought: it is the closer itself, or it leaves another
depth behind. -/
theorem seek_cons_step (b : Bracket) (depth : Nat) (k : Token.Kind) (ks : List Token.Kind) :
    (k.closes? = some b ∧ depth = 0 ∧ b.seek depth (k :: ks) = some 0) ∨
    ¬ b.Surplus depth (k :: ks) 0 ∧ ∃ depth', b.seek depth (k :: ks) = (b.seek depth' ks).map (· + 1) ∧
      ∀ n, b.Surplus depth (k :: ks) (n + 1) ↔ b.Surplus depth' ks n := by
  rw [surplus_zero]
  by_cases ho : k.opens? = some b
  · have hc : k.closes? ≠ some b := by rw [Token.Kind.closes?_of_opens? ho]; simp
    exact Or.inr ⟨fun h => hc h.1, depth + 1, seek_opens ho depth, surplus_succ (Or.inl ⟨ho, rfl⟩) ks⟩
  by_cases hc : k.closes? = some b
  · cases depth with
    | zero => exact Or.inl ⟨hc, rfl, seek_closes_zero hc⟩
    | succ depth =>
      exact Or.inr ⟨fun h => Nat.succ_ne_zero _ h.2, depth, seek_closes_succ hc depth,
        surplus_succ (Or.inr ⟨ho, Or.inl ⟨hc, rfl⟩⟩) ks⟩
  · exact Or.inr ⟨fun h => hc h.1, depth, seek_other ho hc depth,
      surplus_succ (Or.inr ⟨ho, Or.inr ⟨hc, rfl⟩⟩) ks⟩

/-- The closer that is sought is the first kind up to which one bracket more is closed than was
open. -/
theorem seek_eq_some_iff : b.seek depth ks = some n ↔
    n < ks.length ∧ b.Surplus depth ks n ∧ ∀ m < n, ¬ b.Surplus depth ks m := by
  induction ks generalizing depth n with
  | nil => simp [seek]
  | cons k ks ih =>
    rcases seek_cons_step b depth k ks with ⟨hc, rfl, hs⟩ | ⟨hzero, depth', hs, hsucc⟩
    · have hfirst := (surplus_zero b 0 k ks).2 ⟨hc, rfl⟩
      rw [hs]
      constructor
      · rintro ⟨⟩
        exact ⟨Nat.succ_pos _, hfirst, fun m hm => absurd hm (Nat.not_lt_zero m)⟩
      · rintro ⟨_, _, hleast⟩
        rcases Nat.eq_zero_or_pos n with rfl | hpos
        · rfl
        · exact absurd hfirst (hleast 0 hpos)
    · rw [hs, Option.map_eq_some_iff]
      cases n with
      | zero => simp [hzero]
      | succ n =>
        rw [List.length_cons, Nat.add_lt_add_iff_right, hsucc]
        constructor
        · rintro ⟨m, hm, he⟩
          obtain rfl : m = n := Nat.succ.inj he
          obtain ⟨hlt, hn, hleast⟩ := ih.1 hm
          refine ⟨hlt, hn, fun l hl => ?_⟩
          cases l with
          | zero => exact hzero
          | succ l => exact fun h => hleast l (by omega) ((hsucc l).1 h)
        · rintro ⟨hlt, hn, hleast⟩
          exact ⟨n, ih.2 ⟨hlt, hn, fun m hm h => hleast (m + 1) (by omega) ((hsucc m).2 h)⟩, rfl⟩

end Bracket

namespace Token

/-- The kinds of tokens `i` to `j`. -/
def kindsFrom (ts : List Token) (i j : Nat) : List Kind := ((ts.map Token.kind).drop i).take (j + 1 - i)

/-- Token `i` opens a bracket of type `b`, and `j` is the first token behind it such that tokens `i`
to `j` close as many brackets of that type as they open. -/
structure Paired (ts : List Token) (b : Bracket) (i j : Nat) : Prop where
  opens : ∃ t, ts[i]? = some t ∧ t.kind.opens? = some b
  behind : i < j
  inside : j < ts.length
  even : b.Even (kindsFrom ts i j)
  first : ∀ m, i < m → m < j → ¬ b.Even (kindsFrom ts i m)

section
variable {ts : List Token} {t : Token} {b : Bracket} {i j : Nat}

theorem even_iff_surplus (ht : ts[i]? = some t) (hb : t.kind.opens? = some b) (n : Nat) :
    b.Even (kindsFrom ts i (i + 1 + n)) ↔ b.Surplus 0 ((ts.drop (i + 1)).map Token.kind) n := by
  have hi : i < (ts.map Token.kind).length := by
    rw [List.length_map]
    exact (List.getElem?_eq_some_iff.1 ht).1
  have hget : (ts.map Token.kind)[i] = t.kind := by
    rw [List.getElem_map, (List.getElem?_eq_some_iff.1 ht).2]
  rw [kindsFrom, show i + 1 + n + 1 - i = n + 1 + 1 by omega, List.drop_eq_getElem_cons hi, hget,
    List.take_succ_cons, Bracket.Even, Bracket.Surplus, Bracket.opened_cons, Bracket.closed_cons,
    if_pos hb, if_neg (by rw [Kind.closes?_of_opens? hb]; simp), List.map_drop]
  omega

/-- An opener is paired with the closer that is sought from it. -/
theorem paired_iff_seek (ht : ts[i]? = some t) (hb : t.kind.opens? = some b) :
    Paired ts b i j ↔
      (b.seek 0 ((ts.drop (i + 1)).map Token.kind)).map (i + 1 + ·) = some j := by
  rw [Option.map_eq_some_iff]
  constructor
  · intro h
    obtain ⟨n, rfl⟩ := Nat.exists_eq_add_of_le (show i + 1 ≤ j from h.behind)
    have hin := h.inside
    refine ⟨n, Bracket.seek_eq_some_iff.2 ⟨?_, (even_iff_surplus ht hb n).1 h.even, ?_⟩, rfl⟩
    · rw [List.length_map, List.length_drop]
      omega
    · intro m hm hs
      exact h.first (i + 1 + m) (by omega) (by omega) ((even_iff_surplus ht hb m).2 hs)
  · rintro ⟨n, hn, rfl⟩
    obtain ⟨hlt, hs, hfirst⟩ := Bracket.seek_eq_some_iff.1 hn
    rw [List.length_map, List.length_drop] at hlt
    refine ⟨⟨t, ht, hb⟩, by omega, by omega, (even_iff_surplus ht hb n).2 hs, ?_⟩
    intro m him hmj he
    obtain ⟨l, rfl⟩ := Nat.exists_eq_add_of_le (show i + 1 ≤ m from him)
    exact hfirst l (by omega) ((even_iff_surplus ht hb l).1 he)

theorem Paired.exists_seek (h : Paired ts b i j) :
    ∃ n, b.seek 0 ((ts.drop (i + 1)).map Token.kind) = some n ∧ j = i + 1 + n := by
  obtain ⟨t, ht, hb⟩ := h.opens
  obtain ⟨n, hn, he⟩ := Option.map_eq_some_iff.1 ((paired_iff_seek ht hb).1 h)
  exact ⟨n, hn, he.symm⟩

theorem Paired.closes (h : Paired ts b i j) : ∃ t, ts[j]? = some t ∧ t.kind.closes? = some b := by
  obtain ⟨n, hn, rfl⟩ := h.exists_seek
  obtain ⟨k, hk, hcl⟩ := Bracket.closes_of_seek hn
  rw [List.getElem?_map, List.getElem?_drop] at hk
  obtain ⟨t, ht, rfl⟩ := Option.map_eq_some_iff.1 hk
  exact ⟨t, ht, hcl⟩

/-- Pairs of one type do not cross. -/
theorem Paired.nests {i' j' : Nat} (h : Paired ts b i j) (h' : Paired ts b i' j') (hlt : i < i')
    (hin : i' < j) : j' < j := by
  obtain ⟨n, hn, rfl⟩ := h.exists_seek
  obtain ⟨m, hm, rfl⟩ := h'.exists_seek
  obtain ⟨t, ht, hb⟩ := h'.opens
  obtain ⟨p, rfl⟩ := Nat.exists_eq_add_of_le (show i + 1 ≤ i' from hlt)
  have hp : ((ts.drop (i + 1)).map Token.kind)[p]? = some t.kind := by
    rw [List.getElem?_map, List.getElem?_drop, ht]
    rfl
  obtain ⟨q, hq, hlt'⟩ := Bracket.seek_inside hn (by omega) hp hb
  rw [← List.map_drop, List.drop_drop, ← Nat.add_assoc, hm] at hq
  cases hq
  omega

/-- A closer is paired with one opener only. -/
theorem Paired.opener_unique {b' : Bracket} {i' : Nat} (h : Paired ts b i j)
    (h' : Paired ts b' i' j) : i = i' := by
  obtain ⟨t, ht, hb⟩ := h.closes
  obtain ⟨u, hu, hb'⟩ := h'.closes
  obtain rfl : t = u := Option.some.inj (ht.symm.trans hu)
  obtain rfl : b = b' := Option.some.inj (hb.symm.trans hb')
  rcases Nat.lt_trichotomy i i' with hlt | he | hlt
  · exact absurd (h.nests h' hlt h'.behind) (Nat.lt_irrefl j)
  · exact he
  · exact absurd (h'.nests h hlt h.behind) (Nat.lt_irrefl j)

/-- Linking brackets links each opener to the token it is paired with, and nothing else. -/
theorem closer_markBrackets_iff (h : ∀ t ∈ ts, t.closer = none) :
    (markBrackets ts)[i]?.bind Token.closer = some j ↔ ∃ b, Paired ts b i j := by
  have hkind : (markBrackets ts)[i]?.map Token.kind = ts[i]?.map Token.kind :=
    kind_of_unlinked (foldr_bracketed ts 0 h).unlinked i
  constructor
  · intro hj
    obtain ⟨t, ht, hc⟩ := Option.bind_eq_some_iff.1 hj
    obtain ⟨_, b, hb, _⟩ := (foldr_bracketed ts 0 h).closer i t j ht hc
    have hsought := (foldr_sought ts 0).closer i t b ht hb
    rw [ht] at hkind
    obtain ⟨u, hu, huk⟩ := Option.map_eq_some_iff.1 hkind.symm
    rw [hc, Nat.zero_add] at hsought
    exact ⟨b, (paired_iff_seek hu (huk ▸ hb)).2 hsought.symm⟩
  · rintro ⟨b, hp⟩
    obtain ⟨u, hu, hb⟩ := hp.opens
    rw [hu] at hkind
    obtain ⟨t, ht, htk⟩ := Option.map_eq_some_iff.1 hkind
    have hsought := (foldr_sought ts 0).closer i t b ht (htk ▸ hb)
    rw [Nat.zero_add, (paired_iff_seek hu hb).1 hp] at hsought
    exact Option.bind_eq_some_iff.2 ⟨t, ht, hsought⟩

/-- The pair behind a link, with the type that the linked token opens. -/
theorem paired_of_closer (h : ∀ t ∈ ts, t.closer = none) (ht : (markBrackets ts)[i]? = some t)
    (hc : t.closer = some j) : ∃ b, t.kind.opens? = some b ∧ Paired ts b i j := by
  obtain ⟨b, hp⟩ := (closer_markBrackets_iff h).1 (Option.bind_eq_some_iff.2 ⟨t, ht, hc⟩)
  obtain ⟨u, hu, hb⟩ := hp.opens
  have hkind : (markBrackets ts)[i]?.map Token.kind = ts[i]?.map Token.kind :=
    kind_of_unlinked (foldr_bracketed ts 0 h).unlinked i
  rw [ht, hu] at hkind
  exact ⟨b, Option.some.inj hkind ▸ hb, hp⟩

end

/-- The links of a list of tokens without any: each opener gets the first token behind it up to
which its type of bracket is closed as often as it is opened, and no other token gets one. So a link
goes forward to a closer of the opener's type, no two go to the same token, and those of one type
are nested or apart. -/
theorem brackets_link_where_counts_meet (ts : List Token) (h : ∀ t ∈ ts, t.closer = none) :
    (markBrackets ts).map unlinked = ts.map unlinked ∧
    (∀ i j, (markBrackets ts)[i]?.bind Token.closer = some j ↔ ∃ b, Paired ts b i j) ∧
    (∀ (i j : Nat) (t : Token), (markBrackets ts)[i]? = some t → t.closer = some j → i < j ∧
      ∃ (b : Bracket) (u : Token), t.kind.opens? = some b ∧
        (markBrackets ts)[j]? = some u ∧ u.kind.closes? = some b) ∧
    (∀ (i i' j : Nat) (t t' : Token), (markBrackets ts)[i]? = some t → (markBrackets ts)[i']? = some t' →
      t.closer = some j → t'.closer = some j → i = i') ∧
    (∀ (i j i' j' : Nat) (t t' : Token), (markBrackets ts)[i]? = some t → (markBrackets ts)[i']? = some t' →
      t.closer = some j → t'.closer = some j' → t.kind.opens? = t'.kind.opens? →
      i < i' → i' < j → j' < j) := by
  have hsame : (markBrackets ts).map unlinked = ts.map unlinked :=
    (foldr_bracketed ts 0 h).unlinked
  refine ⟨hsame, fun i j => closer_markBrackets_iff h, ?_, ?_, ?_⟩
  · intro i j t ht hc
    obtain ⟨b, hb, hp⟩ := paired_of_closer h ht hc
    obtain ⟨u, hu, hcl⟩ := hp.closes
    have hkind := kind_of_unlinked hsame j
    rw [hu] at hkind
    obtain ⟨v, hv, hvk⟩ := Option.map_eq_some_iff.1 hkind
    exact ⟨hp.behind, b, v, hb, hv, hvk ▸ hcl⟩
  · intro i i' j t t' ht ht' hc hc'
    obtain ⟨b, _, hp⟩ := paired_of_closer h ht hc
    obtain ⟨b', _, hp'⟩ := paired_of_closer h ht' hc'
    exact hp.opener_unique hp'
  · intro i j i' j' t t' ht ht' hc hc' htype
    obtain ⟨b, hb, hp⟩ := paired_of_closer h ht hc
    obtain ⟨b', hb', hp'⟩ := paired_of_closer h ht' hc'
    obtain rfl : b = b' := Option.some.inj (hb.symm.trans (htype.trans hb'))
    exact hp.nests hp'

/-- `) ( [ ( ) ) ] {`: links of two types cross, a closer before every opener is left over, and so
is an opener at the end. -/
theorem brackets_link_in_crossing_types :
    let ts := [Kind.rightParen, .leftParen, .leftSquare, .leftParen, .rightParen, .rightParen,
      .rightSquare, .leftCurly].map fun k => (⟨k, "", .origin, none, none⟩ : Token)
    (∀ t ∈ ts, t.closer = none) ∧
    (markBrackets ts).map Token.closer = [none, some 5, some 6, some 4, none, none, none, none] ∧
    (∃ b, Paired ts b 1 5) ∧ (∃ b, Paired ts b 2 6) ∧ ∀ j, ¬ ∃ b, Paired ts b 7 j := by
  intro ts
  have hnone : ∀ t ∈ ts, t.closer = none := by decide
  have hlinks : (markBrackets ts).map Token.closer =
      [none, some 5, some 6, some 4, none, none, none, none] := by decide
  have hiff := (brackets_link_where_counts_meet ts hnone).2.1
  refine ⟨hnone, hlinks, (hiff 1 5).1 rfl, (hiff 2 6).1 rfl, fun j hp => ?_⟩
  cases (hiff 7 j).2 hp

end Token

end LessCss
