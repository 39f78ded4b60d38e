import LessCss.Token.Marks

/-! Facts about reading a stream by index. A test that succeeds at a token finds the token inside
the stream, the links of a well-marked stream stay inside it, and the texts of neighbouring
stretches join up. -/

namespace LessCss.Tokens

variable {ts : Tokens} {i j l : Nat} {k : Token.Kind} {ks : List Token.Kind}

/-! ## Tests at one token -/

theorem lt_of_getElem? {t : Token} (h : ts[i]? = some t) : i < ts.size := by
  rcases Nat.lt_or_ge i ts.size with hi | hi
  · exact hi
  · rw [Array.getElem?_eq_none hi] at h
    cases h

theorem lt_of_kind? (h : ts.kind? i = some k) : i < ts.size := by
  obtain ⟨t, ht, _⟩ := Option.map_eq_some_iff.1 h
  exact lt_of_getElem? ht

theorem is_iff : ts.is i k = true ↔ ts.kind? i = some k := by
  simp [is]

theorem lt_of_is (h : ts.is i k = true) : i < ts.size := lt_of_kind? (is_iff.1 h)

theorem isAny_iff : ts.isAny i ks = true ↔ ∃ k ∈ ks, ts.kind? i = some k := by
  unfold isAny
  cases h : ts.kind? i with
  | none => simp
  | some k => simp

theorem lt_of_isAny (h : ts.isAny i ks = true) : i < ts.size := by
  obtain ⟨k, _, hk⟩ := isAny_iff.1 h
  exact lt_of_kind? hk

theorem lt_of_text (h : ts.text i ≠ "") : i < ts.size := by
  rcases Nat.lt_or_ge i ts.size with hi | hi
  · exact hi
  · exact absurd (by simp [text, Array.getElem?_eq_none hi]) h

/-- A single-token measure is a test at that token. -/
theorem toNat_pos {b : Bool} : 0 < b.toNat ↔ b = true := by
  cases b <;> simp

/-- Measures of `n` tokens from token `i` on that stay inside the stream, or cover nothing. -/
abbrev Fits (ts : Tokens) (i n : Nat) : Prop := n = 0 ∨ i + n ≤ ts.size

@[simp] theorem fits_zero (ts : Tokens) (i : Nat) : ts.Fits i 0 := Or.inl rfl

theorem fits_of_le (h : i + j ≤ ts.size) : ts.Fits i j := Or.inr h

theorem fits_toNat {b : Bool} (h : b = true → i < ts.size) : ts.Fits i b.toNat := by
  cases b with
  | false => exact fits_zero ts i
  | true => exact fits_of_le (h rfl)

/-! ## Links -/

theorem is_of_closer? {c : Nat} (h : ts.closer? i k = some c) : ts.is i k = true := by
  obtain ⟨t, ht, hc⟩ := Option.bind_eq_some_iff.1 h
  split at hc
  · next hk => exact is_iff.2 (Option.map_eq_some_iff.2 ⟨t, ht, hk⟩)
  · cases hc

theorem closer_of_closer? {c : Nat} (h : ts.closer? i k = some c) :
    ts[i]?.bind Token.closer = some c := by
  obtain ⟨t, ht, hc⟩ := Option.bind_eq_some_iff.1 h
  split at hc
  · exact Option.bind_eq_some_iff.2 ⟨t, ht, hc⟩
  · cases hc

/-- A closer that can be looked up lies behind its opener and inside the stream. -/
theorem WellMarked.closer_lt (wm : ts.WellMarked) {c : Nat} (h : ts.closer? i k = some c) :
    i < c ∧ c < ts.size := by
  obtain ⟨t, ht, hc⟩ := Option.bind_eq_some_iff.1 (closer_of_closer? h)
  exact wm.closer_mem i t c ht hc

/-! ## Runs of tokens -/

theorem spanEnd_le (h : j ≤ ts.size) : ts.spanEnd ks j ≤ ts.size := by
  fun_induction spanEnd ts ks j with
  | case1 j hj hk ih => exact ih hj
  | case2 => omega
  | case3 => omega

theorem isAny_of_lt_spanEnd (hl : j ≤ l) (h : l < ts.spanEnd ks j) : ts.isAny l ks = true := by
  fun_induction spanEnd ts ks j with
  | case1 j hj hk ih =>
    rcases Nat.eq_or_lt_of_le hl with rfl | hl
    · exact hk
    · exact ih hl h
  | case2 => omega
  | case3 => omega

theorem not_isAny_spanEnd : ts.isAny (ts.spanEnd ks j) ks = false := by
  fun_induction spanEnd ts ks j with
  | case1 j hj hk ih => exact ih
  | case2 j hj hk => simpa using hk
  | case3 j hj =>
    rw [Bool.eq_false_iff]
    exact fun h => hj (lt_of_isAny h)

/-- A run is as long as its tokens go on: it is pinned down by its tokens and the one behind it. -/
theorem spanEnd_eq (hl : j ≤ l) (hin : ∀ m, j ≤ m → m < l → ts.isAny m ks = true)
    (hout : ts.isAny l ks = false) : ts.spanEnd ks j = l := by
  rcases Nat.lt_trichotomy (ts.spanEnd ks j) l with h | h | h
  · have hm := hin _ (le_spanEnd ts ks j) h
    rw [not_isAny_spanEnd] at hm
    cases hm
  · exact h
  · rw [isAny_of_lt_spanEnd hl h] at hout
    cases hout

theorem lt_spanEnd (h : ts.isAny j ks = true) : j < ts.spanEnd ks j := by
  refine Nat.lt_of_le_of_ne (le_spanEnd ts ks j) fun he => ?_
  have hout : ts.isAny (ts.spanEnd ks j) ks = false := not_isAny_spanEnd
  rw [← he, h] at hout
  cases hout

theorem spanEnd_eq_self (h : ts.isAny j ks = false) : ts.spanEnd ks j = j :=
  spanEnd_eq (Nat.le_refl j) (fun _ hm hm' => absurd hm' (Nat.not_lt_of_le hm)) h

/-- From further on in a run it goes up to the same end. -/
theorem spanEnd_of_run (hl : j ≤ l) (hin : ∀ m, j ≤ m → m < l → ts.isAny m ks = true) :
    ts.spanEnd ks j = ts.spanEnd ks l := by
  refine spanEnd_eq (Nat.le_trans hl (le_spanEnd ts ks l)) (fun m hm hm' => ?_) not_isAny_spanEnd
  rcases Nat.lt_or_ge m l with h | h
  · exact hin m hm h
  · exact isAny_of_lt_spanEnd h hm'

/-! ## Stretches -/

theorem extract_append (hij : i ≤ j) (hjl : j ≤ l) :
    ts.extract i j ++ ts.extract j l = ts.extract i l := by
  rw [Array.extract_append_extract, Nat.min_eq_left hij, Nat.max_eq_right hjl]

theorem extract_single {t : Token} (ht : ts[i]? = some t) : ts.extract i (i + 1) = #[t] := by
  have hi := lt_of_getElem? ht
  apply Array.ext
  · simp; omega
  · intro m hm hm'
    simp at hm hm'
    subst hm'
    simpa [hi] using ht

theorem mem_extract {t : Token} (h : t ∈ (ts.extract i j).toList) :
    ∃ m, i ≤ m ∧ m < j ∧ ts[m]? = some t := by
  obtain ⟨m, hm, rfl⟩ := List.getElem_of_mem h
  simp only [Array.length_toList, Array.size_extract] at hm
  exact ⟨i + m, by omega, by omega, by simp⟩

/-! ## Joined texts -/

theorem join_self (i : Nat) : ts.join i i = "" := by
  simp [join]

theorem join_append (hij : i ≤ j) (hjl : j ≤ l) : ts.join i j ++ ts.join j l = ts.join i l := by
  unfold join
  rw [← String.join_append, ← List.map_append, ← Array.toList_append, extract_append hij hjl]

theorem join_succ (i : Nat) : ts.join i (i + 1) = ts.text i := by
  unfold join text
  rcases Nat.lt_or_ge i ts.size with hi | hi
  · simp [extract_single (Array.getElem?_eq_getElem hi), hi]
  · simp [Array.extract_empty_of_size_le_start hi, Array.getElem?_eq_none hi]

end LessCss.Tokens
