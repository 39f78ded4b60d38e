import LessCss.Proofs.Lexing.Longest
import LessCss.Proofs.Spelling
import Mathlib.Data.List.TakeWhile

/-! Cutting a source in a single pass. The pass goes from left to right and takes at each place the
longest lexeme of all that is left; in an address it takes two slashes one by one and goes on right
behind them. The lexer cuts up the rest of such a line on its own, so the two agree exactly where no
string or comment runs over the end of the line: the first line break behind the slashes has to be a
lexeme of its own. -/

namespace LessCss

namespace Lexeme

/-- A slash on its own. -/
def slash : Lexeme := ⟨.slash, ['/']⟩

/-- The lexemes of a text, cut off one after the other. `url` says that two slashes start no
comment. -/
inductive SinglePass : Bool → List Char → List Lexeme → Prop
  | done {url : Bool} : SinglePass url [] []
  | slashes {cs : List Char} {xs : List Lexeme} (rest : SinglePass true cs xs) :
    SinglePass true ('/' :: '/' :: cs) (slash :: slash :: xs)
  | lexeme {url : Bool} {text cs : List Char} {x : Lexeme} {xs : List Lexeme}
    (plain : ¬ (url = true ∧ ['/', '/'] <+: text)) (longest : Longest text x)
    (cut : text = x.chars ++ cs) (rest : SinglePass (urlAfter url x) cs xs) :
    SinglePass url text (x :: xs)

/-- Whether the lexeme holds a line break. -/
def breaks (x : Lexeme) : Bool := x.chars.any isBreak

/-- The first line break in the lexemes is a lexeme of its own. -/
def LineEnds (xs : List Lexeme) : Prop := ∀ x, xs.find? breaks = some x → x.kind = .newline

/-- Behind two slashes that start no comment, the first line break is a lexeme of its own. -/
def Aligned (url : Bool) : List Lexeme → Prop
  | [] => True
  | x :: xs =>
    (url = true → x.kind = .slash → xs.head?.map Lexeme.kind = some .slash → LineEnds xs) ∧
      Aligned (urlAfter url x) xs

/-! ## The pass as a function -/

theorem not_admits_nil (k : Token.Kind) : ¬ Admits k [] := by
  cases k <;> simp [Admits]

theorem Longest.ne_nil {cs : List Char} {x : Lexeme} (h : Longest cs x) : x.chars ≠ [] := by
  obtain ⟨k, w⟩ := x
  rintro rfl
  cases h.starts with
  | token admits _ => exact not_admits_nil k admits
  | unclosed text _ => cases text

theorem front_append_drop (c : Char) (cs : List Char) :
    (front c cs).chars ++ cs.drop (munch c cs).2 = c :: cs := by
  rw [front, List.cons_append, List.take_append_drop]

theorem munch_lineComment_iff {c : Char} {cs : List Char} :
    (munch c cs).1 = .lineComment ↔ ['/', '/'] <+: c :: cs := by
  constructor
  · intro h
    obtain ⟨rfl, line, rfl, _⟩ := munch_lineComment h
    exact ⟨line, rfl⟩
  · rintro ⟨line, he⟩
    cases he
    rfl

/-- The lexemes that a single pass takes. -/
def pass (url : Bool) : List Char → List Lexeme
  | [] => []
  | c :: cs =>
    if url = true ∧ (munch c cs).1 = .lineComment then slash :: slash :: pass url (cs.drop 1)
    else front c cs :: pass (urlAfter url (front c cs)) (cs.drop (munch c cs).2)
termination_by cs => cs.length
decreasing_by all_goals simp only [List.length_drop, List.length_cons]; omega

theorem pass_slashes (cs : List Char) :
    pass true ('/' :: '/' :: cs) = slash :: slash :: pass true cs := by
  rw [pass, if_pos ⟨rfl, rfl⟩]
  rfl

theorem pass_front {url : Bool} {c : Char} {cs : List Char}
    (h : ¬ (url = true ∧ ['/', '/'] <+: c :: cs)) :
    pass url (c :: cs) =
      front c cs :: pass (urlAfter url (front c cs)) (cs.drop (munch c cs).2) := by
  rw [pass, if_neg (by rwa [munch_lineComment_iff])]

theorem pass_singlePass (url : Bool) (cs : List Char) : SinglePass url cs (pass url cs) := by
  fun_induction pass url cs with
  | case1 url => exact .done
  | case2 url c cs h ih =>
    obtain ⟨rfl, hk⟩ := h
    obtain ⟨line, he⟩ := munch_lineComment_iff.1 hk
    cases he
    exact .slashes ih
  | case3 url c cs h ih =>
    rw [munch_lineComment_iff] at h
    exact .lexeme h (longest_iff.2 rfl) (front_append_drop c cs).symm ih

theorem SinglePass.eq_pass {url : Bool} {cs : List Char} {xs : List Lexeme}
    (h : SinglePass url cs xs) : xs = pass url cs := by
  induction h with
  | done => rw [pass]
  | slashes rest ih =>
    rw [pass_slashes, ih]
  | @lexeme url text cs x xs plain longest cut rest ih =>
    cases text with
    | nil => exact absurd (List.append_eq_nil_iff.1 cut.symm).1 longest.ne_nil
    | cons c text =>
      cases longest_iff.1 longest
      rw [← front_append_drop c text] at cut
      rw [pass_front plain, ih, List.append_cancel_left cut]

/-- There is one way to cut a text in a single pass. -/
theorem singlePass_iff {url : Bool} {cs : List Char} {xs : List Lexeme} :
    SinglePass url cs xs ↔ xs = pass url cs :=
  ⟨SinglePass.eq_pass, fun h => h ▸ pass_singlePass url cs⟩

/-! ## Cutting a text in two -/

/-- A longest lexeme that stands in the first part of a text is the longest one there. -/
theorem Longest.within {a b : List Char} {x : Lexeme} (h : Longest (a ++ b) x)
    (hx : x.chars.length ≤ a.length) : Longest a x := by
  have hstarts : Starts a x := by
    cases h.starts with
    | token admits front =>
      exact .token admits (List.prefix_of_prefix_length_le front (List.prefix_append a b) hx)
    | @unclosed body text unclosed =>
      have hb : b = [] := by
        rw [List.length_append] at hx
        exact List.eq_nil_of_length_eq_zero (by omega)
      subst hb
      rw [List.append_nil] at text ⊢
      exact .unclosed text unclosed
  refine ⟨hstarts, fun y hy => ?_⟩
  cases hy with
  | token admits front => exact h.longest _ (.token admits (front.trans (List.prefix_append a b)))
  | @unclosed body text unclosed =>
    subst text
    by_cases hc : Closes (body ++ b)
    · -- the end mark would stand behind the first part
      obtain ⟨n, hn⟩ := Option.ne_none_iff_exists'.1
        (mt (commentReach?_eq_none_iff (body ++ b)).1 (not_not_intro hc))
      obtain ⟨inner, hi, hno⟩ := closed_take hn
      have hfront : inner ++ ['*', '/'] <+: body ++ b := hi ▸ List.take_prefix n _
      have hlen := h.longest _ (.token (k := .blockComment) ⟨inner, rfl, hno⟩
        (List.cons_prefix_cons.2 ⟨rfl, List.cons_prefix_cons.2 ⟨rfl, hfront⟩⟩))
      simp only [List.length_cons] at hlen hx
      have hin := List.prefix_of_prefix_length_le hfront (List.prefix_append body b) (by omega)
      exact absurd ((List.suffix_append inner _).isInfix.trans hin.isInfix) unclosed
    · have hlen := h.longest _ (.unclosed rfl hc)
      simp only [List.length_append, List.length_cons] at hlen ⊢
      omega

/-- How a pass takes its first lexeme. -/
theorem SinglePass.cons_cases {url : Bool} {text : List Char} {x : Lexeme} {l : List Lexeme}
    (h : SinglePass url text (x :: l)) :
    (∃ cs xs, url = true ∧ text = '/' :: '/' :: cs ∧ x = slash ∧ l = slash :: xs ∧
      SinglePass true cs xs) ∨
    ∃ cs, ¬ (url = true ∧ ['/', '/'] <+: text) ∧ Longest text x ∧ text = x.chars ++ cs ∧
      SinglePass (urlAfter url x) cs l := by
  cases h with
  | slashes rest => exact Or.inl ⟨_, _, rfl, rfl, rfl, rfl, rest⟩
  | lexeme plain longest cut rest => exact Or.inr ⟨_, plain, longest, cut, rest⟩

/-- A single pass that comes by the end of a line is one over the line, and one from there on. -/
theorem SinglePass.split {url : Bool} {a b : List Char} {ys zs : List Lexeme}
    (h : SinglePass url (a ++ b) (ys ++ zs)) (ha : ys.flatMap Lexeme.chars = a)
    (hb : ∀ d ∈ b.head?, isBreak d = true) :
    SinglePass url a ys ∧ SinglePass (ys.foldl urlAfter url) b zs := by
  generalize hn : ys.length = n
  induction n using Nat.strongRecOn generalizing url a ys with
  | ind n ih =>
    cases ys with
    | nil =>
      subst ha
      exact ⟨.done, h⟩
    | cons y ys =>
      subst ha hn
      rw [List.flatMap_cons, List.append_assoc] at h
      rcases h.cons_cases with
        ⟨cs, xs, rfl, htext, rfl, hl, hrest⟩ | ⟨cs, hplain, hlong, htext, hrest⟩
      · obtain ⟨-, htext⟩ := List.cons.inj htext
        cases ys with
        | nil =>
          -- the second slash is no line break
          have hslash : b = '/' :: cs := htext
          exact absurd (hb '/' (by rw [hslash]; rfl)) (by decide)
        | cons z ys =>
          obtain ⟨rfl, rfl⟩ := List.cons.inj hl
          obtain ⟨-, rfl⟩ := List.cons.inj htext
          have hlen : ys.length < (slash :: slash :: ys).length := by
            simp only [List.length_cons]
            omega
          obtain ⟨hline, hbehind⟩ := ih ys.length hlen hrest rfl rfl
          exact ⟨.slashes hline, hbehind⟩
      · have hcs := List.append_cancel_left htext
        subst hcs
        obtain ⟨hline, hbehind⟩ := ih ys.length (by simp) hrest rfl rfl
        rw [← List.append_assoc] at hplain hlong
        refine ⟨.lexeme (fun hs => hplain ⟨hs.1, hs.2.trans (List.prefix_append _ b)⟩)
          (hlong.within (by simp)) rfl hline, hbehind⟩

/-! ## Line breaks -/

/-- Lexemes that start with a line break are newlines, and no others are. -/
def Lined (x : Lexeme) : Prop := x.kind = .newline ↔ ∃ c ∈ x.chars.head?, isBreak c = true

theorem munch_newline_iff (c : Char) (cs : List Char) :
    (munch c cs).1 = .newline ↔ isBreak c = true := by
  constructor
  · intro h
    have hstarts := front_starts c cs
    generalize hx : front c cs = x at hstarts
    cases hstarts with
    | @token k w admits _ =>
      obtain ⟨rfl, rfl⟩ := Lexeme.mk.inj hx
      rw [h] at admits
      rcases admits with he | he | he <;> rw [(List.cons.inj he).1] <;> rfl
    | unclosed _ _ =>
      have hk := (Lexeme.mk.inj hx).1
      rw [h] at hk
      cases hk
  · intro h
    rcases Bool.or_eq_true_iff.1 h with h | h <;> rw [of_decide_eq_true h] <;> rfl

theorem front_lined (c : Char) (cs : List Char) : (front c cs).Lined := by
  rw [Lined, front, munch_newline_iff]
  simp

theorem slash_lined : slash.Lined := by
  refine iff_of_false (by decide) ?_
  rintro ⟨c, hc, hb⟩
  cases hc
  cases hb

/-- What holds of a slash and of all that is cut off, holds of what a pass takes. -/
theorem pass_all {P : Lexeme → Prop} (hslash : P slash) (hfront : ∀ c cs, P (front c cs))
    (url : Bool) (cs : List Char) : ∀ x ∈ pass url cs, P x := by
  fun_induction pass url cs with
  | case1 url => exact fun x hx => absurd hx List.not_mem_nil
  | case2 url c cs h ih =>
    exact List.forall_mem_cons.2 ⟨hslash, List.forall_mem_cons.2 ⟨hslash, ih⟩⟩
  | case3 url c cs h ih => exact List.forall_mem_cons.2 ⟨hfront c cs, ih⟩

theorem pass_lined (url : Bool) (cs : List Char) : ∀ x ∈ pass url cs, x.Lined :=
  pass_all slash_lined front_lined url cs

theorem pass_ne_nil (url : Bool) (cs : List Char) : ∀ x ∈ pass url cs, x.chars ≠ [] :=
  pass_all (List.cons_ne_nil _ _) (fun _ _ => List.cons_ne_nil _ _) url cs

theorem pass_chars (url : Bool) (cs : List Char) : (pass url cs).flatMap Lexeme.chars = cs := by
  fun_induction pass url cs with
  | case1 url => rfl
  | case2 url c cs h ih =>
    obtain ⟨line, he⟩ := munch_lineComment_iff.1 h.2
    cases he
    rw [List.flatMap_cons, List.flatMap_cons, ih]
    rfl
  | case3 url c cs h ih => rw [List.flatMap_cons, ih, front_append_drop]

theorem breaks_eq_false {x : Lexeme} (h : ∀ c ∈ x.chars, isBreak c = false) : x.breaks = false := by
  rw [breaks, List.any_eq_false]
  exact fun c hc => by rw [h c hc]; exact Bool.false_ne_true

section
variable {xs ys zs : List Lexeme} {line after : List Char}

theorem breaks_of_flatMap (hline : ∀ c ∈ ys.flatMap Lexeme.chars, isBreak c = false) :
    ∀ y ∈ ys, y.breaks = false := fun y hy =>
  breaks_eq_false fun c hc => hline c (List.mem_flatMap.2 ⟨y, hy, hc⟩)

/-- Behind a stretch without line breaks that ends where a line ends, comes a newline. -/
theorem lineEnds_append (hy : ∀ y ∈ ys, y.breaks = false)
    (hz : ∀ z ∈ zs.head?, z.kind = .newline ∧ z.breaks = true) : LineEnds (ys ++ zs) := by
  have hnone : ys.find? breaks = none := List.find?_eq_none.2 fun y h => by rw [hy y h]; decide
  intro x hx
  rw [List.find?_append, hnone, Option.none_or] at hx
  cases zs with
  | nil => cases hx
  | cons z zs =>
    obtain ⟨hk, hb⟩ := hz z rfl
    rw [List.find?_cons_of_pos hb] at hx
    cases hx
    exact hk

/-- The lexemes behind the end of a line start with a newline. -/
theorem head_newline (hl : ∀ z ∈ zs, z.Lined) (hne : ∀ z ∈ zs, z.chars ≠ [])
    (hafter : ∀ d ∈ (zs.flatMap Lexeme.chars).head?, isBreak d = true) :
    ∀ z ∈ zs.head?, z.kind = .newline ∧ z.breaks = true := by
  intro z hz
  cases zs with
  | nil => cases hz
  | cons z' zs =>
    cases hz
    have hz := hne z List.mem_cons_self
    have hhead := List.head?_eq_some_head hz
    have hbreak := hafter (z.chars.head hz) (by
      rw [List.flatMap_cons, List.head?_append_of_ne_nil _ hz]
      exact hhead)
    refine ⟨(hl z List.mem_cons_self).2 ⟨_, hhead, hbreak⟩, ?_⟩
    exact List.any_eq_true.2 ⟨_, List.head_mem hz, hbreak⟩

/-- Only one cut of a text has no line break before it and one right behind it. -/
theorem takeWhile_line (hline : ∀ c ∈ line, isBreak c = false)
    (hafter : ∀ d ∈ after.head?, isBreak d = true) :
    (line ++ after).takeWhile (fun c => !isBreak c) = line := by
  rw [List.takeWhile_append_of_pos (by simpa using hline)]
  cases after with
  | nil => simp
  | cons d after => rw [List.takeWhile_cons_of_neg (by simp [hafter d rfl]), List.append_nil]

/-- Where the first line break is a lexeme of its own, a cut goes by the end of the line. -/
theorem LineEnds.exists_cut (h : LineEnds xs) (hl : ∀ x ∈ xs, x.Lined)
    (hx : xs.flatMap Lexeme.chars = line ++ after) (hline : ∀ c ∈ line, isBreak c = false)
    (hafter : ∀ d ∈ after.head?, isBreak d = true) :
    ∃ ys zs, xs = ys ++ zs ∧ ys.flatMap Lexeme.chars = line := by
  refine ⟨xs.takeWhile (!breaks ·), xs.dropWhile (!breaks ·), List.takeWhile_append_dropWhile.symm,
    ?_⟩
  have hbefore : ∀ c ∈ (xs.takeWhile (!breaks ·)).flatMap Lexeme.chars, isBreak c = false := by
    intro c hc
    obtain ⟨x, hx, hc⟩ := List.mem_flatMap.1 hc
    have hb := List.all_eq_true.1 List.all_takeWhile x hx
    rw [Bool.not_eq_true', breaks, List.any_eq_false] at hb
    exact Bool.eq_false_iff.2 (hb c hc)
  have hbehind : ∀ d ∈ ((xs.dropWhile (!breaks ·)).flatMap Lexeme.chars).head?,
      isBreak d = true := by
    intro d hd
    cases hz : xs.dropWhile (!breaks ·) with
    | nil =>
      rw [hz] at hd
      cases hd
    | cons z zs =>
      have hfind : xs.find? breaks = some z := by
        rw [List.find?_eq_head?_dropWhile_not, hz]
        rfl
      have hz' : z ∈ xs := List.mem_of_find?_eq_some hfind
      obtain ⟨c, hc, hb⟩ := (hl z hz').1 (h z hfind)
      rw [hz, List.flatMap_cons, List.head?_append, hc, Option.some_or] at hd
      cases hd
      exact hb
  rw [← takeWhile_line hline hafter, ← hx, ← takeWhile_line hbefore hbehind, ← List.flatMap_append,
    List.takeWhile_append_dropWhile]

/-- The first line break of a line without one is that of what comes behind it, a newline if
anything. -/
theorem aligned_append (url : Bool) (hy : ∀ y ∈ ys, y.breaks = false)
    (hz : ∀ z ∈ zs.head?, z.kind = .newline ∧ z.breaks = true) :
    Aligned url (ys ++ zs) ↔ Aligned (ys.foldl urlAfter url) zs := by
  induction ys generalizing url with
  | nil => rfl
  | cons y ys ih =>
    have hys := (List.forall_mem_cons.1 hy).2
    rw [List.cons_append, Aligned, ih _ hys, List.foldl_cons, and_iff_right]
    exact fun _ _ _ => lineEnds_append hys hz

theorem aligned_of_breaks (url : Bool) (hy : ∀ y ∈ ys, y.breaks = false) : Aligned url ys := by
  have hnone : ∀ z ∈ ([] : List Lexeme).head?, z.kind = .newline ∧ z.breaks = true := nofun
  rw [← List.append_nil ys, aligned_append url hy hnone]
  trivial

theorem lineEnds_cons_slash : LineEnds (slash :: xs) ↔ LineEnds xs := by
  rw [LineEnds, LineEnds, List.find?_cons_of_neg (by decide)]

/-- Two slashes in an address ask for one thing only of the lexemes behind them. -/
theorem aligned_slashes : Aligned true (slash :: slash :: xs) ↔ LineEnds xs ∧ Aligned true xs := by
  have hurl : urlAfter true slash = true := rfl
  rw [Aligned, Aligned, hurl, hurl, lineEnds_cons_slash]
  constructor
  · rintro ⟨hline, -, hrest⟩
    exact ⟨hline rfl rfl rfl, hrest⟩
  · rintro ⟨hline, hrest⟩
    exact ⟨fun _ _ _ => hline, fun _ _ _ => hline, hrest⟩

end

/-! ## The two ways of cutting -/

theorem cut_slashes {line after : List Char} (hline : ∀ c ∈ line, isBreak c = false)
    (hafter : ∀ d ∈ after.head?, isBreak d = true) :
    cut true ('/' :: '/' :: (line ++ after)) =
      (slash :: slash :: ((cut true line).1 ++ (cut (cut true line).2 after).1),
        (cut (cut true line).2 after).2) := by
  have hreach : reachWhile (fun c => !isBreak c) (line ++ after) = line.length := by
    rw [reachWhile, takeWhile_line hline hafter]
  have hm : munch '/' ('/' :: (line ++ after)) = (.lineComment, line.length + 1) := by
    change munchSlash ('/' :: (line ++ after)) = _
    rw [munchSlash, hreach]
  rw [cut, hm]
  simp [slash]

theorem cut_front {url : Bool} {c : Char} {cs : List Char}
    (h : ¬ (url = true ∧ ['/', '/'] <+: c :: cs)) :
    cut url (c :: cs) =
      (front c cs :: (cut (urlAfter url (front c cs)) (cs.drop (munch c cs).2)).1,
        (cut (urlAfter url (front c cs)) (cs.drop (munch c cs).2)).2) := by
  rw [← munch_lineComment_iff, and_comm] at h
  rw [cut]
  dsimp only
  rw [if_neg h]
  rfl

/-- Texts, in the order in which they are cut: two slashes in an address, then the rest of the line
and what comes behind it; and else a lexeme and what comes behind that. -/
theorem cut_induction {motive : Bool → List Char → Prop} (nil : ∀ url, motive url [])
    (slashes : ∀ line after, (∀ c ∈ line, isBreak c = false) →
      (∀ d ∈ after.head?, isBreak d = true) → motive true line → (∀ url, motive url after) →
      motive true ('/' :: '/' :: (line ++ after)))
    (lexeme : ∀ url c cs, ¬ (url = true ∧ ['/', '/'] <+: c :: cs) →
      motive (urlAfter url (front c cs)) (cs.drop (munch c cs).2) → motive url (c :: cs))
    (url : Bool) (cs : List Char) : motive url cs := by
  generalize hn : cs.length = n
  induction n using Nat.strongRecOn generalizing url cs with
  | ind n ih =>
    subst hn
    match cs with
    | [] => exact nil url
    | c :: cs =>
      by_cases h : url = true ∧ ['/', '/'] <+: c :: cs
      · obtain ⟨rfl, text, he⟩ := h
        obtain ⟨rfl, rfl⟩ : '/' = c ∧ '/' :: text = cs := List.cons.inj he
        have hsplit := List.takeWhile_append_dropWhile (p := fun c => !isBreak c) (l := text)
        have hlen := congrArg List.length hsplit
        rw [List.length_append] at hlen
        rw [← hsplit]
        refine slashes _ _ (fun c hc => ?_) (fun d hd => ?_) (ih _ ?_ _ _ rfl)
          (fun url => ih _ ?_ _ _ rfl)
        · simpa using List.all_eq_true.1 List.all_takeWhile c hc
        · have hbreak := List.head?_dropWhile_not (fun c => !isBreak c) text
          rw [hd] at hbreak
          simpa using hbreak
        · simp only [List.length_cons]
          omega
        · simp only [List.length_cons]
          omega
      · refine lexeme url c cs h (ih _ ?_ _ _ rfl)
        simp only [List.length_drop, List.length_cons]
        omega

/-- The flag comes out as the lexemes set it. -/
theorem cut_snd (url : Bool) (cs : List Char) :
    (cut url cs).2 = (cut url cs).1.foldl urlAfter url := by
  induction url, cs using cut_induction with
  | nil url => rw [cut]; rfl
  | slashes line after hline hafter ihline ihafter =>
    rw [cut_slashes hline hafter]
    dsimp only
    rw [List.foldl_cons, List.foldl_cons, List.foldl_append, ihafter, ihline]
    rfl
  | lexeme url c cs h ih =>
    rw [cut_front h]
    exact ih

theorem front_slash {c : Char} {cs : List Char} (h : (front c cs).kind = .slash) :
    c = '/' ∧ cs.drop (munch c cs).2 = cs := by
  have hc := (munch_proper c cs).punctuation '/' (by rw [show (munch c cs).1 = _ from h]; rfl)
  have hrest := front_append_drop c cs
  rw [front, hc] at hrest
  obtain ⟨hslash, hcs⟩ := List.cons.inj hrest
  exact ⟨hslash.symm, hcs⟩

/-- A slash that stands alone in an address has no slash behind it. -/
theorem pass_head_ne_slash {url : Bool} {c : Char} {cs : List Char}
    (h : ¬ ['/', '/'] <+: c :: cs) (hk : (front c cs).kind = .slash) :
    (pass url (cs.drop (munch c cs).2)).head?.map Lexeme.kind ≠ some .slash := by
  obtain ⟨rfl, hcs⟩ := front_slash hk
  rw [hcs]
  cases cs with
  | nil =>
    rw [pass]
    exact nofun
  | cons d cs =>
    have hd : d ≠ '/' := fun hd => h (by rw [hd]; exact ⟨cs, rfl⟩)
    have hno : ¬ (url = true ∧ ['/', '/'] <+: d :: cs) := fun hp =>
      hd (List.cons_prefix_cons.1 hp.2).1.symm
    rw [pass_front hno]
    exact fun hhead => hd (front_slash (Option.some.inj hhead)).1

/-- What a pass that comes by the end of a line takes on the line, and behind it. -/
theorem pass_line {url : Bool} {line after : List Char} {ys zs : List Lexeme}
    (hpass : pass url (line ++ after) = ys ++ zs) (hys : ys.flatMap Lexeme.chars = line)
    (hline : ∀ c ∈ line, isBreak c = false) (hafter : ∀ d ∈ after.head?, isBreak d = true) :
    ys = pass url line ∧ zs = pass (ys.foldl urlAfter url) after ∧ Aligned url ys ∧
      LineEnds (ys ++ zs) ∧ (Aligned url (ys ++ zs) ↔ Aligned (ys.foldl urlAfter url) zs) := by
  obtain ⟨honline, hbehind⟩ := (singlePass_iff.2 hpass.symm).split hys hafter
  have hzs := hbehind.eq_pass
  have hclear : ∀ y ∈ ys, y.breaks = false := breaks_of_flatMap (by rwa [hys])
  have hhead : ∀ z ∈ zs.head?, z.kind = .newline ∧ z.breaks = true := by
    rw [hzs]
    exact head_newline (pass_lined _ after) (pass_ne_nil _ after) (by rwa [pass_chars])
  exact ⟨honline.eq_pass, hzs, aligned_of_breaks url hclear, lineEnds_append hclear hhead,
    aligned_append url hclear hhead⟩

/-- Cutting is a single pass where, behind the slashes in an address, the first line break is a
lexeme of its own, and nowhere else. -/
theorem cut_eq_pass_iff (url : Bool) (cs : List Char) :
    (cut url cs).1 = pass url cs ↔ Aligned url (pass url cs) := by
  induction url, cs using cut_induction with
  | nil url =>
    rw [cut, pass]
    exact iff_of_true rfl trivial
  | slashes line after hline hafter ihline ihafter =>
    rw [cut_slashes hline hafter, pass_slashes, aligned_slashes]
    simp only [List.cons.injEq, true_and]
    constructor
    · intro heq
      obtain ⟨-, hzs, -, hends, halign⟩ :=
        pass_line heq.symm (cut_spells true line).chars hline hafter
      rw [← heq, halign, ← cut_snd]
      rw [← cut_snd] at hzs
      refine ⟨hends, ?_⟩
      rw [hzs]
      exact (ihafter _).1 hzs
    · rintro ⟨hends, haligned⟩
      obtain ⟨ys, zs, hxs, hchars⟩ := hends.exists_cut (pass_lined true _) (pass_chars true _)
        hline hafter
      obtain ⟨hys, hzs, hclear, -, halign⟩ := pass_line hxs hchars hline hafter
      have hcut : (cut true line).1 = ys := by
        rw [ihline.2 (hys ▸ hclear), hys]
      rw [hxs, halign, hzs] at haligned
      rw [hxs, cut_snd, hcut, (ihafter _).2 haligned, ← hzs]
  | lexeme url c cs h ih =>
    rw [cut_front h, pass_front h, Aligned, ← ih, and_iff_right]
    · simp
    · intro hu hk hhead
      exact absurd hhead (pass_head_ne_slash (fun hp => h ⟨hu, hp⟩) hk)

end Lexeme

/-- The kind and the characters of a token. -/
def Token.lexeme (t : Token) : Lexeme := ⟨t.kind, t.text.toList⟩

theorem Token.lex_lexemes (source : String) :
    (lex source).toList.map lexeme = Lexeme.ofSource source := by
  have hplace := place_map lexeme id .origin (Lexeme.ofSource source) fun x _ => by
    rw [lexeme, String.toList_ofList]
    rfl
  rw [lex_map source lexeme fun _ => rfl, hplace, List.map_id]

/-- A source can be cut in a single pass in one way. The tokens of the source are that cut where,
behind the slashes in an address, the first line break is a token of its own, and nowhere else. -/
theorem lex_is_single_pass (source : String) :
    ∃ xs, (∀ ys, Lexeme.SinglePass false source.toList ys ↔ ys = xs) ∧
      ((Token.lex source).toList.map Token.lexeme = xs ↔ Lexeme.Aligned false xs) := by
  refine ⟨Lexeme.pass false source.toList, fun ys => Lexeme.singlePass_iff, ?_⟩
  rw [Token.lex_lexemes]
  exact Lexeme.cut_eq_pass_iff false source.toList

/-- In an address a block comment behind two slashes is cut off at the end of the line. -/
theorem comment_in_address_is_cut_in_two :
    ¬ Lexeme.SinglePass false "url(//a/*b\n*/)".toList
      ((Token.lex "url(//a/*b\n*/)").toList.map Token.lexeme) := by
  rw [Lexeme.singlePass_iff, Token.lex_lexemes]
  decide +kernel

end LessCss
