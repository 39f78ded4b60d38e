import LessCss.Text.Quoted
import Mathlib.Logic.Function.Basic
import Mathlib.Tactic.SplitIfs

/-! Reading quoted text back. What stands for a character inside quotes tells the character and
where it ends, so two texts with the same quoted form are the same; and none of it is a line
break. -/

namespace LessCss.Text

/-- A way to put texts in quotes: different texts look different, and none takes more than one
line. -/
structure Quoting (quote : String → String) : Prop where
  injective : Function.Injective quote
  one_line : ∀ s, '\n' ∉ (quote s).toList

/-! ## One character -/

/-- The value of a hexadecimal digit. -/
def digitValue (d : Char) : Nat :=
  if d.isDigit then d.toNat - '0'.toNat else d.toNat - 'a'.toNat + 10

/-- The number that some hexadecimal digits write. -/
def hexValue (ds : List Char) : Nat := ds.foldl (fun n d => 16 * n + digitValue d) 0

/-- Reads what stands for the first character inside quotes. -/
def readEscape? : List Char → Option (Char × List Char)
  | [] => none
  | '\\' :: 'u' :: '\x7b' :: cs =>
    let ds := cs.takeWhile (· ≠ '\x7d')
    some (Char.ofNat (hexValue ds), cs.drop (ds.length + 1))
  | '\\' :: 'n' :: cs => some ('\n', cs)
  | '\\' :: 'r' :: cs => some ('\r', cs)
  | '\\' :: 't' :: cs => some ('\t', cs)
  | '\\' :: '0' :: cs => some ('\x00', cs)
  | '\\' :: c :: cs => some (c, cs)
  | c :: cs => some (c, cs)

theorem digitValue_digitChar : ∀ m < 16, digitValue m.digitChar = m := by decide

theorem hexValue_toDigits (n : Nat) : hexValue (Nat.toDigits 16 n) = n := by
  induction n using Nat.strongRecOn with
  | ind n ih =>
    rw [Nat.toDigits_eq_if (by decide)]
    split
    · next hlt =>
      rw [hexValue, List.foldl_cons, List.foldl_nil, digitValue_digitChar n hlt]
      omega
    · next hle =>
      have hdiv := ih (n / 16) (by omega)
      rw [hexValue] at hdiv
      rw [hexValue, List.foldl_append, hdiv, List.foldl_cons, List.foldl_nil,
        digitValue_digitChar _ (Nat.mod_lt n (by decide))]
      omega

theorem mem_toDigits {n : Nat} {d : Char} (h : d ∈ Nat.toDigits 16 n) :
    ∃ m : Nat, m.digitChar = d := by
  induction n using Nat.strongRecOn with
  | ind n ih =>
    rw [Nat.toDigits_eq_if (by decide)] at h
    split at h
    · exact ⟨n, (List.mem_singleton.1 h).symm⟩
    · next hle =>
      rcases List.mem_append.1 h with h | h
      · exact ih (n / 16) (by omega) h
      · exact ⟨n % 16, (List.mem_singleton.1 h).symm⟩

/-- A digit is neither the brace behind a number nor a line break. -/
theorem ne_of_mem_toDigits {n : Nat} {d : Char} (h : d ∈ Nat.toDigits 16 n) :
    d ≠ '\x7d' ∧ d ≠ '\n' := by
  obtain ⟨m, rfl⟩ := mem_toDigits h
  exact ⟨Nat.digitChar_ne _ (by decide), Nat.digitChar_ne _ (by decide)⟩

section
variable (unprinted : Char → Bool)

/-- What stands for a character can be read back, whatever follows it. -/
theorem readEscape?_escape (c : Char) (rest : List Char) :
    readEscape? (escape unprinted c ++ rest) = some (c, rest) := by
  unfold escape
  split_ifs with hquote hslash hfeed hreturn htab hnull hcontrol
  · subst hquote; rfl
  · subst hslash; rfl
  · subst hfeed; rfl
  · subst hreturn; rfl
  · subst htab; rfl
  · subst hnull; rfl
  · have htake : (Nat.toDigits 16 c.toNat ++ '\x7d' :: rest).takeWhile (· ≠ '\x7d') =
        Nat.toDigits 16 c.toNat := by
      rw [List.takeWhile_append_of_pos fun d hd => by simp [(ne_of_mem_toDigits hd).1]]
      simp
    have hdrop : (Nat.toDigits 16 c.toNat ++ '\x7d' :: rest).drop
        ((Nat.toDigits 16 c.toNat).length + 1) = rest := by
      rw [List.drop_append]
      simp
    have happend : ['\\', 'u', '\x7b'] ++ Nat.toDigits 16 c.toNat ++ ['\x7d'] ++ rest =
        '\\' :: 'u' :: '\x7b' :: (Nat.toDigits 16 c.toNat ++ '\x7d' :: rest) := by simp
    rw [happend, readEscape?, htake, hexValue_toDigits, hdrop, Char.ofNat_toNat]
  · rw [List.singleton_append, readEscape?] <;> simp_all

theorem escape_one_line (c : Char) : '\n' ∉ escape unprinted c := by
  unfold escape
  split_ifs with _ _ hbreak
  iterate 6 · decide
  · intro h
    simp only [List.mem_append, List.mem_cons, List.not_mem_nil, or_false] at h
    rcases h with (h | h) | h
    · revert h
      decide
    · exact (ne_of_mem_toDigits h).2 rfl
    · revert h
      decide
  · exact fun h => hbreak (List.mem_singleton.1 h).symm

/-! ## A text -/

theorem flatMap_escape_injective : Function.Injective (List.flatMap (escape unprinted)) := by
  intro cs
  induction cs with
  | nil =>
    intro ds h
    cases ds with
    | nil => rfl
    | cons d ds =>
      have hread := readEscape?_escape unprinted d (ds.flatMap (escape unprinted))
      rw [← List.flatMap_cons, ← h] at hread
      cases hread
  | cons c cs ih =>
    intro ds h
    have hc := readEscape?_escape unprinted c (cs.flatMap (escape unprinted))
    rw [← List.flatMap_cons, h] at hc
    cases ds with
    | nil => cases hc
    | cons d ds =>
      rw [List.flatMap_cons, readEscape?_escape] at hc
      obtain ⟨rfl, hrest⟩ := Prod.mk.inj (Option.some.inj hc)
      rw [ih hrest.symm]

/-- Double quotes keep texts apart and on one line, whatever has no printed form. -/
theorem quoting_quoteWith : Quoting (quoteWith unprinted) where
  injective s t h := by
    have hlist : '\x22' :: (s.toList.flatMap (escape unprinted) ++ ['\x22']) =
        '\x22' :: (t.toList.flatMap (escape unprinted) ++ ['\x22']) := String.ofList_inj.1 h
    have hbody := List.append_cancel_right (List.cons.inj hlist).2
    exact String.toList_inj.1 (flatMap_escape_injective unprinted hbody)
  one_line s h := by
    rw [quoteWith, String.toList_ofList, List.mem_cons, List.mem_append, List.mem_flatMap] at h
    rcases h with h | ⟨c, _, h⟩ | h
    · revert h
      decide
    · exact escape_one_line unprinted c h
    · revert h
      decide

theorem quoting_quote : Quoting quote := quoting_quoteWith isControl

end

end LessCss.Text
