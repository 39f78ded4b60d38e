/-! Small operations on text that the grammar needs: taking a known opening or closing mark off a
text, and looking for a word inside one. Each works on the list of characters, so that the lemmas
about lists apply directly. -/

namespace LessCss.Text

/-- The text without the mark `m` in front of it; a text that does not start with `m` is kept. -/
def dropFront (m s : String) : String :=
  if m.toList.isPrefixOf s.toList then String.ofList (s.toList.drop m.toList.length) else s

/-- The text without the mark `m` at its end; a text that does not end with `m` is kept. -/
def dropBack (m s : String) : String :=
  if m.toList.isSuffixOf s.toList then
    String.ofList (s.toList.take (s.toList.length - m.toList.length))
  else s

/-- Whether the characters `w` stand somewhere, in one piece, in a list of characters. -/
def occurs (w : List Char) : List Char → Bool
  | [] => w.isEmpty
  | c :: cs => w.isPrefixOf (c :: cs) || occurs w cs

/-- Whether the word `w` stands somewhere in the text `s`. -/
def contains (w s : String) : Bool := occurs w.toList s.toList

/-- The text with its first character in lower case. -/
def decapitalize (s : String) : String :=
  match s.toList with
  | [] => ""
  | c :: cs => String.ofList (c.toLower :: cs)

/-- The text with all ASCII letters in lower case. -/
def lowercase (s : String) : String := String.ofList (s.toList.map Char.toLower)

/-- The mark comes off exactly when it is there. -/
theorem dropFront_append (m s : String) : dropFront m (m ++ s) = s := by
  simp [dropFront]

theorem dropBack_append (m s : String) : dropBack m (s ++ m) = s := by
  simp [dropBack]

/-- A word occurs in a list of characters exactly when the list splits around it. -/
theorem occurs_iff (w cs : List Char) : occurs w cs = true ↔ ∃ a b, cs = a ++ w ++ b := by
  induction cs with
  | nil =>
    constructor
    · intro h
      exact ⟨[], [], by simp_all [occurs]⟩
    · rintro ⟨a, b, h⟩
      simp_all [occurs]
  | cons c cs ih =>
    simp only [occurs, Bool.or_eq_true, List.isPrefixOf_iff_prefix, ih]
    constructor
    · rintro (⟨b, hb⟩ | ⟨a, b, rfl⟩)
      · exact ⟨[], b, by simpa using hb.symm⟩
      · exact ⟨c :: a, b, by simp⟩
    · rintro ⟨a, b, h⟩
      cases a with
      | nil => exact .inl ⟨b, by simpa using h.symm⟩
      | cons d a =>
        simp only [List.cons_append, List.cons.injEq] at h
        exact .inr ⟨a, b, h.2⟩

end LessCss.Text
