/-
  TrimGuard/Text/Fields.lean
  ==========================
  **A text cut into fields at every separator.**

  There is always a first field, possibly empty, and one further field for every
  separator.  The first field is returned on its own, because the formats read
  here give it a meaning of its own and because a list could be empty where the
  fields of a text never are.
-/

namespace TrimGuard.Text

/-- The field in front of the first separator, and the fields after each one. -/
def fields (separator : Char) : List Char → List Char × List (List Char)
  | [] => ([], [])
  | c :: cs =>
    let (first, rest) := fields separator cs
    if c = separator then ([], first :: rest) else (c :: first, rest)

/-- A text without a separator is its own and only field. -/
theorem fields_of_notMem {separator : Char} {cs : List Char} (h : separator ∉ cs) :
    fields separator cs = (cs, []) := by
  induction cs with
  | nil => rfl
  | cons c cs ih =>
    simp only [List.mem_cons, not_or] at h
    simp [fields, ih h.2, Ne.symm h.1]

/-- No field contains a separator. -/
theorem notMem_fields (separator : Char) (cs : List Char) :
    ∀ f ∈ (fields separator cs).1 :: (fields separator cs).2, separator ∉ f := by
  induction cs with
  | nil => simp [fields]
  | cons c cs ih =>
    by_cases h : c = separator
    · simpa [fields, h] using ih
    · simpa [fields, h, Ne.symm h] using ih

theorem fields_append {separator : Char} {f : List Char} (h : separator ∉ f) (cs : List Char) :
    fields separator (f ++ separator :: cs) =
      (f, (fields separator cs).1 :: (fields separator cs).2) := by
  induction f with
  | nil => simp [fields]
  | cons c f ih =>
    simp only [List.mem_cons, not_or] at h
    simp [fields, ih h.2, Ne.symm h.1]

/-- Texts without a separator are the fields of the text that they make up. -/
theorem fields_intercalate {separator : Char} {f : List Char} {fs : List (List Char)}
    (h : ∀ g ∈ f :: fs, separator ∉ g) :
    fields separator ([separator].intercalate (f :: fs)) = (f, fs) := by
  induction fs generalizing f with
  | nil => rw [List.intercalate_singleton, fields_of_notMem (h f List.mem_cons_self)]
  | cons g fs ih =>
    obtain ⟨hhead, hrest⟩ := List.forall_mem_cons.mp h
    rw [List.intercalate_cons_cons, List.append_assoc, List.singleton_append, fields_append hhead,
      ih hrest]

/-- The fields of a text, with the separator between them, are the text. -/
theorem intercalate_fields (separator : Char) (cs : List Char) :
    [separator].intercalate ((fields separator cs).1 :: (fields separator cs).2) = cs := by
  induction cs with
  | nil => rfl
  | cons c cs ih =>
    by_cases h : c = separator
    · subst h
      simp [fields, List.intercalate_cons_cons, ih]
    · rcases hrest : (fields separator cs).2 with _ | ⟨g, gs⟩ <;> rw [hrest] at ih
      · simpa [fields, h, hrest, List.intercalate_singleton] using ih
      · simpa [fields, h, hrest, List.intercalate_cons_cons] using ih

theorem eq_or_mem_of_mem_intercalate {separator c : Char} {fs : List (List Char)}
    (h : c ∈ [separator].intercalate fs) : c = separator ∨ ∃ f ∈ fs, c ∈ f := by
  induction fs with
  | nil => cases h
  | cons f fs ih =>
    rcases fs with _ | ⟨g, fs⟩
    · rw [List.intercalate_singleton] at h
      exact .inr ⟨f, List.mem_cons_self, h⟩
    · rw [List.intercalate_cons_cons, List.append_assoc, List.mem_append, List.mem_append,
        List.mem_singleton] at h
      rcases h with h | h | h
      · exact .inr ⟨f, List.mem_cons_self, h⟩
      · exact .inl h
      · rcases ih h with heq | ⟨k, hk, hc⟩
        · exact .inl heq
        · exact .inr ⟨k, List.mem_cons_of_mem f hk, hc⟩

end TrimGuard.Text
