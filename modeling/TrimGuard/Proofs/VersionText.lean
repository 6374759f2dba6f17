/-
  TrimGuard/Proofs/VersionText.lean
  =================================
  **Versions and their texts.**

  The text of a version consists of four numerals with a dot between them.  A
  numeral contains no dot, so cutting the text at its dots gives the numerals back,
  and each of them stands for a component of 16 bits.  What is written is therefore
  read back as it was (`ofChars_text`).
-/
import TrimGuard.Assembly.Version

namespace TrimGuard.Version

open TrimGuard.Text

theorem component_decimal (n : UInt16) : component (decimal n.toNat).toList = .ok n := by
  have hbound : n.toNat ≤ 65535 := Nat.le_of_lt_succ n.toNat_lt
  rw [component, numeral?_decimal hbound]
  simp

theorem mapM_component_decimal (ns : List UInt16) :
    (ns.map fun n => (decimal n.toNat).toList).mapM component = .ok ns := by
  induction ns with
  | nil => rfl
  | cons n ns ih =>
    rw [List.map_cons, List.mapM_cons, component_decimal, ih]
    rfl

theorem toList_text (v : Version) :
    v.text.toList = ['.'].intercalate (v.components.map fun n => (decimal n.toNat).toList) := by
  rw [text, String.toList_intercalate, List.map_map]
  rfl

/-- There is nothing but digits and dots in the text of a version. -/
theorem isDigit_of_mem_text {v : Version} {c : Char} (h : c ∈ v.text.toList) :
    c = '.' ∨ c.isDigit = true := by
  rw [toList_text] at h
  rcases eq_or_mem_of_mem_intercalate h with heq | ⟨f, hf, hc⟩
  · exact .inl heq
  · obtain ⟨n, -, rfl⟩ := List.mem_map.mp hf
    exact .inr (isDigit_of_mem_decimal hc)

/-- **A version is read back from its text.** -/
theorem ofChars_text (v : Version) : ofChars v.text.toList = .ok v := by
  have hdots : ∀ f ∈ v.components.map fun n => (decimal n.toNat).toList, '.' ∉ f := by
    intro f hf hdot
    obtain ⟨n, -, rfl⟩ := List.mem_map.mp hf
    exact absurd (isDigit_of_mem_decimal hdot) (by decide)
  have hfields : fields '.' v.text.toList =
      ((decimal v.major.toNat).toList,
        [v.minor, v.build, v.revision].map fun n => (decimal n.toNat).toList) := by
    rw [toList_text]
    exact fields_intercalate hdots
  have hread := mapM_component_decimal v.components
  simp only [components, List.map_cons] at hread
  rw [ofChars, hfields]
  simp only [List.length_map, List.length_cons, List.length_nil, List.map_cons, hread]
  rfl

end TrimGuard.Version
