/-
  TrimGuard/Proofs/DisplayName.lean
  =================================
  **Which identities a display name can tell.**

  An identity is a name, a version and perhaps a culture, and the name and the
  culture may be any texts.  A display name cannot tell them all: commas separate
  its parts, blanks around a part do not count, and the empty culture and the culture
  `neutral` say nothing.  `Expressible` collects what follows for a name and for a
  culture.  The two are not treated alike, because the name is a part by itself and
  the culture is the end of one: a culture may begin with blanks, a name may not.

  What is read from any text at all is expressible, which is an invariant of reading
  one part after the other (`expressible_readPart`, `expressible_of_parse`).  What is
  expressible is read back from its display name (`parse_of_expressible`), so the
  condition is exact.
-/
import TrimGuard.Assembly
import TrimGuard.Proofs.VersionText
import Mathlib.Data.List.Basic

namespace TrimGuard.Assembly

open TrimGuard.Text

/-! ### What can be told -/

/-- There is no comma in the text, and no blank at its end. -/
def EndsPart (cs : List Char) : Prop :=
  ',' ∉ cs ∧ ∀ c, cs.getLast? = some c → isBlank c = false

/-- A display name can tell the text as a name. -/
def IsName (s : String) : Prop := s ≠ "" ∧ ',' ∉ s.toList ∧ trim s.toList = s.toList

/-- A display name can tell the text as a culture. -/
def IsCulture (s : String) : Prop := s ≠ "" ∧ s ≠ neutral ∧ EndsPart s.toList

/-- A display name can tell the identity. -/
def Expressible (a : Assembly) : Prop := IsName a.name ∧ ∀ c, a.culture = some c → IsCulture c

theorem endsPart_trim {cs : List Char} (h : ',' ∉ cs) : EndsPart (trim cs) :=
  ⟨fun hmem => h ((trim_isInfix cs).subset hmem), trimEnd_eq_self_iff.mp (trimEnd_trim cs)⟩

theorem endsPart_of_getLast {cs : List Char} {c : Char} (hcomma : ',' ∉ cs)
    (hlast : cs.getLast? = some c) (hblank : isBlank c = false) : EndsPart cs := by
  refine ⟨hcomma, ?_⟩
  intro e he
  rw [hlast] at he
  cases he
  exact hblank

theorem endsPart_versionKey : EndsPart versionKey.toList :=
  endsPart_of_getLast (c := '=') (by decide) (by decide) (by decide)

theorem endsPart_cultureKey : EndsPart cultureKey.toList :=
  endsPart_of_getLast (c := '=') (by decide) (by decide) (by decide)

theorem endsPart_neutral : EndsPart neutral.toList :=
  endsPart_of_getLast (c := 'l') (by decide) (by decide) (by decide)

theorem endsPart_append {key cs : List Char} (hkey : EndsPart key) (hcs : EndsPart cs) :
    EndsPart (key ++ cs) := by
  refine ⟨List.not_mem_append hkey.1 hcs.1, ?_⟩
  intro c hc
  rw [List.getLast?_append] at hc
  rcases Option.or_eq_some_iff.mp hc with hlast | ⟨-, hlast⟩
  · exact hcs.2 c hlast
  · exact hkey.2 c hlast

theorem EndsPart.of_append {key cs : List Char} (h : EndsPart (key ++ cs)) : EndsPart cs := by
  refine ⟨fun hmem => h.1 (List.mem_append_right key hmem), ?_⟩
  intro c hc
  apply h.2 c
  rw [List.getLast?_append, hc, Option.some_or]

theorem endsPart_text (v : Version) : EndsPart v.text.toList := by
  refine ⟨?_, ?_⟩
  · intro hcomma
    rcases Version.isDigit_of_mem_text hcomma with h | h <;> cases h
  · intro c hc
    rcases Version.isDigit_of_mem_text (List.mem_of_getLast? hc) with rfl | hdigit
    · decide
    · exact isBlank_eq_false_of_isDigit hdigit

/-! ### Parts

A text is read by its parts: the name, and then one part after the other. -/

theorem parse_of_name_eq_nil {s : String} (h : trim (fields ',' s.toList).1 = []) :
    parse s = .error .emptyAssemblyName := by
  simp only [parse, ofChars, h]

theorem parse_of_name_ne_nil {s : String} (h : trim (fields ',' s.toList).1 ≠ []) :
    parse s = ((fields ',' s.toList).2.map trim).foldlM readPart
      ⟨String.ofList (trim (fields ',' s.toList).1), .unknown, none⟩ := by
  simp only [parse, ofChars]

/-- After the name, a part is about the version, or about the culture, or about
    nothing that counts. -/
theorem part_cases (part : List Char) :
    (∃ cs, part = versionKey.toList ++ cs) ∨ (∃ cs, part = cultureKey.toList ++ cs) ∨
      ((∀ cs, part ≠ versionKey.toList ++ cs) ∧ ∀ cs, part ≠ cultureKey.toList ++ cs) := by
  by_cases hversion : ∃ cs, part = versionKey.toList ++ cs
  · exact .inl hversion
  · by_cases hculture : ∃ cs, part = cultureKey.toList ++ cs
    · exact .inr (.inl hculture)
    · exact .inr (.inr ⟨not_exists.mp hversion, not_exists.mp hculture⟩)

theorem readPart_version (a : Assembly) (cs : List Char) :
    a.readPart (versionKey.toList ++ cs) =
      (Version.ofChars cs).map fun v => { a with version := v } := by
  have hkey : versionKey.toList.isPrefixOf? (versionKey.toList ++ cs) = some cs :=
    List.isPrefixOf?_eq_some_iff_append_eq.mpr rfl
  simp only [readPart, hkey]

theorem readPart_culture (a : Assembly) (cs : List Char) :
    a.readPart (cultureKey.toList ++ cs) =
      if cs = [] ∨ cs = neutral.toList then .ok a
      else .ok { a with culture := some (String.ofList cs) } := by
  -- the two markers differ in their first letter
  have hversion : versionKey.toList.isPrefixOf? (cultureKey.toList ++ cs) = none := rfl
  have hkey : cultureKey.toList.isPrefixOf? (cultureKey.toList ++ cs) = some cs :=
    List.isPrefixOf?_eq_some_iff_append_eq.mpr rfl
  simp only [readPart, hversion, hkey]

theorem isPrefixOf?_eq_none {key part : List Char} (h : ∀ cs, part ≠ key ++ cs) :
    key.isPrefixOf? part = none := by
  rcases hprefix : key.isPrefixOf? part with _ | cs
  · rfl
  · exact absurd (List.append_eq_of_isPrefixOf?_eq_some hprefix).symm (h cs)

theorem readPart_other (a : Assembly) {part : List Char}
    (hversion : ∀ cs, part ≠ versionKey.toList ++ cs)
    (hculture : ∀ cs, part ≠ cultureKey.toList ++ cs) : a.readPart part = .ok a := by
  simp only [readPart, isPrefixOf?_eq_none hversion, isPrefixOf?_eq_none hculture]

/-! ### What is read can be told -/

theorem ofList_ne {cs : List Char} {s : String} (h : cs ≠ s.toList) : String.ofList cs ≠ s := by
  intro heq
  rw [← heq, String.toList_ofList] at h
  exact h rfl

theorem expressible_readPart {a b : Assembly} {part : List Char} (hpart : EndsPart part)
    (h : a.readPart part = .ok b) (ha : a.Expressible) : b.Expressible := by
  rcases part_cases part with ⟨cs, rfl⟩ | ⟨cs, rfl⟩ | ⟨hversion, hculture⟩
  · rw [readPart_version] at h
    rcases hv : Version.ofChars cs with fault | v <;> rw [hv] at h <;> cases h
    exact ha
  · rw [readPart_culture] at h
    split at h
    next =>
      cases h
      exact ha
    next hsays =>
      rw [not_or] at hsays
      cases h
      refine ⟨ha.1, ?_⟩
      intro c hc
      cases hc
      refine ⟨ofList_ne hsays.1, ofList_ne hsays.2, ?_⟩
      rw [String.toList_ofList]
      exact hpart.of_append
  · rw [readPart_other a hversion hculture] at h
    cases h
    exact ha

theorem expressible_readParts {parts : List (List Char)} (hparts : ∀ part ∈ parts, EndsPart part)
    {a b : Assembly} (h : parts.foldlM readPart a = .ok b) (ha : a.Expressible) :
    b.Expressible := by
  induction parts generalizing a with
  | nil =>
    cases h
    exact ha
  | cons part parts ih =>
    obtain ⟨hhead, htail⟩ := List.forall_mem_cons.mp hparts
    rw [List.foldlM_cons] at h
    rcases hread : a.readPart part with fault | a' <;> rw [hread] at h
    · cases h
    · exact ih htail h (expressible_readPart hhead hread ha)

/-- **What is read from a text is expressible.** -/
theorem expressible_of_parse {s : String} {a : Assembly} (h : parse s = .ok a) :
    a.Expressible := by
  obtain ⟨hfirst, hrest⟩ := List.forall_mem_cons.mp (notMem_fields ',' s.toList)
  by_cases hne : trim (fields ',' s.toList).1 = []
  · rw [parse_of_name_eq_nil hne] at h
    cases h
  · rw [parse_of_name_ne_nil hne] at h
    have hname : IsName (String.ofList (trim (fields ',' s.toList).1)) := by
      rw [IsName, String.toList_ofList]
      exact ⟨ofList_ne hne, (endsPart_trim hfirst).1, trim_trim _⟩
    apply expressible_readParts _ h
    · exact ⟨hname, fun c hc => by cases hc⟩
    · intro part hpart
      obtain ⟨f, hf, rfl⟩ := List.mem_map.mp hpart
      exact endsPart_trim (hrest f hf)

/-! ### What can be told is read back -/

/-- What is written about the version. -/
def versionPart (a : Assembly) : List Char := versionKey.toList ++ a.version.text.toList

/-- What is written about the culture, whether or not there is one. -/
def culturePart (a : Assembly) : List Char :=
  cultureKey.toList ++ (a.culture.getD neutral).toList

theorem toList_displayName (a : Assembly) :
    a.displayName.toList =
      [','].intercalate [a.name.toList, ' ' :: a.versionPart, ' ' :: a.culturePart] := by
  simp [displayName, versionPart, culturePart, List.intercalate_cons_cons,
    List.intercalate_singleton]

theorem endsPart_versionPart (a : Assembly) : EndsPart a.versionPart :=
  endsPart_append endsPart_versionKey (endsPart_text a.version)

theorem Expressible.endsPart_culturePart {a : Assembly} (h : a.Expressible) :
    EndsPart a.culturePart := by
  apply endsPart_append endsPart_cultureKey
  rcases hculture : a.culture with _ | culture
  · exact endsPart_neutral
  · exact (h.2 culture hculture).2.2

theorem Expressible.fields_displayName {a : Assembly} (h : a.Expressible) :
    fields ',' a.displayName.toList =
      (a.name.toList, [' ' :: a.versionPart, ' ' :: a.culturePart]) := by
  rw [toList_displayName]
  apply fields_intercalate
  have hblank : ',' ≠ ' ' := by decide
  simp only [List.forall_mem_cons, List.not_mem_nil, false_implies, implies_true, and_true]
  exact ⟨h.1.2.1, List.not_mem_cons_of_ne_of_not_mem hblank (endsPart_versionPart a).1,
    List.not_mem_cons_of_ne_of_not_mem hblank h.endsPart_culturePart.1⟩

/-- The blank in front of a part goes, and nothing else does. -/
theorem trim_blank_cons {part : List Char} (h : EndsPart part)
    (hhead : ∀ c, part.head? = some c → isBlank c = false) : trim (' ' :: part) = part := by
  rw [trim_cons_of_isBlank (by decide), trim, trimStart_eq_self_iff.mpr hhead]
  exact trimEnd_eq_self_iff.mpr h.2

theorem Expressible.trim_parts {a : Assembly} (h : a.Expressible) :
    [' ' :: a.versionPart, ' ' :: a.culturePart].map trim = [a.versionPart, a.culturePart] := by
  rw [List.map_cons, List.map_singleton,
    trim_blank_cons (endsPart_versionPart a) (by rintro c ⟨⟩; decide),
    trim_blank_cons h.endsPart_culturePart (by rintro c ⟨⟩; decide)]

/-- The culture part of a display name leads back to the culture. -/
theorem Expressible.readPart_culturePart {a : Assembly} (h : a.Expressible) :
    readPart { a with culture := none } a.culturePart = .ok a := by
  rw [culturePart, readPart_culture]
  rcases a with ⟨name, version, _ | culture⟩
  · rw [if_pos (.inr rfl)]
  · obtain ⟨hne, hneutral, -⟩ := h.2 culture rfl
    have hsays : ¬ (culture.toList = [] ∨ culture.toList = neutral.toList) := by
      rw [String.toList_eq_nil_iff, String.toList_inj, not_or]
      exact ⟨hne, hneutral⟩
    rw [Option.getD_some, if_neg hsays, String.ofList_toList]

/-- **What is expressible is read back from its display name.** -/
theorem parse_of_expressible {a : Assembly} (h : a.Expressible) :
    parse a.displayName = .ok a := by
  obtain ⟨hname, -, htrim⟩ := h.1
  have hfields := h.fields_displayName
  have hne : trim (fields ',' a.displayName.toList).1 ≠ [] := by
    rw [hfields, htrim]
    exact String.toList_eq_nil_iff.not.mpr hname
  calc parse a.displayName
      = [a.versionPart, a.culturePart].foldlM readPart ⟨a.name, .unknown, none⟩ := by
        rw [parse_of_name_ne_nil hne, hfields, h.trim_parts, htrim, String.ofList_toList]
    _ = readPart { a with culture := none } a.culturePart := by
        rw [List.foldlM_cons, versionPart, readPart_version, Version.ofChars_text]
        exact bind_pure (readPart _ _)
    _ = .ok a := h.readPart_culturePart

/-! ### The outcome -/

/-- **An identity is read back from its display name if and only if the name can tell
    it, and all that is ever read is of this kind.** -/
theorem displayName_read_back :
    (∀ a : Assembly, parse a.displayName = .ok a ↔ a.Expressible) ∧
      ∀ (s : String) (a : Assembly), parse s = .ok a →
        a.Expressible ∧ parse a.displayName = .ok a := by
  refine ⟨?_, ?_⟩
  · intro a
    exact ⟨expressible_of_parse, parse_of_expressible⟩
  · intro s a h
    have hexpressible := expressible_of_parse h
    exact ⟨hexpressible, parse_of_expressible hexpressible⟩

/-- A culture that begins with a blank is told apart from the word for no culture, and
    one that ends with a blank cannot be told. -/
theorem displayName_read_back_blanks :
    let s := " Lib,Culture=  neutral , Token=7, Version=1.2,Culture=neutral"
    let a : Assembly := ⟨"Lib", ⟨1, 2, 0, 0⟩, some "  neutral"⟩
    let b : Assembly := ⟨"Lib", ⟨1, 2, 0, 0⟩, some "de "⟩
    parse s = .ok a ∧ a.Expressible ∧ parse a.displayName = .ok a ∧
      parse b.displayName ≠ .ok b := by
  intro s a b
  have hparse : parse s = .ok a := by decide +kernel
  have hblank : ¬ b.Expressible := by
    rintro ⟨-, hculture⟩
    have hends : EndsPart "de ".toList := (hculture "de " rfl).2.2
    have hlast : "de ".toList.getLast? = some ' ' := by decide
    have hnone : isBlank ' ' = true := by decide
    rw [hends.2 ' ' hlast] at hnone
    cases hnone
  obtain ⟨hexpressible, hback⟩ := displayName_read_back.2 s a hparse
  exact ⟨hparse, hexpressible, hback, fun h => hblank ((displayName_read_back.1 b).mp h)⟩

end TrimGuard.Assembly
