/-
  TrimGuard/Proofs/NameGrammar.lean
  =================================
  **Which texts are display names, and what they say.**

  A text is cut at its commas, and blanks around a part do not count.  The first part is
  the name.  Of the others only those count that begin with one of the two markers, and
  what a text says can be read off two lists: the versions (`versions`) and the cultures
  that say something (`cultures`), each in the order of the text.  The last of a list is
  the one that holds, but the two lists are not treated alike.  Every version has to be
  readable, also one that is overridden later; a culture that says nothing does not
  override anything.

  Reading goes through the parts one by one and carries an identity along.  What it
  comes to depends on the two lists alone (`foldlM_readPart`), so parts of another kind
  may be put in, left out or moved, and blanks may be put around any part.
-/
import TrimGuard.Proofs.DisplayName
import TrimGuard.Proofs.SealedProgram

namespace TrimGuard.Assembly

open TrimGuard.Text

/-! ### What a text is made of -/

/-- A part of a text, without the blanks around it. -/
def trimmed (f : List Char) : String := .ofList (trim f)

/-- The part in front of the first comma. -/
def namePart (s : String) : String := trimmed (fields ',' s.toList).1

/-- The parts behind the commas, in their order. -/
def laterParts (s : String) : List String := (fields ',' s.toList).2.map trimmed

/-- What stands behind the marker in the parts that begin with it. -/
def behind (key : String) (parts : List String) : List String :=
  parts.filterMap fun part => (key.toList.isPrefixOf? part.toList).map .ofList

/-- The versions that the parts give, readable or not. -/
def versions (parts : List String) : List String := behind versionKey parts

/-- The cultures that the parts give, where they do give one. -/
def cultures (parts : List String) : List String :=
  (behind cultureKey parts).filter fun c => c ≠ "" ∧ c ≠ neutral

theorem mem_behind_iff {key value : String} {parts : List String} :
    value ∈ behind key parts ↔ key ++ value ∈ parts := by
  have hpart : ∀ part : String, (key.toList.isPrefixOf? part.toList).map .ofList = some value ↔
      key ++ value = part := by
    intro part
    rw [Option.map_eq_some_iff, ← String.toList_inj, String.toList_append]
    constructor
    · rintro ⟨cs, hcs, rfl⟩
      rw [String.toList_ofList]
      exact List.isPrefixOf?_eq_some_iff_append_eq.mp hcs
    · intro h
      exact ⟨value.toList, List.isPrefixOf?_eq_some_iff_append_eq.mpr h, String.ofList_toList⟩
  simp only [behind, List.mem_filterMap, hpart, exists_eq_right']

theorem mem_versions_iff {v : String} {parts : List String} :
    v ∈ versions parts ↔ versionKey ++ v ∈ parts := mem_behind_iff

/-! A part that begins with a marker adds to the list of the marker, and no other part
does. -/

theorem behind_cons (key : String) (cs : List Char) (parts : List String) :
    behind key (.ofList (key.toList ++ cs) :: parts) = .ofList cs :: behind key parts := by
  have hkey : key.toList.isPrefixOf? (key.toList ++ cs) = some cs :=
    List.isPrefixOf?_eq_some_iff_append_eq.mpr rfl
  simp only [behind, List.filterMap_cons, String.toList_ofList, hkey, Option.map_some]

theorem behind_cons_of_ne {key : String} {part : List Char}
    (h : ∀ cs, part ≠ key.toList ++ cs) (parts : List String) :
    behind key (.ofList part :: parts) = behind key parts := by
  simp only [behind, List.filterMap_cons, String.toList_ofList, isPrefixOf?_eq_none h,
    Option.map_none]

theorem versions_cons (cs : List Char) (parts : List String) :
    versions (.ofList (versionKey.toList ++ cs) :: parts) = .ofList cs :: versions parts :=
  behind_cons versionKey cs parts

theorem versions_cons_of_ne {part : List Char} (h : ∀ cs, part ≠ versionKey.toList ++ cs)
    (parts : List String) : versions (.ofList part :: parts) = versions parts :=
  behind_cons_of_ne h parts

theorem cultures_cons (cs : List Char) (parts : List String) :
    cultures (.ofList (cultureKey.toList ++ cs) :: parts) =
      if cs = [] ∨ cs = neutral.toList then cultures parts else .ofList cs :: cultures parts := by
  have hvalue : (String.ofList cs ≠ "" ∧ String.ofList cs ≠ neutral) ↔
      ¬ (cs = [] ∨ cs = neutral.toList) := by
    rw [not_or, Ne, Ne, ← String.toList_inj, ← String.toList_inj, String.toList_ofList]
    rfl
  rw [cultures, behind_cons, List.filter_cons, ← cultures]
  simp only [hvalue, decide_eq_true_eq, ite_not]

theorem cultures_cons_of_ne {part : List Char} (h : ∀ cs, part ≠ cultureKey.toList ++ cs)
    (parts : List String) : cultures (.ofList part :: parts) = cultures parts := by
  rw [cultures, behind_cons_of_ne h, ← cultures]

/-- No part begins with both markers. -/
theorem versionKey_append_ne (v c : List Char) :
    versionKey.toList ++ v ≠ cultureKey.toList ++ c := by
  intro h
  have hhead : some 'V' = some 'C' := congrArg List.head? h
  exact absurd hhead (by decide)

/-! ### Reading part after part -/

/-- The identity with the last of the versions and the last of the cultures in place of
    its own. -/
def updated (a : Assembly) (vs : List Version) (cs : List String) : Assembly :=
  { a with
    version := vs.getLast?.getD a.version
    culture := cs.getLast?.or a.culture }

theorem updated_cons_version (a : Assembly) (v : Version) (vs : List Version) (cs : List String) :
    a.updated (v :: vs) cs = { a with version := v }.updated vs cs := by
  simp only [updated, List.getLast?_cons, Option.getD_some]

theorem updated_cons_culture (a : Assembly) (vs : List Version) (c : String) (cs : List String) :
    a.updated vs (c :: cs) = { a with culture := some c }.updated vs cs := by
  rcases hlast : cs.getLast? with _ | d <;> simp [updated, List.getLast?_cons, hlast]

/-- **What the parts come to is told by the versions and the cultures among them.** -/
theorem foldlM_readPart (parts : List (List Char)) (a : Assembly) :
    parts.foldlM readPart a =
      ((versions (parts.map .ofList)).mapM Version.parse).map fun vs =>
        a.updated vs (cultures (parts.map .ofList)) := by
  induction parts generalizing a with
  | nil => rfl
  | cons part parts ih =>
    rw [List.foldlM_cons, List.map_cons]
    rcases part_cases part with ⟨cs, rfl⟩ | ⟨cs, rfl⟩ | ⟨hversion, hculture⟩
    · rw [readPart_version, versions_cons, cultures_cons_of_ne (versionKey_append_ne cs),
        List.mapM_cons, Version.parse, String.toList_ofList]
      rcases Version.ofChars cs with fault | v
      · rfl
      · change parts.foldlM readPart { a with version := v } = _
        rw [ih]
        rcases (versions (parts.map .ofList)).mapM Version.parse with fault | vs
        · rfl
        · exact congrArg Except.ok (updated_cons_version a v vs _).symm
    · rw [readPart_culture, cultures_cons,
        versions_cons_of_ne fun v => (versionKey_append_ne v cs).symm]
      split
      next => exact ih a
      next =>
        simp only [updated_cons_culture]
        exact ih { a with culture := some (.ofList cs) }
    · rw [readPart_other a hversion hculture, versions_cons_of_ne hversion,
        cultures_cons_of_ne hculture]
      exact ih a

variable {s : String}

theorem namePart_eq_empty_iff : namePart s = "" ↔ trim (fields ',' s.toList).1 = [] := by
  rw [namePart, trimmed, ← String.toList_inj, String.toList_ofList]
  rfl

theorem parse_of_namePart_eq (h : namePart s = "") : parse s = .error .emptyAssemblyName :=
  parse_of_name_eq_nil (namePart_eq_empty_iff.mp h)

theorem parse_of_namePart_ne (h : namePart s ≠ "") :
    parse s = ((versions (laterParts s)).mapM Version.parse).map fun vs =>
      ⟨namePart s, vs.getLast?.getD .unknown, (cultures (laterParts s)).getLast?⟩ := by
  rw [parse_of_name_ne_nil (namePart_eq_empty_iff.not.mp h), foldlM_readPart, List.map_map]
  simp only [updated, Option.or_none]
  rfl

theorem parse_eq_ok {a : Assembly} (h : parse s = .ok a) :
    namePart s ≠ "" ∧ ∃ vs, (versions (laterParts s)).mapM Version.parse = .ok vs ∧
      a = ⟨namePart s, vs.getLast?.getD .unknown, (cultures (laterParts s)).getLast?⟩ := by
  by_cases hname : namePart s = ""
  · rw [parse_of_namePart_eq hname] at h
    cases h
  · rw [parse_of_namePart_ne hname] at h
    rcases hread : (versions (laterParts s)).mapM Version.parse with fault | vs <;>
      rw [hread] at h <;> cases h
    exact ⟨hname, vs, rfl, rfl⟩

/-- Texts with the same name, the same versions and the same cultures are read alike. -/
theorem parse_congr {s' : String} (hname : namePart s = namePart s')
    (hversions : versions (laterParts s) = versions (laterParts s'))
    (hcultures : cultures (laterParts s) = cultures (laterParts s')) : parse s = parse s' := by
  by_cases h : namePart s = ""
  · rw [parse_of_namePart_eq h, parse_of_namePart_eq (hname ▸ h)]
  · rw [parse_of_namePart_ne h, parse_of_namePart_ne (hname ▸ h), hname, hversions, hcultures]

/-! ### Texts that say the same -/

/-- The texts differ in the blanks around them only. -/
def Respaced (f g : List Char) : Prop :=
  ∃ core before after before' after',
    (∀ c ∈ before ++ after ++ (before' ++ after'), isBlank c = true) ∧
      f = before ++ core ++ after ∧ g = before' ++ core ++ after'

/-- The part begins with one of the two markers, behind its blanks. -/
def Counts (f : List Char) : Prop :=
  versionKey.toList <+: trim f ∨ cultureKey.toList <+: trim f

instance (f : List Char) : Decidable (Counts f) := inferInstanceAs (Decidable (_ ∨ _))

theorem respaced_iff {f g : List Char} : Respaced f g ↔ trim f = trim g := by
  constructor
  · rintro ⟨core, before, after, before', after', hblank, rfl, rfl⟩
    simp only [List.forall_mem_append] at hblank
    obtain ⟨⟨hbefore, hafter⟩, hbefore', hafter'⟩ := hblank
    rw [trim_append_of_isBlank hbefore hafter, trim_append_of_isBlank hbefore' hafter']
  · intro h
    obtain ⟨before, after, hbefore, hafter, hf⟩ := exists_blanks_around f
    obtain ⟨before', after', hbefore', hafter', hg⟩ := exists_blanks_around g
    refine ⟨trim f, before, after, before', after', ?_, hf, h ▸ hg⟩
    simp only [List.forall_mem_append]
    exact ⟨⟨hbefore, hafter⟩, hbefore', hafter'⟩

theorem forall₂_respaced_iff {fs gs : List (List Char)} :
    List.Forall₂ Respaced fs gs ↔ fs.map trim = gs.map trim := by
  have heq : List.Forall₂ Eq (fs.map trim) (gs.map trim) ↔ fs.map trim = gs.map trim := by
    rw [List.forall₂_eq_eq_eq]
  have hrel : Respaced = fun f g => trim f = trim g := by
    funext f g
    exact propext respaced_iff
  rw [← heq, List.forall₂_map_left_iff, List.forall₂_map_right_iff, hrel]

/-- The parts that do not count add to neither list. -/
theorem behind_filter_counts {key : String} (hkey : key = versionKey ∨ key = cultureKey)
    (fs : List (List Char)) :
    behind key ((fs.filter Counts).map trimmed) = behind key (fs.map trimmed) := by
  rw [behind, behind, List.filterMap_map, List.filterMap_map, List.filterMap_filter]
  apply List.filterMap_congr
  intro f _
  by_cases h : Counts f
  · simp only [h, decide_true, if_true]
  · have hnone : key.toList.isPrefixOf? (trim f) = none := by
      apply isPrefixOf?_eq_none
      rintro cs hcs
      apply h
      rcases hkey with rfl | rfl
      · exact .inl ⟨cs, hcs.symm⟩
      · exact .inr ⟨cs, hcs.symm⟩
    simp only [h, decide_false, Bool.false_eq_true, if_false, Function.comp_apply, trimmed,
      String.toList_ofList, hnone, Option.map_none]

theorem behind_congr {key : String} (hkey : key = versionKey ∨ key = cultureKey)
    {fs gs : List (List Char)} (h : List.Forall₂ Respaced (fs.filter Counts) (gs.filter Counts)) :
    behind key (fs.map trimmed) = behind key (gs.map trimmed) := by
  have hsame : (fs.filter Counts).map trimmed = (gs.filter Counts).map trimmed := by
    have htrim := congrArg (List.map String.ofList) (forall₂_respaced_iff.mp h)
    rwa [List.map_map, List.map_map] at htrim
  rw [← behind_filter_counts hkey, hsame, behind_filter_counts hkey]

theorem parse_respaced {s' : String}
    (hname : Respaced (fields ',' s.toList).1 (fields ',' s'.toList).1)
    (hparts : List.Forall₂ Respaced ((fields ',' s.toList).2.filter Counts)
      ((fields ',' s'.toList).2.filter Counts)) : parse s = parse s' := by
  apply parse_congr
  · rw [namePart, namePart, trimmed, trimmed, respaced_iff.mp hname]
  · exact behind_congr (.inl rfl) hparts
  · exact congrArg (List.filter _) (behind_congr (.inr rfl) hparts)

/-! ### The outcome -/

/-- **A text is a display name if and only if it has a name and every version in it is
    readable.**  Where it is one, the last version holds, and the last culture that says
    something.  Where it is none, a missing name is reported first, and else the first
    version that is not readable.  Parts that begin with neither marker, and blanks
    around any part, make no difference.  The parts are what stands between the commas
    of the text. -/
theorem parse_grammar (s : String) :
    ([','].intercalate ((fields ',' s.toList).1 :: (fields ',' s.toList).2) = s.toList ∧
        ∀ f ∈ (fields ',' s.toList).1 :: (fields ',' s.toList).2, ',' ∉ f) ∧
      ((∃ a, parse s = .ok a) ↔
        namePart s ≠ "" ∧
          ∀ v, versionKey ++ v ∈ laterParts s → ∃ version, Version.parse v = .ok version) ∧
      (∀ a, parse s = .ok a →
        a.name = namePart s ∧
          (versions (laterParts s) = [] → a.version = ⟨0, 0, 0, 0⟩) ∧
          (∀ v, (versions (laterParts s)).getLast? = some v → Version.parse v = .ok a.version) ∧
          a.culture = (cultures (laterParts s)).getLast?) ∧
      (namePart s = "" → parse s = .error .emptyAssemblyName) ∧
      (namePart s ≠ "" → ∀ before v after fault,
        versions (laterParts s) = before ++ v :: after →
          (∀ u ∈ before, ∃ version, Version.parse u = .ok version) →
            Version.parse v = .error fault → parse s = .error fault) ∧
      ∀ s' : String, Respaced (fields ',' s.toList).1 (fields ',' s'.toList).1 →
        List.Forall₂ Respaced ((fields ',' s.toList).2.filter Counts)
          ((fields ',' s'.toList).2.filter Counts) →
        parse s = parse s' := by
  refine ⟨⟨intercalate_fields ',' s.toList, notMem_fields ',' s.toList⟩, ?_, ?_,
    parse_of_namePart_eq, ?_, fun _ => parse_respaced⟩
  · simp only [← mem_versions_iff]
    constructor
    · rintro ⟨a, ha⟩
      obtain ⟨hname, vs, hvs, -⟩ := parse_eq_ok ha
      exact ⟨hname, fun v hv => exists_of_mapM_eq_ok hvs hv⟩
    · rintro ⟨hname, hreadable⟩
      obtain ⟨vs, hvs⟩ := exists_mapM_eq_ok hreadable
      rw [parse_of_namePart_ne hname, hvs]
      exact ⟨_, rfl⟩
  · intro a ha
    obtain ⟨-, vs, hvs, rfl⟩ := parse_eq_ok ha
    refine ⟨rfl, ?_, ?_, rfl⟩
    · intro hnone
      rw [hnone] at hvs
      cases hvs
      rfl
    · intro v hv
      obtain ⟨version, hlast, hread⟩ := getLast?_of_mapM_eq_ok hvs hv
      rw [hread, hlast, Option.getD_some]
  · intro hname before v after fault hsplit hbefore hfault
    rw [parse_of_namePart_ne hname, hsplit, mapM_eq_first_error hbefore hfault]
    rfl

/-- A text in which every part but the name is repeated, the same text with parts put in
and moved and with other blanks, and a text whose last version is readable while the one
before it begins with a blank. -/
theorem parse_grammar_repeated :
    let s := " Lib ,Version=9,Culture=de, Token=7, Version=+1.02 ,Culture=neutral"
    let respaced := "Lib\t, x,Version=9 ,,  Culture=de,Version=+1.02,Culture=neutral , Token=7"
    let unreadable := "Lib, Version=3, Version= 1, Version=2"
    parse s = .ok ⟨"Lib", ⟨1, 2, 0, 0⟩, some "de"⟩ ∧ parse s = parse respaced ∧
      parse unreadable = .error (.badComponent " 1") ∧
      parse " ,Version=x" = .error .emptyAssemblyName := by
  intro s respaced unreadable
  refine ⟨by decide +kernel, ?_, ?_, ?_⟩
  · apply (parse_grammar s).2.2.2.2.2
    · exact respaced_iff.mpr (by decide +kernel)
    · exact forall₂_respaced_iff.mpr (by decide +kernel)
  · apply (parse_grammar unreadable).2.2.2.2.1 (by decide +kernel) ["3"] " 1" ["2"]
    · decide +kernel
    · intro u hu
      rw [List.mem_singleton.mp hu]
      exact ⟨⟨3, 0, 0, 0⟩, by decide +kernel⟩
    · decide +kernel
  · exact (parse_grammar _).2.2.2.1 (by decide +kernel)

end TrimGuard.Assembly
