/-
  TrimGuard/Proofs/VersionGrammar.lean
  ====================================
  **Which texts are versions, and which versions they are.**

  A version is one to four numerals with dots between them, where a numeral is one or
  more decimal digits behind at most one plus sign.  There may be any number of zeros in
  front, so numerals are told apart by the number that they stand for and not by their
  length (`Numeral`).

  A component is read digit by digit into a word, and reading ends at the first digit
  that makes the number too large.  Nothing is lost by that, because a number only grows
  as digits are put behind it: what does not fit at some point does not fit at the end
  (`foldlM_pushDigit_eq_some_iff`).  The components are put into their places one after
  the other, and the places behind the last one stay as they were (`fill_eq_mapM`).
-/
import TrimGuard.Assembly.Scan
import TrimGuard.Proofs.SealedProgram
import TrimGuard.Proofs.VersionText
import Mathlib.Data.List.Induction
import Mathlib.Logic.ExistsUnique

namespace TrimGuard.Version

open TrimGuard.Text

/-! ### Numerals -/

/-- The text consists of decimal digits, and this is the number that they stand for. -/
inductive Digits : List Char → Nat → Prop
  | one {c : Char} : c.isDigit = true → Digits [c] (c.toNat - '0'.toNat)
  | concat {cs : List Char} {n : Nat} {c : Char} :
      Digits cs n → c.isDigit = true → Digits (cs ++ [c]) (10 * n + (c.toNat - '0'.toNat))

/-- The text consists of digits behind at most one plus sign. -/
inductive Numeral : List Char → Nat → Prop
  | plain {cs : List Char} {n : Nat} : Digits cs n → Numeral cs n
  | signed {cs : List Char} {n : Nat} : Digits cs n → Numeral ('+' :: cs) n

theorem digits_iff {cs : List Char} {n : Nat} :
    Digits cs n ↔
      cs ≠ [] ∧ (∀ c ∈ cs, c.isDigit = true) ∧ Nat.ofDigitChars 10 cs 0 = n := by
  constructor
  · intro h
    induction h with
    | @one c hc =>
      refine ⟨List.cons_ne_nil c [], ?_, ?_⟩
      · intro d hd
        rwa [List.mem_singleton.mp hd]
      · simp [Nat.ofDigitChars_cons]
    | @concat cs n c _ hc ih =>
      obtain ⟨-, hdigits, hvalue⟩ := ih
      refine ⟨List.concat_ne_nil c cs, ?_, ?_⟩
      · simp only [List.forall_mem_append, List.forall_mem_singleton]
        exact ⟨hdigits, hc⟩
      · rw [Nat.ofDigitChars_append, hvalue]
        simp [Nat.ofDigitChars_cons]
  · rintro ⟨hne, hdigits, rfl⟩
    induction cs using List.reverseRecOn with
    | nil => exact absurd rfl hne
    | append_singleton cs c ih =>
      simp only [List.forall_mem_append, List.forall_mem_singleton] at hdigits
      rw [Nat.ofDigitChars_append, Nat.ofDigitChars_cons, Nat.ofDigitChars_nil]
      by_cases hcs : cs = []
      · subst hcs
        simpa using Digits.one hdigits.2
      · exact .concat (ih hcs hdigits.1) hdigits.2

theorem numeral_iff {cs : List Char} {n : Nat} : Numeral cs n ↔ Digits (unsigned cs) n := by
  constructor
  · rintro (h | h)
    · rwa [unsigned_of_isDigit (digits_iff.mp h).2.1]
    · exact h
  · intro h
    unfold unsigned at h
    split at h
    next => exact .signed h
    next => exact .plain h

theorem numeral?_eq_some_iff {bound n : Nat} {cs : List Char} :
    numeral? bound cs = some n ↔ Numeral cs n ∧ n ≤ bound := by
  rw [numeral_iff, digits_iff, numeral?, Option.ite_none_right_eq_some, Option.some.injEq]
  constructor
  · rintro ⟨⟨⟨hne, hdigits⟩, hbound⟩, rfl⟩
    exact ⟨⟨hne, hdigits, rfl⟩, hbound⟩
  · rintro ⟨⟨hne, hdigits, rfl⟩, hbound⟩
    exact ⟨⟨⟨hne, hdigits⟩, hbound⟩, rfl⟩

/-- A numeral contains no dot. -/
theorem Numeral.dot_notMem {cs : List Char} {n : Nat} (h : Numeral cs n) : '.' ∉ cs := by
  have hdot : ∀ {ds : List Char}, Digits ds n → '.' ∉ ds := by
    intro ds hds hmem
    exact absurd ((digits_iff.mp hds).2.1 '.' hmem) (by decide)
  rcases h with h | h
  · exact hdot h
  · exact List.not_mem_cons_of_ne_of_not_mem (by decide) (hdot h)

/-! ### One component

Reading a component in one go and reading it digit by digit are measured against the
same relation. -/

/-- The text is a numeral for a number of at most 16 bits. -/
def Readable (cs : List Char) : Prop := ∃ n ≤ 65535, Numeral cs n

theorem toNat_le (n : UInt16) : n.toNat ≤ 65535 := Nat.le_of_lt_succ n.toNat_lt

theorem toNat_ofNat_of_le {n : Nat} (h : n ≤ 65535) : (UInt16.ofNat n).toNat = n :=
  UInt16.toNat_ofNat_of_lt' (Nat.lt_succ_of_le h)

theorem component_eq_ok_iff {cs : List Char} {n : UInt16} :
    component cs = .ok n ↔ Numeral cs n.toNat := by
  constructor
  · intro h
    rw [component] at h
    split at h
    next m hm =>
      obtain ⟨hnumeral, hbound⟩ := numeral?_eq_some_iff.mp hm
      cases h
      rwa [toNat_ofNat_of_le hbound]
    next => cases h
  · intro h
    have hread := numeral?_eq_some_iff.mpr ⟨h, toNat_le n⟩
    simp only [component, hread, UInt16.ofNat_toNat]

theorem exists_component_iff {cs : List Char} :
    (∃ n, component cs = .ok n) ↔ Readable cs := by
  constructor
  · rintro ⟨n, hn⟩
    exact ⟨n.toNat, toNat_le n, component_eq_ok_iff.mp hn⟩
  · rintro ⟨n, hbound, hn⟩
    refine ⟨.ofNat n, component_eq_ok_iff.mpr ?_⟩
    rwa [toNat_ofNat_of_le hbound]

theorem component_eq_error_iff {cs : List Char} {fault : Fault} :
    component cs = .error fault ↔
      ¬ Readable cs ∧ fault = .badComponent (String.ofList cs) := by
  rw [← exists_component_iff, component]
  rcases numeral? 65535 cs with _ | n <;> simp [eq_comm]

/-! ### Digit by digit -/

theorem word?_eq_some_iff {n : Nat} {w : UInt16} : word? n = some w ↔ n = w.toNat := by
  rw [word?, Option.ite_none_right_eq_some, Option.some.injEq]
  constructor
  · rintro ⟨hsize, rfl⟩
    exact (UInt16.toNat_ofNat_of_lt' hsize).symm
  · rintro rfl
    exact ⟨w.toNat_lt, UInt16.ofNat_toNat⟩

theorem pushDigit_eq_some_iff {n m : UInt16} {c : Char} :
    pushDigit n c = some m ↔
      c.isDigit = true ∧ 10 * n.toNat + (c.toNat - '0'.toNat) = m.toNat := by
  rw [pushDigit, Option.ite_none_right_eq_some, Option.bind_eq_bind, Option.bind_eq_some_iff]
  simp only [word?_eq_some_iff]
  constructor
  · rintro ⟨hc, tens, htens, hm⟩
    rw [htens]
    exact ⟨hc, hm⟩
  · rintro ⟨hc, hm⟩
    -- what fits with the digit behind it fits without it
    have hlt : 10 * n.toNat < UInt16.size := by
      have := m.toNat_lt
      simp only [UInt16.size]
      omega
    have htens := UInt16.toNat_ofNat_of_lt' hlt
    exact ⟨hc, .ofNat (10 * n.toNat), htens.symm, by rw [htens, hm]⟩

theorem le_ofDigitChars (cs : List Char) (n : Nat) : n ≤ Nat.ofDigitChars 10 cs n := by
  induction cs generalizing n with
  | nil => exact Nat.le_refl n
  | cons c cs ih =>
    rw [Nat.ofDigitChars_cons]
    exact Nat.le_trans (by omega) (ih _)

/-- **Digits are read to the end if and only if their number fits into the word.** -/
theorem foldlM_pushDigit_eq_some_iff {cs : List Char} {n m : UInt16} :
    cs.foldlM pushDigit n = some m ↔
      (∀ c ∈ cs, c.isDigit = true) ∧ Nat.ofDigitChars 10 cs n.toNat = m.toNat := by
  induction cs generalizing n with
  | nil => simp [Nat.ofDigitChars_nil, UInt16.toNat_inj]
  | cons c cs ih =>
    rw [List.foldlM_cons, Option.bind_eq_bind, Option.bind_eq_some_iff, List.forall_mem_cons,
      Nat.ofDigitChars_cons]
    simp only [pushDigit_eq_some_iff, ih]
    constructor
    · rintro ⟨k, ⟨hc, hk⟩, hcs, hm⟩
      rw [hk]
      exact ⟨⟨hc, hcs⟩, hm⟩
    · rintro ⟨⟨hc, hcs⟩, hm⟩
      -- a number only grows as digits are put behind it
      have hlt : 10 * n.toNat + (c.toNat - '0'.toNat) < UInt16.size :=
        Nat.lt_of_le_of_lt (hm ▸ le_ofDigitChars cs _) m.toNat_lt
      have hk := UInt16.toNat_ofNat_of_lt' hlt
      exact ⟨.ofNat _, ⟨hc, hk.symm⟩, hcs, by rw [hk, hm]⟩

theorem scanNumeral?_eq_some_iff {cs : List Char} {n : UInt16} :
    scanNumeral? cs = some n ↔ Numeral cs n.toNat := by
  rw [numeral_iff, digits_iff, scanNumeral?]
  split
  next hnil => simp [hnil]
  next hne =>
    simp only [foldlM_pushDigit_eq_some_iff, UInt16.toNat_zero]
    exact ⟨fun h => ⟨hne, h⟩, fun h => h.2⟩

theorem scanNumeral?_eq (cs : List Char) :
    scanNumeral? cs = (numeral? 65535 cs).map UInt16.ofNat := by
  ext n
  rw [scanNumeral?_eq_some_iff, Option.map_eq_some_iff]
  constructor
  · intro h
    exact ⟨n.toNat, numeral?_eq_some_iff.mpr ⟨h, toNat_le n⟩, UInt16.ofNat_toNat⟩
  · rintro ⟨m, hm, rfl⟩
    obtain ⟨hnumeral, hbound⟩ := numeral?_eq_some_iff.mp hm
    rwa [toNat_ofNat_of_le hbound]

theorem scanComponent_eq (cs : List Char) : scanComponent cs = component cs := by
  rw [scanComponent, component, scanNumeral?_eq]
  rcases numeral? 65535 cs with _ | n <;> rfl

/-! ### Place by place -/

/-- **The places that are filled hold the components, and those that are left are zero.** -/
theorem fill_eq_mapM {parts : List (List Char)} {filled : List UInt16} {left : Nat} :
    fill filled.length (filled ++ List.replicate (parts.length + left) 0) parts =
      (parts.mapM component).map fun ns => filled ++ ns ++ List.replicate left 0 := by
  induction parts generalizing filled with
  | nil => simp [fill, pure, Except.pure, Except.map]
  | cons cs parts ih =>
    rw [fill, scanComponent_eq, List.mapM_cons]
    rcases component cs with fault | n
    · rfl
    · have hset : (filled ++ List.replicate ((cs :: parts).length + left) 0).set filled.length n =
          (filled ++ [n]) ++ List.replicate (parts.length + left) 0 := by
        rw [List.set_append_right _ _ (Nat.le_refl _), Nat.sub_self, List.length_cons,
          Nat.add_right_comm, List.replicate_succ, List.set_cons_zero, List.append_assoc]
        rfl
      have hlength : (filled ++ [n]).length = filled.length + 1 := List.length_append
      have hrest := @ih (filled ++ [n])
      rw [hlength] at hrest
      simp only [hset, hrest]
      rcases parts.mapM component with fault | ns
      · rfl
      · simp [bind, Except.bind, pure, Except.pure, Except.map]

/-- The components that are left out are zero. -/
theorem components_ofComponents {ns : List UInt16} (h : ns.length ≤ 4) :
    (ofComponents ns).components = ns ++ List.replicate (4 - ns.length) 0 := by
  match ns, h with
  | [], _ => rfl
  | [_], _ => rfl
  | [_, _], _ => rfl
  | [_, _, _], _ => rfl
  | [_, _, _, _], _ => rfl

theorem eq_ofComponents_iff {ns : List UInt16} (h : ns.length ≤ 4) {v : Version} :
    v = ofComponents ns ↔ v.components = ns ++ List.replicate (4 - ns.length) 0 := by
  rw [← components_ofComponents h]
  exact ⟨congrArg components, congrArg ofComponents⟩

/-- Filling places that are zero leaves out the same components. -/
theorem fill_zeros {parts : List (List Char)} (h : parts.length ≤ 4) :
    (fill 0 (List.replicate 4 0) parts).map ofComponents =
      (parts.mapM component).map ofComponents := by
  have hfill := @fill_eq_mapM parts [] (4 - parts.length)
  rw [Nat.add_sub_cancel' h] at hfill
  simp only [List.length_nil, List.nil_append] at hfill
  rw [hfill]
  rcases hread : parts.mapM component with fault | ns
  · rfl
  · have hlength : parts.length = ns.length := (mapM_eq_ok_iff.mp hread).length_eq
    rw [hlength] at h ⊢
    apply congrArg Except.ok
    change ofComponents (ns ++ List.replicate (4 - ns.length) 0) = ofComponents ns
    rw [← components_ofComponents h]
    rfl

/-- **A version is scanned as it is read.** -/
theorem scan_eq_parse (s : String) : scan s = parse s := by
  rcases hfields : fields '.' s.toList with ⟨first, rest⟩
  simp only [scan, parse, ofChars, hfields, String.ofList_toList]
  split
  next => rfl
  next hlen => exact fill_zeros (Nat.succ_le_succ (Nat.le_of_not_lt hlen))

/-! ### Parts -/

/-- These are the texts between the dots. -/
def Cut (s : String) (parts : List (List Char)) : Prop :=
  parts ≠ [] ∧ (∀ part ∈ parts, '.' ∉ part) ∧ ['.'].intercalate parts = s.toList

theorem cut_iff {s : String} {parts : List (List Char)} :
    Cut s parts ↔ parts = (fields '.' s.toList).1 :: (fields '.' s.toList).2 := by
  constructor
  · rintro ⟨hne, hdots, hjoin⟩
    obtain ⟨first, rest, rfl⟩ := List.exists_cons_of_ne_nil hne
    rw [← hjoin, fields_intercalate hdots]
  · rintro rfl
    exact ⟨List.cons_ne_nil _ _, notMem_fields '.' s.toList, intercalate_fields '.' s.toList⟩

theorem existsUnique_cut (s : String) : ∃! parts, Cut s parts :=
  ⟨_, cut_iff.mpr rfl, fun _ => cut_iff.mp⟩

variable {s : String} {parts : List (List Char)}

theorem Cut.parse_of_four_lt (h : Cut s parts) (hlen : 4 < parts.length) :
    parse s = .error (.tooManyComponents s) := by
  rw [cut_iff.mp h, List.length_cons] at hlen
  rw [parse, ofChars, String.ofList_toList]
  exact if_pos (Nat.lt_of_succ_lt_succ hlen)

theorem Cut.parse_of_le_four (h : Cut s parts) (hlen : parts.length ≤ 4) :
    parse s = (parts.mapM component).map ofComponents := by
  rw [cut_iff.mp h] at hlen ⊢
  exact if_neg (Nat.not_lt.mpr (Nat.le_of_succ_le_succ hlen))

/-! ### Spellings -/

/-- The text is one to four numerals within 16 bits with dots between them.  They are the
    components of the version from the first one on, and the others are zero. -/
def Spells (s : String) (v : Version) : Prop :=
  ∃ (parts : List (List Char)) (ns : List Nat),
    parts ≠ [] ∧ parts.length ≤ 4 ∧ ['.'].intercalate parts = s.toList ∧
      List.Forall₂ Numeral parts ns ∧ (∀ n ∈ ns, n ≤ 65535) ∧
      v.components.map UInt16.toNat = ns ++ List.replicate (4 - ns.length) 0

theorem cut_of_numerals {ns : List Nat} (hne : parts ≠ [])
    (hjoin : ['.'].intercalate parts = s.toList) (h : List.Forall₂ Numeral parts ns) :
    Cut s parts := by
  refine ⟨hne, ?_, hjoin⟩
  clear hne hjoin
  induction h with
  | nil => simp
  | cons hhead _ ih => exact List.forall_mem_cons.mpr ⟨hhead.dot_notMem, ih⟩

/-- Numbers within 16 bits are components. -/
theorem exists_words {ns : List Nat} (h : ∀ n ∈ ns, n ≤ 65535) :
    ∃ ms : List UInt16, ms.map UInt16.toNat = ns := by
  have hword : ∀ n ∈ ns, (UInt16.ofNat n).toNat = id n := fun n hn =>
    toNat_ofNat_of_le (h n hn)
  refine ⟨ns.map UInt16.ofNat, ?_⟩
  rw [List.map_map]
  exact (List.map_congr_left hword).trans (List.map_id ns)

theorem parse_eq_ok_iff {v : Version} : parse s = .ok v ↔ Spells s v := by
  constructor
  · intro h
    obtain ⟨parts, hcut, -⟩ := existsUnique_cut s
    rcases Nat.lt_or_ge 4 parts.length with hlen | hlen
    · rw [hcut.parse_of_four_lt hlen] at h
      cases h
    · rw [hcut.parse_of_le_four hlen] at h
      rcases hread : parts.mapM component with fault | ms <;> rw [hread] at h <;> cases h
      have hnumerals := mapM_eq_ok_iff.mp hread
      have hms : ms.length ≤ 4 := hnumerals.length_eq ▸ hlen
      refine ⟨parts, ms.map UInt16.toNat, hcut.1, hlen, hcut.2.2, ?_, ?_, ?_⟩
      · rw [List.forall₂_map_right_iff]
        exact hnumerals.imp fun _ _ => component_eq_ok_iff.mp
      · intro n hn
        obtain ⟨m, -, rfl⟩ := List.mem_map.mp hn
        exact toNat_le m
      · rw [components_ofComponents hms, List.map_append, List.map_replicate, List.length_map]
        rfl
  · rintro ⟨parts, ns, hne, hlen, hjoin, hnumerals, hbound, hv⟩
    have hcut := cut_of_numerals hne hjoin hnumerals
    obtain ⟨ms, rfl⟩ := exists_words hbound
    have hms : ms.length ≤ 4 := by
      rw [← List.length_map UInt16.toNat, ← hnumerals.length_eq]
      exact hlen
    have hread : parts.mapM component = .ok ms := by
      rw [List.forall₂_map_right_iff] at hnumerals
      exact mapM_eq_ok_iff.mpr (hnumerals.imp fun _ _ => component_eq_ok_iff.mpr)
    have hcomponents : v.components = ms ++ List.replicate (4 - ms.length) 0 := by
      rw [← List.map_inj_right fun _ _ => UInt16.toNat_inj.mp, List.map_append,
        List.map_replicate, hv, List.length_map]
      rfl
    rw [hcut.parse_of_le_four hlen, hread, (eq_ofComponents_iff hms).mpr hcomponents]
    rfl

/-! ### Texts that are no versions -/

/-- **A text with too many parts is refused as a whole, and another one for the first part
    that is not readable.** -/
theorem Cut.parse_eq_error_iff (h : Cut s parts) {fault : Fault} :
    parse s = .error fault ↔
      (4 < parts.length ∧ fault = .tooManyComponents s) ∨
      (parts.length ≤ 4 ∧ ∃ before bad after, parts = before ++ bad :: after ∧
        (∀ part ∈ before, Readable part) ∧ ¬ Readable bad ∧
        fault = .badComponent (String.ofList bad)) := by
  rcases Nat.lt_or_ge 4 parts.length with hlen | hlen
  · simp [h.parse_of_four_lt hlen, hlen, Nat.not_le.mpr hlen, eq_comm]
  · have hmap : (parts.mapM component).map ofComponents = .error fault ↔
        parts.mapM component = .error fault := by
      rcases parts.mapM component with e | ns <;> simp [Except.map]
    rw [h.parse_of_le_four hlen, hmap, mapM_eq_error_iff]
    simp only [exists_component_iff, component_eq_error_iff, hlen, Nat.not_lt.mpr hlen,
      false_and, false_or, true_and]

/-! ### The outcome -/

/-- **The texts that are versions are exactly the spellings of versions, and every version
    is read back from its text.**  Any other text is refused for the number of its parts
    if there are more than four, whatever they are, and else for the first part that is
    not readable.  It makes no difference whether the numbers are read digit by digit. -/
theorem parse_exact :
    (∀ s : String,
      (∃! parts, Cut s parts) ∧
      (∀ v, parse s = .ok v ↔ Spells s v) ∧
      (∀ parts, Cut s parts → ∀ fault, parse s = .error fault ↔
        (4 < parts.length ∧ fault = .tooManyComponents s) ∨
        (parts.length ≤ 4 ∧ ∃ before bad after, parts = before ++ bad :: after ∧
          (∀ part ∈ before, Readable part) ∧ ¬ Readable bad ∧
          fault = .badComponent (String.ofList bad))) ∧
      scan s = parse s) ∧
    (∀ v : Version, parse v.text = .ok v) ∧
    ∀ v w : Version, v.text = w.text → v = w := by
  have hback : ∀ v : Version, parse v.text = .ok v := ofChars_text
  refine ⟨?_, hback, ?_⟩
  · intro s
    exact ⟨existsUnique_cut s, fun v => parse_eq_ok_iff,
      fun parts h fault => h.parse_eq_error_iff, scan_eq_parse s⟩
  · intro v w h
    have hread := hback w
    rw [← h, hback v] at hread
    exact Except.ok.inj hread

/-- Zeros in front and a plus sign, a number that is too large by one, a digit of another
script, and a text with too many parts, some of which are empty. -/
theorem parse_exact_zeros :
    let s := "0000000007.+65535.00"
    let v : Version := ⟨7, 65535, 0, 0⟩
    let tooLarge := "1.065536.+"
    let foreign := "५.1"
    let tooMany := "..1.x.2"
    Spells s v ∧ parse s = .ok v ∧ parse v.text = .ok v ∧
      scan tooLarge = .error (.badComponent "065536") ∧
      parse foreign = .error (.badComponent "५") ∧
      parse tooMany = .error (.tooManyComponents tooMany) := by
  intro s v tooLarge foreign tooMany
  obtain ⟨htexts, hback, -⟩ := parse_exact
  have hread : parse s = .ok v := by decide +kernel
  have hlarge : parse tooLarge = .error (.badComponent "065536") := by
    have hcut : Cut tooLarge ["1".toList, "065536".toList, "+".toList] :=
      cut_iff.mpr (by decide +kernel)
    have herror : component "065536".toList = .error (.badComponent "065536") := by decide +kernel
    have hbad := (component_eq_error_iff.mp herror).1
    have hbefore : ∀ part ∈ ["1".toList], Readable part := by
      intro part hpart
      rw [List.mem_singleton.mp hpart]
      exact exists_component_iff.mp ⟨1, by decide +kernel⟩
    exact ((htexts tooLarge).2.2.1 _ hcut _).mpr
      (.inr ⟨by decide, _, _, ["+".toList], rfl, hbefore, hbad, rfl⟩)
  refine ⟨((htexts s).2.1 v).mp hread, hread, hback v,
    (htexts tooLarge).2.2.2.trans hlarge, ?_, ?_⟩
  · have hcut : Cut foreign ["५".toList, "1".toList] := cut_iff.mpr (by decide +kernel)
    have herror : component "५".toList = .error (.badComponent "५") := by decide +kernel
    have hbad := (component_eq_error_iff.mp herror).1
    exact ((htexts foreign).2.2.1 _ hcut _).mpr
      (.inr ⟨by decide, [], _, ["1".toList], rfl, List.forall_mem_nil _, hbad, rfl⟩)
  · exact ((htexts tooMany).2.2.1 _ (cut_iff.mpr rfl) _).mpr (.inl ⟨by decide +kernel, rfl⟩)

end TrimGuard.Version
