/-
  TrimGuard/Text/Blank.lean
  =========================
  **Blank characters, and texts trimmed of them.**

  A character is blank when it has the Unicode property `White_Space`: 25 code
  points, in ten ranges.  Format characters that merely look empty, such as the
  zero width space U+200B or the byte order mark U+FEFF, are not blank, and
  neither are the separators U+001C to U+001F.
-/

namespace TrimGuard.Text

/-! ### The property -/

/-- The code points with the property `White_Space`, as inclusive ranges in
    ascending order. -/
def blankRanges : List (Nat × Nat) :=
  [(0x09, 0x0D), (0x20, 0x20), (0x85, 0x85), (0xA0, 0xA0), (0x1680, 0x1680),
   (0x2000, 0x200A), (0x2028, 0x2029), (0x202F, 0x202F), (0x205F, 0x205F),
   (0x3000, 0x3000)]

/-- Does the character have the property `White_Space`? -/
def isBlank (c : Char) : Bool :=
  blankRanges.any fun (first, last) => first ≤ c.toNat && c.toNat ≤ last

/-- The table lists 25 code points. -/
example : (blankRanges.map fun (first, last) => last + 1 - first).sum = 25 := by decide

theorem isBlank_eq_false_of_isDigit {c : Char} (h : c.isDigit = true) : isBlank c = false := by
  have hrange : '0'.toNat ≤ c.toNat ∧ c.toNat ≤ '9'.toNat := Char.isDigit_iff_toNat.mp h
  rw [show '0'.toNat = 48 from rfl, show '9'.toNat = 57 from rfl] at hrange
  simp only [isBlank, blankRanges, List.any_cons, List.any_nil, Bool.or_false,
    Bool.or_eq_false_iff, Bool.and_eq_false_iff, decide_eq_false_iff_not]
  omega

/-! ### Trimming -/

def trimStart (cs : List Char) : List Char := cs.dropWhile isBlank

def trimEnd (cs : List Char) : List Char := (cs.reverse.dropWhile isBlank).reverse

/-- Drop the blanks at both ends; blanks inside stay. -/
def trim (cs : List Char) : List Char := trimEnd (trimStart cs)

/-! A text is left as it is if there is no blank where it is trimmed. -/

theorem trimStart_eq_self_iff {cs : List Char} :
    trimStart cs = cs ↔ ∀ c, cs.head? = some c → isBlank c = false := by
  rcases cs with _ | ⟨c, cs⟩
  · simp [trimStart]
  · rcases hblank : isBlank c
    · simp [trimStart, hblank]
    · have hshort : (cs.dropWhile isBlank).length ≠ cs.length + 1 :=
        Nat.ne_of_lt (Nat.lt_succ_of_le (List.dropWhile_sublist isBlank).length_le)
      have hne : trimStart (c :: cs) ≠ c :: cs := by
        intro heq
        rw [trimStart, List.dropWhile_cons_of_pos hblank] at heq
        exact hshort (congrArg List.length heq)
      simp [hne, hblank]

theorem trimEnd_eq_self_iff {cs : List Char} :
    trimEnd cs = cs ↔ ∀ c, cs.getLast? = some c → isBlank c = false := by
  rw [trimEnd, List.reverse_eq_iff, ← List.head?_reverse]
  exact trimStart_eq_self_iff

theorem trimStart_trimStart (cs : List Char) : trimStart (trimStart cs) = trimStart cs := by
  rw [trimStart_eq_self_iff]
  intro c hc
  have hhead := List.head?_dropWhile_not isBlank cs
  rw [trimStart] at hc
  rw [hc] at hhead
  exact hhead

theorem trimEnd_trimEnd (cs : List Char) : trimEnd (trimEnd cs) = trimEnd cs := by
  have hagain := trimStart_trimStart cs.reverse
  simp only [trimStart] at hagain
  simp only [trimEnd, List.reverse_reverse, hagain]

theorem trimEnd_isPrefix (cs : List Char) : trimEnd cs <+: cs := by
  rw [← List.reverse_suffix, trimEnd, List.reverse_reverse]
  exact List.dropWhile_suffix isBlank

theorem trim_isInfix (cs : List Char) : trim cs <:+: cs :=
  (trimEnd_isPrefix _).isInfix.trans (List.dropWhile_suffix isBlank).isInfix

theorem trimEnd_trim (cs : List Char) : trimEnd (trim cs) = trim cs := trimEnd_trimEnd _

/-- A text has been trimmed to the end after one time. -/
theorem trim_trim (cs : List Char) : trim (trim cs) = trim cs := by
  have hstart : trimStart (trim cs) = trim cs := by
    rw [trimStart_eq_self_iff]
    intro c hc
    -- what is trimmed at its end still begins as it did
    obtain ⟨rest, hrest⟩ := trimEnd_isPrefix (trimStart cs)
    apply trimStart_eq_self_iff.mp (trimStart_trimStart cs)
    rw [← hrest]
    rw [trim] at hc
    simp [hc]
  rw [trim, hstart, trimEnd_trim]

theorem trim_cons_of_isBlank {c : Char} (h : isBlank c = true) (cs : List Char) :
    trim (c :: cs) = trim cs := by
  simp [trim, trimStart, h]

theorem trimStart_append_of_isBlank {before : List Char} (h : ∀ c ∈ before, isBlank c = true)
    (cs : List Char) : trimStart (before ++ cs) = trimStart cs :=
  List.dropWhile_append_of_pos h

theorem trimEnd_append_of_isBlank {after : List Char} (h : ∀ c ∈ after, isBlank c = true)
    (cs : List Char) : trimEnd (cs ++ after) = trimEnd cs := by
  have hback : ∀ c ∈ after.reverse, isBlank c = true := fun c hc => h c (List.mem_reverse.mp hc)
  rw [trimEnd, List.reverse_append, List.dropWhile_append_of_pos hback, trimEnd]

/-- Blanks that are put around a text are trimmed off. -/
theorem trim_append_of_isBlank {before after : List Char}
    (hbefore : ∀ c ∈ before, isBlank c = true) (hafter : ∀ c ∈ after, isBlank c = true)
    (cs : List Char) : trim (before ++ cs ++ after) = trim cs := by
  rw [List.append_assoc, trim, trimStart_append_of_isBlank hbefore, trimStart,
    List.dropWhile_append]
  split
  next hempty =>
    -- the text is blank itself, so there is nothing left on either side
    have hafter' : after.dropWhile isBlank = [] := by
      simpa [trimStart] using trimStart_append_of_isBlank hafter []
    rw [trim, trimStart, List.isEmpty_iff.mp hempty, hafter']
  next => exact trimEnd_append_of_isBlank hafter _

/-- What is trimmed off is blank. -/
theorem exists_blanks_around (cs : List Char) :
    ∃ before after, (∀ c ∈ before, isBlank c = true) ∧ (∀ c ∈ after, isBlank c = true) ∧
      cs = before ++ trim cs ++ after := by
  refine ⟨cs.takeWhile isBlank, ((trimStart cs).reverse.takeWhile isBlank).reverse, ?_, ?_, ?_⟩
  · exact List.all_eq_true.mp List.all_takeWhile
  · intro c hc
    exact List.all_eq_true.mp List.all_takeWhile c (List.mem_reverse.mp hc)
  · have hend : trim cs ++ ((trimStart cs).reverse.takeWhile isBlank).reverse = trimStart cs := by
      rw [trim, trimEnd, ← List.reverse_append, List.takeWhile_append_dropWhile,
        List.reverse_reverse]
    rw [List.append_assoc, hend, trimStart, List.takeWhile_append_dropWhile]

end TrimGuard.Text
