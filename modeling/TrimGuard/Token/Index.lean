/-
  TrimGuard/Token/Index.lean
  ==========================
  **Tokens filed under tokens.**

  Several relations of a program are recorded in one direction and asked for in
  the other: methods name their owner and the methods they override, while the
  questions are which methods a type has and which methods override a given one.
  An index answers them.  Tokens are filed one at a time; what is filed under a
  key keeps the order of filing, repetitions included.
-/
import Std.Data.ExtTreeMap
import TrimGuard.Token

namespace TrimGuard.Token

/-- The tokens filed under each key, in the order of filing. -/
abbrev Index := Std.ExtTreeMap Token (Array Token)

namespace Index

def under (ix : Index) (key : Token) : List Token := (ix.getD key #[]).toList

def file (ix : Index) (key entry : Token) : Index :=
  ix.alter key fun filed => some ((filed.getD #[]).push entry)

/-- The index of a list of pairs, each a key and the token to file under it. -/
def ofPairs (pairs : List (Token × Token)) : Index :=
  pairs.foldl (fun ix (key, entry) => ix.file key entry) ∅

@[simp] theorem under_empty (key : Token) : under ∅ key = [] := by
  simp [under]

/-- Filing appends to what is filed under the key and leaves other keys alone. -/
theorem under_file (ix : Index) (key entry k : Token) :
    (ix.file key entry).under k = if key = k then ix.under k ++ [entry] else ix.under k := by
  unfold under file
  rw [Std.ExtTreeMap.getD_eq_getD_getElem?, Std.ExtTreeMap.getD_eq_getD_getElem?,
    Std.ExtTreeMap.getElem?_alter]
  by_cases h : key = k
  · subst h; simp
  · simp [h]

/-- An index holds under each key the entries paired with it, in order. -/
theorem under_ofPairs (pairs : List (Token × Token)) (k : Token) :
    (ofPairs pairs).under k = (pairs.filter fun p => p.1 = k).map Prod.snd := by
  suffices h : ∀ ix : Index,
      (pairs.foldl (fun ix (key, entry) => ix.file key entry) ix).under k =
        ix.under k ++ (pairs.filter fun p => p.1 = k).map Prod.snd by
    simpa [ofPairs] using h ∅
  induction pairs with
  | nil => intro ix; simp
  | cons p pairs ih =>
    intro ix
    rw [List.foldl_cons, ih, under_file]
    by_cases h : p.1 = k <;> simp [h]

end Index

end TrimGuard.Token
