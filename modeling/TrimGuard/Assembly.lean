/-
  TrimGuard/Assembly.lean
  =======================
  **Assembly identities and their display names.**

  Every type is owned by an assembly, and an assembly is identified by its simple
  name, its version and its culture.  Two versions of one library loaded side by
  side are two different owners.  The display name writes an identity as a list
  of parts separated by commas, as in

      Name, Version=1.2.3.4, Culture=neutral

  Reading is more liberal than writing.  The name comes first and must not be
  empty.  The later parts come in any order and any number, blanks around a part
  do not count, a repeated part overrides the earlier one, and parts of another
  kind are passed over.  The culture `neutral` and the empty culture say nothing:
  they do not even take back a culture given before them.
-/
import TrimGuard.Assembly.Version
import TrimGuard.Text.Blank

namespace TrimGuard

open TrimGuard.Text

/-- The identity of an assembly.  `culture` is `none` for a culture-neutral one. -/
structure Assembly where
  name : String
  version : Version
  culture : Option String
deriving DecidableEq

namespace Assembly

/-! ### The parts of a display name -/

/-- The marker of a version part. -/
def versionKey : String := "Version="

/-- The marker of a culture part. -/
def cultureKey : String := "Culture="

/-- The word written where there is no culture. -/
def neutral : String := "neutral"

/-! ### Writing -/

/-- The display name: all three parts, in the order name, version, culture. -/
def displayName (a : Assembly) : String :=
  a.name ++ ", " ++ versionKey ++ a.version.text ++ ", " ++ cultureKey ++ a.culture.getD neutral

/-! ### Reading -/

/-- Take in one part after the name. -/
def readPart (a : Assembly) (part : List Char) : Except Fault Assembly :=
  match versionKey.toList.isPrefixOf? part with
  | some version => (Version.ofChars version).map fun v => { a with version := v }
  | none =>
    match cultureKey.toList.isPrefixOf? part with
    | some culture =>
      if culture = [] ∨ culture = neutral.toList then .ok a
      else .ok { a with culture := some (String.ofList culture) }
    | none => .ok a

/-- Read a display name from its characters. -/
def ofChars (cs : List Char) : Except Fault Assembly :=
  let (first, rest) := fields ',' cs
  match trim first with
  | [] => .error .emptyAssemblyName
  | name => (rest.map trim).foldlM readPart ⟨String.ofList name, .unknown, none⟩

def parse (s : String) : Except Fault Assembly := ofChars s.toList

end Assembly

end TrimGuard
