/-
  TrimGuard/QualifiedName.lean
  ============================
  **Namespace-qualified type names.**

  A type is defined under a namespace and a simple name.  Well-known types are
  recognised by this pair alone, in whichever assembly they are defined.  The
  namespace is empty for nested types and for the global namespace, and then the
  written name is the simple name without a dot.
-/

namespace TrimGuard

structure QualifiedName where
  «namespace» : String
  name : String
deriving DecidableEq

namespace QualifiedName

/-- The two parts joined by a dot, whether or not the namespace is empty. -/
def dotted (n : QualifiedName) : String := n.namespace ++ "." ++ n.name

/-- The full name: joined by a dot, or the simple name where the namespace is
    empty. -/
def text (n : QualifiedName) : String :=
  if n.namespace.isEmpty then n.name else n.dotted

end QualifiedName

end TrimGuard
