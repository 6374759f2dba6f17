/-
  TrimGuard/Profile.lean
  ======================
  **Platform profiles.**

  A profile says what native bridging looks like on a platform: which assembly is
  the platform binding, which well-known types make up the bridging contract, and
  how far a walk over the program may go before the program counts as malformed.
-/
import TrimGuard.Program.Signature
import TrimGuard.QualifiedName

namespace TrimGuard

/-- What the preservation pass has to know about a platform: the simple names of its
    binding assembly (`product`) and of one more that is trusted like it, the base type
    of all bridged objects, the interface of types that wrap a native handle, and the
    parameter type of the constructor that the native runtime calls.  The limits are the
    largest numbers of types around a nested type and of base types of a type. -/
structure Profile where
  product : String
  compat : String := "System.Net.Http"
  bridgeRoot : QualifiedName := ⟨"Foundation", "NSObject"⟩
  nativeObject : QualifiedName := ⟨"ObjCRuntime", "INativeObject"⟩
  nativeHandle : Param := .nativeInt
  maxNesting : Nat := 64
  maxHierarchy : Nat := 64
deriving DecidableEq

namespace Profile

def iOS : Profile := { product := "Xamarin.iOS" }

def macOS : Profile := { product := "Xamarin.Mac" }

/-- The same profile with both limits set to `depth`. -/
def withDepth (p : Profile) (depth : Nat) : Profile :=
  { p with maxNesting := depth, maxHierarchy := depth }

end Profile

end TrimGuard
