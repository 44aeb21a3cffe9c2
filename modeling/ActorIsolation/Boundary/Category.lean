import ActorIsolation.Order

/-! The kinds of violations. -/

set_option autoImplicit false

namespace ActorIsolation

inductive Category where
  /-- A value that is not Sendable crosses a boundary. -/
  | concurrentAccess
  | unsafeSharedMutable
  /-- An isolated implementation of what is not isolated so. -/
  | contractMismatch
  /-- A boundary is crossed by a synchronous call. -/
  | missingSuspension
  | unsafeIsolatedDefault
  deriving DecidableEq, Repr, Inhabited

namespace Category

def all : List Category :=
  [concurrentAccess, unsafeSharedMutable, contractMismatch, missingSuspension,
    unsafeIsolatedDefault]

def number : Category → Nat
  | .concurrentAccess => 1
  | .unsafeSharedMutable => 2
  | .contractMismatch => 3
  | .missingSuspension => 4
  | .unsafeIsolatedDefault => 5

def text : Category → String
  | .concurrentAccess => "concurrent access"
  | .unsafeSharedMutable => "unsafe shared mutable declaration"
  | .contractMismatch => "isolation contract mismatch"
  | .missingSuspension => "missing suspension"
  | .unsafeIsolatedDefault => "unsafe isolated default"

end Category

instance : Ranked Category := ⟨fun category => [category.number]⟩

end ActorIsolation
