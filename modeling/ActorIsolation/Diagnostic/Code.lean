import ActorIsolation.Boundary.Category
import ActorIsolation.Diagnostic.Basic

/-! The registry of diagnostic codes: violations, declaration issues and audit notes. -/

set_option autoImplicit false

namespace ActorIsolation

structure Code where
  id : String
  description : String
  /-- What the primary span points at. -/
  primarySpan : String
  labels : List String
  /-- Notes that every diagnostic of this code carries. -/
  notes : List String
  deriving DecidableEq, Repr, Inhabited

namespace Code

def concurrentAccess : Code where
  id := "ISO0001"
  description := "non-Sendable value crosses an isolation boundary"
  primarySpan := "call site transferring the value"
  labels := ["primary: transferred value", "secondary: callee declaration"]
  notes := []

def unsafeSharedMutable : Code where
  id := "ISO0002"
  description := "shared mutable state is not concurrency-safe"
  primarySpan := "declaration of the mutable variable"
  labels := ["primary: variable declaration"]
  notes := ["isolate it to a global actor, make it immutable, or give it a Sendable type"]

def contractMismatch : Code where
  id := "ISO0003"
  description := "isolation does not match the requirement or overridden member"
  primarySpan := "witnessing or overriding declaration"
  labels := ["primary: witness", "secondary: requirement or overridden member"]
  notes := []

def missingSuspension : Code where
  id := "ISO0004"
  description := "isolation boundary crossed without a suspension point"
  primarySpan := "call site"
  labels := ["primary: call site", "secondary: callee declaration"]
  notes := ["calls into another isolation domain must be awaited"]

def unsafeIsolatedDefault : Code where
  id := "ISO0005"
  description := "default value requires isolated access"
  primarySpan := "default value expression"
  labels := ["primary: default value", "secondary: referenced declaration"]
  notes := []

def isolationCycle : Code where
  id := "ISO1001"
  description := "cyclic isolation inference"
  primarySpan := "declaration on the cycle"
  labels := ["primary: declaration"]
  notes := ["resolved as nonisolated"]

def conflictingAnnotations : Code where
  id := "ISO1002"
  description := "conflicting isolation annotations"
  primarySpan := "annotated declaration"
  labels := ["primary: declaration"]
  notes := ["resolved as nonisolated"]

def ambiguousInference : Code where
  id := "ISO1003"
  description := "ambiguous inferred isolation"
  primarySpan := "declaration with several inferred global actors"
  labels := ["primary: declaration", "secondary: candidate global actors"]
  notes := ["resolved as nonisolated"]

def invalidSendable : Code where
  id := "ISO1004"
  description := "type cannot conform to Sendable"
  primarySpan := "type carrying the assertion"
  labels := ["primary: type", "secondary: offending field"]
  notes := []

def uncheckedSendable : Code where
  id := "ISO2001"
  description := "unchecked Sendable assertion relied upon"
  primarySpan := "use relying on the assertion"
  labels := ["primary: use", "secondary: asserting type"]
  notes := []

def nonisolatedUnsafe : Code where
  id := "ISO2002"
  description := "nonisolated(unsafe) relied upon"
  primarySpan := "variable declaration"
  labels := ["primary: variable declaration"]
  notes := []

def all : List Code :=
  [concurrentAccess, unsafeSharedMutable, contractMismatch, missingSuspension,
    unsafeIsolatedDefault, isolationCycle, conflictingAnnotations, ambiguousInference,
    invalidSendable, uncheckedSendable, nonisolatedUnsafe]

def diagnostic (code : Code) (severity : Severity) (message : String) (primary : Span) :
    Diagnostic :=
  { code := code.id, severity, message, primary, notes := code.notes }

end Code

def Category.code : Category → Code
  | .concurrentAccess => .concurrentAccess
  | .unsafeSharedMutable => .unsafeSharedMutable
  | .contractMismatch => .contractMismatch
  | .missingSuspension => .missingSuspension
  | .unsafeIsolatedDefault => .unsafeIsolatedDefault

end ActorIsolation
