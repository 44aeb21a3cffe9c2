import ActorIsolation.Span

/-! Diagnostics: coded messages at positions, and their canonical order. -/

set_option autoImplicit false

namespace ActorIsolation

inductive Severity where
  | error
  | warning
  | note
  deriving DecidableEq, Repr, Inhabited

def Severity.text : Severity → String
  | .error => "error"
  | .warning => "warning"
  | .note => "note"

instance : Ranked Severity where
  rank
    | .error => [0]
    | .warning => [1]
    | .note => [2]

structure Label where
  span : Span
  message : String
  isPrimary : Bool
  deriving DecidableEq, Repr, Inhabited

namespace Label

def primary (span : Span) (message : String) : Label := ⟨span, message, true⟩

def secondary (span : Span) (message : String) : Label := ⟨span, message, false⟩

def order (label : Label) : List Nat :=
  Rank.flag (!label.isPrimary) ++ rank label.span ++ Rank.text label.message

end Label

structure Diagnostic where
  code : String
  severity : Severity
  message : String
  primary : Span
  labels : List Label := []
  notes : List String := []
  deriving DecidableEq, Repr, Inhabited

namespace Diagnostic

def withLabels (diagnostic : Diagnostic) (labels : List Label) : Diagnostic :=
  { diagnostic with labels := diagnostic.labels ++ labels }

def withNotes (diagnostic : Diagnostic) (notes : List String) : Diagnostic :=
  { diagnostic with notes := diagnostic.notes ++ notes }

def sortLabels (diagnostic : Diagnostic) : Diagnostic :=
  { diagnostic with labels := sortOn Label.order diagnostic.labels }

def normalize (diagnostic : Diagnostic) : Diagnostic :=
  { diagnostic.sortLabels with notes := sortOn Rank.text diagnostic.notes }

/-- Position, then code, then message. Severity, labels and notes do not count. -/
def order (diagnostic : Diagnostic) : List Nat :=
  rank diagnostic.primary ++ Rank.text diagnostic.code ++ Rank.text diagnostic.message

def sort (diagnostics : List Diagnostic) : List Diagnostic := sortOn order diagnostics

def normalizeAll (diagnostics : List Diagnostic) : List Diagnostic :=
  sort (diagnostics.map normalize)

end Diagnostic

end ActorIsolation
