import ActorIsolation.Order

/-! Source positions. -/

set_option autoImplicit false

namespace ActorIsolation

structure FileId where
  number : Nat
  deriving DecidableEq, Repr, Inhabited

structure TextRange where
  start : Nat
  stop : Nat
  deriving DecidableEq, Repr, Inhabited

namespace TextRange

def length (range : TextRange) : Nat := range.stop - range.start

def isEmpty (range : TextRange) : Bool := range.stop ≤ range.start

end TextRange

structure Span where
  file : FileId
  range : TextRange
  deriving DecidableEq, Repr, Inhabited

namespace Span

def placeholder : Span := ⟨⟨4294967295⟩, ⟨0, 0⟩⟩

/-- Any span in the placeholder's file is a placeholder. -/
def isPlaceholder (span : Span) : Bool := span.file == placeholder.file

end Span

instance : Ranked FileId := ⟨fun file => [file.number]⟩

instance : Ranked TextRange := ⟨fun range => [range.start, range.stop]⟩

instance : Ranked Span := ⟨fun span => rank span.file ++ rank span.range⟩

end ActorIsolation
