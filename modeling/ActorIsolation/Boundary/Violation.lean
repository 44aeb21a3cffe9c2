import ActorIsolation.Boundary.Category
import ActorIsolation.Declaration
import ActorIsolation.Diagnostic.Basic
import ActorIsolation.Isolation.Domain

/-! Violations of isolation. -/

set_option autoImplicit false

namespace ActorIsolation

inductive Subject where
  | decl (id : DeclId)
  | edge (id : EdgeId)
  deriving DecidableEq, Repr, Inhabited

/-- Declarations come before call edges. -/
instance : Ranked Subject where
  rank
    | .decl id => 0 :: rank id
    | .edge id => 1 :: rank id

structure ValueRef where
  kind : ValueKind
  name : String
  type : TypeRef
  deriving DecidableEq, Repr, Inhabited

instance : Ranked ValueRef :=
  ⟨fun value => rank value.kind ++ Rank.text value.name ++ rank value.type⟩

structure Violation where
  category : Category
  subject : Subject
  /-- The offending declaration; for a call edge, the caller. -/
  decl : DeclId
  /-- The callee, the requirement, the overridden member or the referenced declaration. -/
  related : Option DeclId
  value : Option ValueRef
  source : Domain
  target : Domain
  span : Option Span
  severity : Severity
  deriving DecidableEq, Repr, Inhabited

namespace Violation

def valueName? (violation : Violation) : Option String := violation.value.map (·.name)

def order (violation : Violation) : List Nat :=
  rank violation.subject ++ rank violation.category ++
    Rank.optional Rank.text violation.valueName? ++ Rank.optional rank violation.related

def sort (violations : List Violation) : List Violation := sortOn order violations

end Violation

end ActorIsolation
