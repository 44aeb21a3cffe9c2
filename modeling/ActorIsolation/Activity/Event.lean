import ActorIsolation.TypeRef

/-! What a check writes down while it works. -/

set_option autoImplicit false

namespace ActorIsolation

inductive QueryKind where
  | resolveComponent
  | sendable
  | boundaryEdge
  | declarationScan
  deriving DecidableEq, Repr, Inhabited

instance : Ranked QueryKind where
  rank
    | .resolveComponent => [0]
    | .sendable => [1]
    | .boundaryEdge => [2]
    | .declarationScan => [3]

structure Query where
  kind : QueryKind
  subject : Nat
  deriving DecidableEq, Repr, Inhabited

inductive Finding where
  | ok
  | issues
  | sendable
  | notSendable
  | unchecked
  | clean
  | violations
  deriving DecidableEq, Repr, Inhabited

inductive Remark where
  | cyclicInference (decl : DeclId)
  | conflictingAnnotations (decl : DeclId)
  | ambiguousInference (decl : DeclId)
  /-- The assertion of this declaration has been believed. -/
  | uncheckedReliance (asserted : DeclId)
  deriving DecidableEq, Repr, Inhabited

inductive Event where
  | began (declarations edges : Nat) (parallel : Bool)
  | opened (query : Query)
  | closed (query : Query) (finding : Finding)
  | remarked (remark : Remark)
  | finished (violations issues audits : Nat)
  deriving DecidableEq, Repr, Inhabited

end ActorIsolation
