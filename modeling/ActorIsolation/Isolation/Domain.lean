import ActorIsolation.TypeRef

/-! Isolation domains, and how a declaration comes by one. -/

set_option autoImplicit false

namespace ActorIsolation

inductive Domain where
  | nonisolated
  /-- On one instance of this actor type. -/
  | actorInstance (actor : DeclId)
  | globalActor (actor : DeclId)
  deriving DecidableEq, Repr, Inhabited

namespace Domain

def isIsolated : Domain → Bool
  | .nonisolated => false
  | .actorInstance _ | .globalActor _ => true

def globalActor? : Domain → Option DeclId
  | .globalActor actor => some actor
  | .nonisolated | .actorInstance _ => none

def isGlobalActor (domain : Domain) : Bool := domain.globalActor?.isSome

def text : Domain → String
  | .nonisolated => "nonisolated"
  | .actorInstance actor => s!"actor-isolated to {actor.text}"
  | .globalActor actor => s!"global actor {actor.text}"

end Domain

instance : Ranked Domain where
  rank
    | .nonisolated => [0]
    | .actorInstance actor => 1 :: rank actor
    | .globalActor actor => 2 :: rank actor

/-- The rule that settled a declaration's domain. -/
inductive Origin where
  | explicit
  | isolatedParameter
  | actorSelf
  | actorStorage
  | actorType
  | entryPoint
  | closureContext
  | extension
  | enclosingType
  | requirement
  | override
  | conformance
  | inheritance
  | default
  | cycle
  | conflict
  | ambiguous
  deriving DecidableEq, Repr, Inhabited

namespace Origin

def all : List Origin :=
  [explicit, isolatedParameter, actorSelf, actorStorage, actorType, entryPoint, closureContext,
    extension, enclosingType, requirement, override, conformance, inheritance, default, cycle,
    conflict, ambiguous]

def isRecovery : Origin → Bool
  | .cycle | .conflict | .ambiguous => true
  | _ => false

end Origin

instance : Ranked Origin := ⟨fun origin => [Origin.all.idxOf origin]⟩

structure Isolation where
  domain : Domain
  origin : Origin
  deriving DecidableEq, Repr

namespace Isolation

def nonisolated (origin : Origin) : Isolation := ⟨.nonisolated, origin⟩

def fallback : Isolation := nonisolated .default

instance : Inhabited Isolation := ⟨fallback⟩

end Isolation

inductive ResolutionIssueKind where
  /-- The declaration's isolation depends on itself. -/
  | cycle
  | conflictingAnnotations
  /-- A rule offers several global actors. -/
  | ambiguousInference (candidates : List DeclId)
  deriving DecidableEq, Repr, Inhabited

structure ResolutionIssue where
  decl : DeclId
  kind : ResolutionIssueKind
  deriving DecidableEq, Repr, Inhabited

instance : Ranked ResolutionIssueKind where
  rank
    | .cycle => [0]
    | .conflictingAnnotations => [1]
    | .ambiguousInference candidates => 2 :: Rank.list rank candidates

instance : Ranked ResolutionIssue := ⟨fun issue => rank issue.decl ++ rank issue.kind⟩

end ActorIsolation
