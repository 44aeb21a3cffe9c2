import ActorIsolation.Graph.Basic
import ActorIsolation.Isolation.Domain

/-! When a call leaves the caller's isolation domain. -/

set_option autoImplicit false

namespace ActorIsolation

def Declaration.isInheritingClosure (decl : Declaration) : Bool := decl.kind = .closure true

def Declaration.actorName (decl : Declaration) : String := decl.isolatedParameter?.getD "self"

namespace Graph

variable (graph : Graph)

/-- The name of the actor value a declaration is bound to: that of the first declaration, going
outwards, that is not an inheriting closure. -/
def binding? (id : DeclId) : Option String :=
  ((graph.chain id).find? (!·.isInheritingClosure)).map (·.actorName)

/-- The actor value a call goes through. A closure has one of its own; any other call goes through
its receiver or, without one, through the caller's. -/
def calleeBinding? (edge : CallEdge) : Option String :=
  match graph.decl? edge.callee with
  | some { kind := .closure _, .. } => graph.binding? edge.callee
  | _ => edge.receiver.or (graph.binding? edge.caller)

def isSameActorValue (edge : CallEdge) : Bool :=
  match graph.binding? edge.caller, graph.calleeBinding? edge with
  | some caller, some callee => caller = callee
  | _, _ => false

def isAsync (id : DeclId) : Bool :=
  match graph.decl? id with
  | some decl => decl.isAsync
  | none => false

/-- Whether a call from one domain into another moves to a different domain. A synchronous callee
without isolation runs where its caller runs; a task runs beside its creator. -/
def crosses (edge : CallEdge) (source target : Domain) : Bool :=
  match target with
  | .nonisolated => edge.kind = .spawn || (graph.isAsync edge.callee && source.isIsolated)
  | .globalActor _ => source ≠ target
  | .actorInstance _ => source ≠ target || !graph.isSameActorValue edge

end Graph

end ActorIsolation
