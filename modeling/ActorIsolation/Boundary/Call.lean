import ActorIsolation.Boundary.Crossing
import ActorIsolation.Boundary.Violation
import ActorIsolation.Sendability.Walk

/-! Violations at call edges. -/

set_option autoImplicit false

namespace ActorIsolation

namespace Boundary

variable (graph : Graph) (options : Options)

def resultType? (edge : CallEdge) : Option TypeRef :=
  edge.result.or <|
    match graph.decl? edge.callee with
    | some { kind := .storedProperty, type, .. } => type
    | _ => none

def transferred (edge : CallEdge) : List ValueRef :=
  edge.arguments.map (fun transfer => ⟨.argument, transfer.name, transfer.type⟩) ++
    edge.captures.map (fun transfer => ⟨.capture, transfer.name, transfer.type⟩) ++
      (resultType? graph edge).toList.map (⟨.result, graph.nameOf edge.callee, ·⟩)

def edgeViolation (edge : CallEdge) (source target : Domain) (category : Category)
    (value : Option ValueRef) : Violation where
  category
  subject := .edge edge.id
  decl := edge.caller
  related := some edge.callee
  value
  source
  target
  span := edge.span.or (graph.spanOf? edge.caller)
  severity := options.mode.severity

/-- A value that is not Sendable must not be handed over; one that is so by word goes on record. -/
def valueViolations (edge : CallEdge) (source target : Domain) (value : ValueRef) :
    Analysis (List Violation) := do
  match ← sendabilityFrom graph options value.type (options.moduleOf edge.caller) with
  | .sendable => return []
  | .notSendable =>
    return [edgeViolation graph options edge source target .concurrentAccess (some value)]
  | .uncheckedSendable =>
    let asserted ← Walk.uncheckedAssertions graph value.type
    Analysis.auditAll (asserted.map (⟨·, .transfer edge.id value.kind value.name⟩))
    return []

def crossingViolations (edge : CallEdge) : Analysis (List Violation) := do
  let source ← Analysis.domain edge.caller
  let target ← Analysis.domain edge.callee
  if graph.crosses edge source target then
    let values ← Analysis.forEach (valueViolations graph options edge source target)
      (transferred graph edge)
    return (if edge.isAsynchronous then []
      else [edgeViolation graph options edge source target .missingSuspension none]) ++ values
  else
    return []

def foundAny (violations : List Violation) : Finding :=
  if violations.isEmpty then .clean else .violations

def edgeViolations (edge : CallEdge) : Analysis (List Violation) :=
  Analysis.tracked ⟨.boundaryEdge, edge.id.number⟩ foundAny (crossingViolations graph options edge)

end Boundary

end ActorIsolation
