import ActorIsolation.Activity.Event

/-! The log as lines of a structured trace. -/

set_option autoImplicit false

namespace ActorIsolation

inductive TraceValue where
  | number (value : Nat)
  | flag (value : Bool)
  | text (value : String)
  /-- A time that was measured. -/
  | elapsed
  deriving DecidableEq, Repr, Inhabited

abbrev TraceFields := List (String × TraceValue)

inductive TraceLine where
  /-- A piece of work begins. -/
  | span (name : String) (fields : TraceFields)
  /-- Something becomes known about a piece of work. -/
  | record (name : String) (fields : TraceFields)
  | event (target : String) (fields : TraceFields) (message : String)
  deriving DecidableEq, Repr, Inhabited

def QueryKind.spanName : QueryKind → String
  | .resolveComponent => "isolation_check.resolve_component"
  | .sendable => "isolation_check.sendable"
  | .boundaryEdge => "isolation_check.boundary_edge"
  | .declarationScan => "isolation_check.declaration_scan"

def Finding.text : Finding → String
  | .ok => "ok"
  | .issues => "issues"
  | .sendable => "sendable"
  | .notSendable => "not_sendable"
  | .unchecked => "unchecked"
  | .clean => "clean"
  | .violations => "violations"

def Remark.line : Remark → TraceLine
  | .cyclicInference decl =>
    .event "isolation_check::resolve" [("decl", .number decl.number)] "cyclic isolation inference"
  | .conflictingAnnotations decl =>
    .event "isolation_check::resolve" [("decl", .number decl.number)]
      "conflicting isolation annotations"
  | .ambiguousInference decl =>
    .event "isolation_check::resolve" [("decl", .number decl.number)] "ambiguous inferred isolation"
  | .uncheckedReliance asserted =>
    .event "isolation_check::sendable" [("asserted", .number asserted.number)]
      "relying on unchecked assertion"

def Event.lines : Event → List TraceLine
  | .began declarations edges parallel =>
    [.span "isolation_check.check"
      [("declarations", .number declarations), ("edges", .number edges),
        ("parallel", .flag parallel)]]
  | .opened query =>
    [.span query.kind.spanName [("subject", .number query.subject), ("cache_hit", .flag false)]]
  | .closed query finding =>
    [.record query.kind.spanName [("outcome", .text finding.text)],
      .record query.kind.spanName [("duration_ms", .elapsed)]]
  | .remarked remark => [remark.line]
  | .finished violations issues audits =>
    [.event "isolation_check"
      [("violations", .number violations), ("issues", .number issues), ("audits", .number audits)]
      "isolation check finished"]

end ActorIsolation
