import ActorIsolation.Activity.Trace
import ActorIsolation.Checker
import ActorIsolation.Interchange.Options

/-! The results of a check in JSON. -/

set_option autoImplicit false

namespace ActorIsolation

open Json

instance : Readable Domain where
  read nesting json := do
    let alternative ← Alternative.ofJson? nesting json
    match alternative.tag with
    | "non_isolated" => alternative.bare .nonisolated
    | "actor_instance" => return .actorInstance (← alternative.carrying)
    | "global_actor" => return .globalActor (← alternative.carrying)
    | _ => none

instance : Writable Domain where
  write
    | .nonisolated => .string "non_isolated"
    | .actorInstance actor => .tagged "actor_instance" (write actor)
    | .globalActor actor => .tagged "global_actor" (write actor)

instance : Named Origin where
  all := Origin.all
  name
    | .explicit => "explicit"
    | .isolatedParameter => "isolated_param"
    | .actorSelf => "actor_self"
    | .actorStorage => "actor_storage"
    | .actorType => "actor_type"
    | .entryPoint => "entry_point"
    | .closureContext => "closure_context"
    | .extension => "extension"
    | .enclosingType => "enclosing_type"
    | .requirement => "requirement"
    | .override => "override"
    | .conformance => "conformance"
    | .inheritance => "inheritance"
    | .default => "default"
    | .cycle => "cycle"
    | .conflict => "conflict"
    | .ambiguous => "ambiguous"

instance : Readable Isolation where
  read := readRecord ["domain", "source"] fun record => do
    return { domain := ← record.field "domain", origin := ← record.field "source" }

instance : Writable Isolation where
  write isolation :=
    .record [("domain", write isolation.domain), ("source", write isolation.origin)]

instance : Named Sendability where
  all := [.sendable, .notSendable, .uncheckedSendable]
  name
    | .sendable => "sendable"
    | .notSendable => "not_sendable"
    | .uncheckedSendable => "unchecked_sendable"

instance : Readable ResolutionIssueKind where
  read nesting json := do
    let alternative ← Alternative.ofJson? nesting json
    match alternative.tag with
    | "cycle" => alternative.bare .cycle
    | "conflicting_annotations" => alternative.bare .conflictingAnnotations
    | "ambiguous_inference" =>
      alternative.payloadWith <| readRecord ["candidates"] fun record => do
        return .ambiguousInference (← record.field "candidates")
    | _ => none

instance : Writable ResolutionIssueKind where
  write
    | .cycle => .string "cycle"
    | .conflictingAnnotations => .string "conflicting_annotations"
    | .ambiguousInference candidates =>
      .tagged "ambiguous_inference" (.record [("candidates", write candidates)])

instance : Readable ResolutionIssue where
  read := readRecord ["decl", "kind"] fun record => do
    return { decl := ← record.field "decl", kind := ← record.field "kind" }

instance : Writable ResolutionIssue where
  write issue := .record [("decl", write issue.decl), ("kind", write issue.kind)]

instance : Readable SendableIssueKind where
  read nesting json := do
    let alternative ← Alternative.ofJson? nesting json
    match alternative.tag with
    | "subclassable" => alternative.bare .subclassable
    | "non_sendable_field" =>
      alternative.payloadWith <| readRecord ["field"] fun record => do
        return .nonSendableField (← record.field "field")
    | "mutable_field" =>
      alternative.payloadWith <| readRecord ["field"] fun record => do
        return .mutableField (← record.field "field")
    | _ => none

instance : Writable SendableIssueKind where
  write
    | .subclassable => .string "subclassable"
    | .nonSendableField field => .tagged "non_sendable_field" (.record [("field", write field)])
    | .mutableField field => .tagged "mutable_field" (.record [("field", write field)])

instance : Readable SendableIssue where
  read := readRecord ["ty", "kind"] fun record => do
    return { type := ← record.field "ty", kind := ← record.field "kind" }

instance : Writable SendableIssue where
  write issue := .record [("ty", write issue.type), ("kind", write issue.kind)]

instance : Readable AuditReason where
  read nesting json := do
    let alternative ← Alternative.ofJson? nesting json
    match alternative.tag with
    | "transfer" =>
      alternative.payloadWith <| readRecord ["edge", "value", "name"] fun record => do
        return .transfer (← record.field "edge") (← record.field "value") (← record.field "name")
    | "field" =>
      alternative.payloadWith <| readRecord ["owner", "field"] fun record => do
        return .field (← record.field "owner") (← record.field "field")
    | "shared_mutable" =>
      alternative.payloadWith <| readRecord ["decl"] fun record => do
        return .sharedMutable (← record.field "decl")
    | "nonisolated_unsafe" =>
      alternative.payloadWith <| readRecord ["decl"] fun record => do
        return .nonisolatedUnsafe (← record.field "decl")
    | _ => none

instance : Writable AuditReason where
  write
    | .transfer edge value name =>
      .tagged "transfer"
        (.record [("edge", write edge), ("value", write value), ("name", write name)])
    | .field owner field =>
      .tagged "field" (.record [("owner", write owner), ("field", write field)])
    | .sharedMutable decl => .tagged "shared_mutable" (.record [("decl", write decl)])
    | .nonisolatedUnsafe decl => .tagged "nonisolated_unsafe" (.record [("decl", write decl)])

instance : Readable AuditRecord where
  read := readRecord ["asserted", "reason"] fun record => do
    return { asserted := ← record.field "asserted", reason := ← record.field "reason" }

instance : Writable AuditRecord where
  write record := .record [("asserted", write record.asserted), ("reason", write record.reason)]

instance : Readable Subject where
  read nesting json := do
    let alternative ← Alternative.ofJson? nesting json
    match alternative.tag with
    | "decl" => return .decl (← alternative.carrying)
    | "edge" => return .edge (← alternative.carrying)
    | _ => none

instance : Writable Subject where
  write
    | .decl id => .tagged "decl" (write id)
    | .edge id => .tagged "edge" (write id)

instance : Readable ValueRef where
  read := readRecord ["kind", "name", "ty"] fun record => do
    return {
      kind := ← record.field "kind"
      name := ← record.field "name"
      type := ← record.field "ty" }

instance : Writable ValueRef where
  write value :=
    .record [("kind", write value.kind), ("name", write value.name), ("ty", write value.type)]

instance : Writable Violation where
  write violation := .record [
    ("category", write violation.category), ("subject", write violation.subject),
    ("decl", write violation.decl), ("related", write violation.related),
    ("value", write violation.value), ("from", write violation.source),
    ("to", write violation.target), ("span", write violation.span),
    ("severity", write violation.severity)]

instance : Writable Label where
  write label := .record [
    ("span", write label.span), ("message", write label.message),
    ("is_primary", write label.isPrimary)]

instance : Writable Diagnostic where
  write diagnostic := .record [
    ("code", write diagnostic.code), ("severity", write diagnostic.severity),
    ("message", write diagnostic.message), ("primary", write diagnostic.primary),
    ("labels", write diagnostic.labels), ("notes", write diagnostic.notes)]

instance : Writable Code where
  write code := .record [
    ("id", write code.id), ("description", write code.description),
    ("primary_span", write code.primarySpan), ("labels", write code.labels),
    ("notes", write code.notes)]

end ActorIsolation
