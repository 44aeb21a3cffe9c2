import ActorIsolation.Declaration
import ActorIsolation.Json.Record

/-! Declarations, extensions and call edges in JSON. -/

set_option autoImplicit false

namespace ActorIsolation

open Json

def readId {α : Type} (make : Nat → α) : Reader α :=
  fun nesting json => (word nesting json).map make

instance : Readable FileId := ⟨readId .mk⟩

instance : Writable FileId := ⟨fun id => .nat id.number⟩

instance : Readable DeclId := ⟨readId .mk⟩

instance : Writable DeclId := ⟨fun id => .nat id.number⟩

instance : Readable ExtensionId := ⟨readId .mk⟩

instance : Writable ExtensionId := ⟨fun id => .nat id.number⟩

instance : Readable EdgeId := ⟨readId .mk⟩

instance : Writable EdgeId := ⟨fun id => .nat id.number⟩

instance : Readable ModuleId := ⟨readId .mk⟩

instance : Writable ModuleId := ⟨fun id => .nat id.number⟩

instance : Readable TextRange where
  read := readRecord ["start", "end"] fun record => do
    return { start := ← record.fieldWith word "start", stop := ← record.fieldWith word "end" }

instance : Writable TextRange :=
  ⟨fun range => .record [("start", .nat range.start), ("end", .nat range.stop)]⟩

instance : Readable Span where
  read := readRecord ["file", "range"] fun record => do
    return { file := ← record.field "file", range := ← record.field "range" }

instance : Writable Span :=
  ⟨fun span => .record [("file", write span.file), ("range", write span.range)]⟩

instance : Named TypeKind where
  all := [.struct, .enum, .classType, .actor, .protocol]
  name
    | .struct => "struct"
    | .enum => "enum"
    | .classType => "class"
    | .actor => "actor"
    | .protocol => "protocol"

instance : Named Assertion where
  all := [.absent, .checked, .unchecked]
  name
    | .absent => "none"
    | .checked => "checked"
    | .unchecked => "unchecked"

instance : Named EdgeKind where
  all := [.call, .spawn]
  name
    | .call => "call"
    | .spawn => "spawn"

instance : Named ValueKind where
  all := [.argument, .capture, .result]
  name
    | .argument => "argument"
    | .capture => "capture"
    | .result => "result"

instance : Readable DeclKind where
  read nesting json := do
    let alternative ← Alternative.ofJson? nesting json
    match alternative.tag with
    | "type" => return .type (← alternative.carrying)
    | "function" => alternative.bare .function
    | "stored_property" => alternative.bare .storedProperty
    | "closure" =>
      alternative.payloadWith <| readRecord ["inherits_isolation"] fun record => do
        return .closure (← record.field "inherits_isolation")
    | _ => none

instance : Writable DeclKind where
  write
    | .type kind => .tagged "type" (write kind)
    | .function => .string "function"
    | .storedProperty => .string "stored_property"
    | .closure inherits => .tagged "closure" (.record [("inherits_isolation", write inherits)])

instance : Readable Scope where
  read nesting json := do
    let alternative ← Alternative.ofJson? nesting json
    match alternative.tag with
    | "primary" => alternative.bare .primary
    | "extension" => return .extension (← alternative.carrying)
    | _ => none

instance : Writable Scope where
  write
    | .primary => .string "primary"
    | .extension id => .tagged "extension" (write id)

instance : Readable Annotation where
  read nesting json := do
    let alternative ← Alternative.ofJson? nesting json
    match alternative.tag with
    | "nonisolated" => alternative.bare .nonisolated
    | "nonisolated_unsafe" => alternative.bare .nonisolatedUnsafe
    | "global_actor" => return .globalActor (← alternative.carrying)
    | "isolated_param" =>
      alternative.payloadWith <| readRecord ["name", "actor"] fun record => do
        return .isolatedParameter (← record.field "name") (← record.field "actor")
    | _ => none

instance : Writable Annotation where
  write
    | .nonisolated => .string "nonisolated"
    | .nonisolatedUnsafe => .string "nonisolated_unsafe"
    | .globalActor actor => .tagged "global_actor" (write actor)
    | .isolatedParameter name actor =>
      .tagged "isolated_param" (.record [("name", write name), ("actor", write actor)])

/-- Types nest, and every level of them takes one or two levels of nesting. -/
def readType : Reader TypeRef
  | 0, _ => none
  | nesting + 1, json => do
    let alternative ← Alternative.ofJson? (nesting + 1) json
    let payload ← alternative.payload
    match alternative.tag with
    | "primitive" => return .primitive (← read nesting payload)
    | "nominal" => return .nominal (← read nesting payload)
    | "tuple" =>
      match nesting, payload with
      | inner + 1, .array items => return .tuple (← items.mapM (readType inner))
      | _, _ => none
    | "optional" => return .optional (← readType nesting payload)
    | "function" =>
      let readFunction : Reader TypeRef := readRecord ["sendable"] fun record => do
        return .function (← record.field "sendable")
      readFunction nesting payload
    | _ => none

instance : Readable TypeRef := ⟨readType⟩

mutual

def writeType : TypeRef → Json
  | .primitive name => .tagged "primitive" (write name)
  | .nominal decl => .tagged "nominal" (write decl)
  | .tuple items => .tagged "tuple" (.array (writeTypes items))
  | .optional wrapped => .tagged "optional" (writeType wrapped)
  | .function sendable => .tagged "function" (.record [("sendable", write sendable)])

def writeTypes : List TypeRef → List Json
  | [] => []
  | item :: items => writeType item :: writeTypes items

end

instance : Writable TypeRef := ⟨writeType⟩

instance : Readable Conformance where
  read := readRecord ["protocol", "scope"] fun record => do
    return { protocol := ← record.field "protocol", scope := ← record.field "scope" }

instance : Writable Conformance where
  write conformance :=
    .record [("protocol", write conformance.protocol), ("scope", write conformance.scope)]

instance : Readable DefaultValue where
  read := readRecord ["references", "span"] fun record => do
    return { references := ← record.field "references", span := ← record.optional "span" }

instance : Writable DefaultValue where
  write value := .record [("references", write value.references), ("span", write value.span)]

instance : Readable Declaration where
  read := readRecord
    ["id", "name", "kind", "span", "enclosing", "scope", "annotations", "satisfies", "overrides",
      "conformances", "supertypes", "is_async", "is_static", "is_mutable", "is_final",
      "is_global_actor", "is_entry_point", "in_entry_file", "is_initializer", "actor_constrained",
      "ty", "default_value", "sendable"]
    fun record => do
      return {
        id := ← record.field "id"
        name := ← record.field "name"
        kind := ← record.field "kind"
        span := ← record.optional "span"
        enclosing := ← record.optional "enclosing"
        scope := ← record.field "scope"
        annotations := ← record.field "annotations"
        satisfies := ← record.field "satisfies"
        overrides := ← record.field "overrides"
        conformances := ← record.field "conformances"
        supertypes := ← record.field "supertypes"
        isAsync := ← record.field "is_async"
        isStatic := ← record.field "is_static"
        isMutable := ← record.field "is_mutable"
        isFinal := ← record.field "is_final"
        isGlobalActor := ← record.field "is_global_actor"
        isEntryPoint := ← record.field "is_entry_point"
        inEntryFile := ← record.field "in_entry_file"
        isInitializer := ← record.field "is_initializer"
        actorOnly := ← record.field "actor_constrained"
        type := ← record.optional "ty"
        defaultValue := ← record.optional "default_value"
        sendable := ← record.field "sendable" }

instance : Writable Declaration where
  write decl := .record [
    ("id", write decl.id), ("name", write decl.name), ("kind", write decl.kind),
    ("span", write decl.span), ("enclosing", write decl.enclosing), ("scope", write decl.scope),
    ("annotations", write decl.annotations), ("satisfies", write decl.satisfies),
    ("overrides", write decl.overrides), ("conformances", write decl.conformances),
    ("supertypes", write decl.supertypes), ("is_async", write decl.isAsync),
    ("is_static", write decl.isStatic), ("is_mutable", write decl.isMutable),
    ("is_final", write decl.isFinal), ("is_global_actor", write decl.isGlobalActor),
    ("is_entry_point", write decl.isEntryPoint), ("in_entry_file", write decl.inEntryFile),
    ("is_initializer", write decl.isInitializer), ("actor_constrained", write decl.actorOnly),
    ("ty", write decl.type), ("default_value", write decl.defaultValue),
    ("sendable", write decl.sendable)]

instance : Readable Extension where
  read := readRecord ["id", "extended", "global_actor", "span"] fun record => do
    return {
      id := ← record.field "id"
      extended := ← record.field "extended"
      globalActor := ← record.optional "global_actor"
      span := ← record.optional "span" }

instance : Writable Extension where
  write extension := .record [
    ("id", write extension.id), ("extended", write extension.extended),
    ("global_actor", write extension.globalActor), ("span", write extension.span)]

instance : Readable Transfer where
  read := readRecord ["name", "ty"] fun record => do
    return { name := ← record.field "name", type := ← record.field "ty" }

instance : Writable Transfer where
  write transfer := .record [("name", write transfer.name), ("ty", write transfer.type)]

instance : Readable CallEdge where
  read := readRecord
    ["id", "caller", "callee", "kind", "suspends", "receiver", "arguments", "captures", "result",
      "span"]
    fun record => do
      return {
        id := ← record.field "id"
        caller := ← record.field "caller"
        callee := ← record.field "callee"
        kind := ← record.field "kind"
        suspends := ← record.field "suspends"
        receiver := ← record.optional "receiver"
        arguments := ← record.field "arguments"
        captures := ← record.field "captures"
        result := ← record.optional "result"
        span := ← record.optional "span" }

instance : Writable CallEdge where
  write edge := .record [
    ("id", write edge.id), ("caller", write edge.caller), ("callee", write edge.callee),
    ("kind", write edge.kind), ("suspends", write edge.suspends),
    ("receiver", write edge.receiver), ("arguments", write edge.arguments),
    ("captures", write edge.captures), ("result", write edge.result), ("span", write edge.span)]

end ActorIsolation
