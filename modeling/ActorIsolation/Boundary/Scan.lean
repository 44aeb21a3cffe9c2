import ActorIsolation.Boundary.Call

/-! Violations at declarations: shared mutable state, contracts and default values. -/

set_option autoImplicit false

namespace ActorIsolation

namespace Boundary

variable (graph : Graph) (options : Options)

def declViolation (decl : Declaration) (category : Category) (related : Option DeclId)
    (source target : Domain) (span : Option Span) : Violation where
  category
  subject := .decl decl.id
  decl := decl.id
  related
  value := none
  source
  target
  span
  severity := options.mode.severity

def isIsolatedStorage (decl : Declaration) : Analysis Bool :=
  match graph.enclosingType? decl with
  | none => return false
  | some owner =>
    if owner.typeKind? = some .actor then return true
    else return (← Analysis.domain owner.id).isGlobalActor

def isShared (decl : Declaration) : Analysis Bool :=
  if decl.isTopLevel || decl.isStatic then return true else isIsolatedStorage graph decl

def sharedStateViolations (decl : Declaration) (domain : Domain) : Analysis (List Violation) := do
  if decl.isNonisolatedUnsafe then
    Analysis.audit ⟨decl.id, .nonisolatedUnsafe decl.id⟩
    return []
  else
    match decl.type with
    | none => return []
    | some type =>
      match ← sendabilityFrom graph options type (options.moduleOf decl.id) with
      | .sendable => return []
      | .notSendable =>
        return [declViolation options decl .unsafeSharedMutable none domain domain decl.span]
      | .uncheckedSendable =>
        let asserted ← Walk.uncheckedAssertions graph type
        Analysis.auditAll (asserted.map (⟨·, .sharedMutable decl.id⟩))
        return []

def mutableViolations (decl : Declaration) : Analysis (List Violation) :=
  if decl.kind = .storedProperty && decl.isMutable then do
    let domain ← Analysis.domain decl.id
    if domain.isIsolated then return []
    else if ← isShared graph decl then sharedStateViolations graph options decl domain
    else return []
  else return []

def sharedMutableViolations : Analysis (List Violation) :=
  Analysis.forEach (mutableViolations graph options) graph.decls

/-- Callers of an asynchronous target wait for the witness anyway; a protocol for actors only
expects its witnesses on the instance; and a witness may follow the target's container. -/
def isExempt (target : Declaration) (witness : Domain) : Analysis Bool :=
  if target.isAsync then return true
  else
    match target.enclosing.bind graph.decl? with
    | none => return false
    | some container =>
      match container.actorOnly, witness with
      | true, .actorInstance _ => return true
      | _, _ => return (← Analysis.domain container.id) = witness

def targetViolations (decl : Declaration) (witness : Domain) (id : DeclId) :
    Analysis (List Violation) :=
  match graph.decl? id with
  | none => return []
  | some target => do
    let expected ← Analysis.domain id
    if expected = witness then return []
    else if ← isExempt graph target witness then return []
    else return [declViolation options decl .contractMismatch (some id) expected witness decl.span]

def declContractViolations (decl : Declaration) : Analysis (List Violation) :=
  if decl.satisfies.isEmpty && decl.overrides.isEmpty then return []
  else do
    let witness ← Analysis.domain decl.id
    if witness.isIsolated then
      Analysis.forEach (targetViolations graph options decl witness)
        (decl.satisfies ++ decl.overrides)
    else return []

def contractViolations : Analysis (List Violation) :=
  Analysis.forEach (declContractViolations graph options) graph.decls

def synthesizedContext (owner : Declaration) : Analysis Domain := do
  match ← Analysis.domain owner.id with
  | .globalActor actor => return .globalActor actor
  | _ => return .nonisolated

def initContexts (owner : Declaration) : Analysis (List Domain) := do
  match graph.initializers owner.id with
  | [] => return [← synthesizedContext owner]
  | initializers =>
    let domains ← Analysis.forEach (fun initializer => return [← Analysis.domain initializer.id])
      initializers
    return ascending domains

def referenceViolations (decl : Declaration) (span : Option Span) (contexts : List Domain)
    (reference : DeclId) : Analysis (List Violation) := do
  let needed ← Analysis.domain reference
  if needed.isIsolated then
    match contexts.find? (· ≠ needed) with
    | some context =>
      return [declViolation options decl .unsafeIsolatedDefault (some reference) context needed span]
    | none => return []
  else return []

def declDefaultViolations (decl : Declaration) : Analysis (List Violation) :=
  if decl.kind = .storedProperty && !decl.isStatic then
    match decl.defaultValue, graph.enclosingType? decl with
    | some value, some owner => do
      let contexts ← initContexts graph owner
      Analysis.forEach (referenceViolations options decl (value.span.or decl.span) contexts)
        value.references
    | _, _ => return []
  else return []

def defaultViolations : Analysis (List Violation) :=
  Analysis.forEach (declDefaultViolations graph options) graph.decls

def scan : Analysis (List Violation) :=
  Analysis.tracked ⟨.declarationScan, graph.decls.length⟩ foundAny do
    let shared ← sharedMutableViolations graph options
    let contracts ← contractViolations graph options
    let defaults ← defaultViolations graph options
    return shared ++ contracts ++ defaults

def violations : Analysis (List Violation) := do
  let atDecls ← scan graph options
  let atEdges ← Analysis.forEach (edgeViolations graph options) graph.edges
  return Violation.sort (atDecls ++ atEdges)

end Boundary

end ActorIsolation
