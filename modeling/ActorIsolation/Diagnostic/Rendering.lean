import ActorIsolation.Boundary.Violation
import ActorIsolation.Diagnostic.Code
import ActorIsolation.Options
import ActorIsolation.Sendability.Verdict

/-! Diagnostics for what a check has found. -/

set_option autoImplicit false

namespace ActorIsolation

structure Findings where
  violations : List Violation := []
  resolutionIssues : List ResolutionIssue := []
  sendableIssues : List SendableIssue := []
  audit : List AuditRecord := []
  deriving DecidableEq, Repr, Inhabited

/-- Words that were taken do not count as faults. -/
def Findings.isClean (findings : Findings) : Bool :=
  findings.violations.isEmpty && findings.resolutionIssues.isEmpty &&
    findings.sendableIssues.isEmpty

namespace Rendering

def quoted (name : String) : String := "`" ++ name ++ "`"

variable (graph : Graph)

def nameOf (id : DeclId) : String := quoted (graph.nameOf id)

def spanOf (id : DeclId) : Span := (graph.spanOf? id).getD .placeholder

def domain : Domain → String
  | .nonisolated => "nonisolated"
  | .actorInstance actor => s!"isolated to an instance of {nameOf graph actor}"
  | .globalActor actor => s!"isolated to global actor {nameOf graph actor}"

def labelAt (id : DeclId) (message : String) : List Label :=
  (graph.spanOf? id).toList.map (Label.secondary · message)

section

variable (violation : Violation)

def related : String :=
  match violation.related with
  | some id => nameOf graph id
  | none => quoted ""

def valueTexts : String × String × String :=
  match violation.value with
  | some value => (value.kind.text, quoted value.name, quoted value.type.text)
  | none => ("value", quoted "", quoted "")

def violationMessage : String :=
  let source := domain graph violation.source
  let target := domain graph violation.target
  let subject := nameOf graph violation.decl
  let related := related graph violation
  match violation.category with
  | .concurrentAccess =>
    let (kind, name, type) := valueTexts violation
    s!"{kind} {name} of non-Sendable type {type} passed from {source} code to {related}, " ++
      s!"which is {target}"
  | .unsafeSharedMutable =>
    s!"{subject} is mutable shared state that is neither isolated nor Sendable"
  | .contractMismatch =>
    s!"{subject} is {target} but {related}, which it implements, is {source}"
  | .missingSuspension =>
    s!"synchronous call from {source} code to {related}, which is {target}"
  | .unsafeIsolatedDefault =>
    s!"default value of {subject} uses {related}, which is {target}, " ++
      s!"but is evaluated by an initializer that is {source}"

def violationLabel : String :=
  match violation.category with
  | .concurrentAccess => s!"non-Sendable {(valueTexts violation).1}"
  | .unsafeSharedMutable => "declared here"
  | .contractMismatch => "isolated implementation"
  | .missingSuspension => "call is not awaited"
  | .unsafeIsolatedDefault => "evaluated during initialization"

def relatedRole? : Category → Option String
  | .concurrentAccess => some "callee"
  | .unsafeSharedMutable => none
  | .contractMismatch => some "requirement"
  | .missingSuspension => some "callee"
  | .unsafeIsolatedDefault => some "referenced declaration"

def relatedLabels : List Label :=
  match relatedRole? violation.category, violation.related with
  | some role, some id => labelAt graph id s!"{role} {nameOf graph id}"
  | _, _ => []

def ofViolation : Diagnostic :=
  let primary := violation.span.getD .placeholder
  let diagnostic := violation.category.code.diagnostic violation.severity
    (violationMessage graph violation) primary
  diagnostic.withLabels (.primary primary (violationLabel violation) :: relatedLabels graph violation)

end

def ofResolutionIssue (severity : Severity) (issue : ResolutionIssue) : Diagnostic :=
  let primary := spanOf graph issue.decl
  let name := nameOf graph issue.decl
  match issue.kind with
  | .cycle =>
    Code.isolationCycle.diagnostic severity s!"isolation of {name} depends on itself" primary
  | .conflictingAnnotations =>
    Code.conflictingAnnotations.diagnostic severity
      s!"{name} carries conflicting isolation annotations" primary
  | .ambiguousInference candidates =>
    let names := ", ".intercalate (candidates.map (nameOf graph))
    let diagnostic := Code.ambiguousInference.diagnostic severity
      s!"{name} infers several global actors: {names}" primary
    diagnostic.withLabels (candidates.flatMap (labelAt graph · "candidate global actor"))

def ofSendableIssue (severity : Severity) (issue : SendableIssue) : Diagnostic :=
  let primary := spanOf graph issue.type
  let name := nameOf graph issue.type
  match issue.kind with
  | .subclassable =>
    Code.invalidSendable.diagnostic severity
      s!"non-final class {name} cannot conform to Sendable" primary
  | .nonSendableField field =>
    let diagnostic := Code.invalidSendable.diagnostic severity
      s!"stored property {nameOf graph field} of Sendable type {name} has non-Sendable type" primary
    diagnostic.withLabels (labelAt graph field "stored property")
  | .mutableField field =>
    let diagnostic := Code.invalidSendable.diagnostic severity
      s!"stored property {nameOf graph field} of Sendable class {name} is mutable" primary
    diagnostic.withLabels (labelAt graph field "stored property")

def edgeSpan (id : EdgeId) : Span :=
  ((graph.edges.find? (·.id = id)).bind (·.span)).getD .placeholder

def ofAudit (record : AuditRecord) : Diagnostic :=
  let asserted := nameOf graph record.asserted
  let relies (message : String) (primary : Span) : Diagnostic :=
    (Code.uncheckedSendable.diagnostic .note message primary).withLabels
      (labelAt graph record.asserted "unchecked assertion")
  match record.reason with
  | .transfer edge value name =>
    relies
      (s!"{value.text} {quoted name} crosses an isolation boundary relying on " ++
        s!"unchecked Sendable {asserted}")
      (edgeSpan graph edge)
  | .field owner field =>
    relies
      (s!"{nameOf graph owner} is Sendable because field {nameOf graph field} relies on " ++
        s!"unchecked Sendable {asserted}")
      (spanOf graph field)
  | .sharedMutable decl =>
    relies s!"shared mutable {nameOf graph decl} relies on unchecked Sendable {asserted}"
      (spanOf graph decl)
  | .nonisolatedUnsafe decl =>
    Code.nonisolatedUnsafe.diagnostic .note s!"{nameOf graph decl} opts out of isolation checking"
      (spanOf graph decl)

end Rendering

def Findings.diagnostics (findings : Findings) (graph : Graph) (options : Options) :
    List Diagnostic :=
  let severity := options.mode.severity
  Diagnostic.normalizeAll
    ((findings.violations.filter (!options.isSuppressed ·.category)).map
        (Rendering.ofViolation graph) ++
      findings.resolutionIssues.map (Rendering.ofResolutionIssue graph severity) ++
      findings.sendableIssues.map (Rendering.ofSendableIssue graph severity) ++
      findings.audit.map (Rendering.ofAudit graph))

end ActorIsolation
