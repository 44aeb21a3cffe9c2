import ActorIsolation.Sendability.Walk

/-! Verification of checked Sendable assertions. -/

set_option autoImplicit false

namespace ActorIsolation

namespace Conformance

variable (graph : Graph) (options : Options)

def isIsolatedType (kind : TypeKind) (decl : Declaration) : Analysis Bool :=
  if kind = .actor then return true
  else return (← Analysis.domain decl.id).isGlobalActor

def fieldSendability (home : ModuleId) (field : Declaration) : Analysis Sendability :=
  match field.type with
  | none => return .notSendable
  | some type => sendabilityFrom graph options type home

def fieldIssues (owner : DeclId) (kind : TypeKind) (field : Declaration) :
    Analysis (List SendableIssue) := do
  if ← Walk.isGuarded kind field then return []
  else
    let verdict ← fieldSendability graph options (options.moduleOf owner) field
    return (if kind = .classType && field.isMutable then [⟨owner, .mutableField field.id⟩] else []) ++
      if verdict.isSendable then [] else [⟨owner, .nonSendableField field.id⟩]

def declIssues (decl : Declaration) : Analysis (List SendableIssue) :=
  match decl.sendable, decl.typeKind? with
  | .checked, some kind => do
    let isolated ← isIsolatedType kind decl
    if kind = .protocol || isolated then return []
    else
      let fields ← Analysis.forEach (fieldIssues graph options decl.id kind)
        (graph.storedFields decl.id)
      return (if kind = .classType && !decl.isFinal then [⟨decl.id, .subclassable⟩] else []) ++
        fields
  | _, _ => return []

end Conformance

def conformanceIssues (graph : Graph) (options : Options) : Analysis (List SendableIssue) := do
  let issues ← Analysis.forEach (Conformance.declIssues graph options) graph.decls
  return sorted issues

end ActorIsolation
