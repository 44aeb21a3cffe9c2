import ActorIsolation.Isolation.Inquiry
import ActorIsolation.Options

/-! The rules of isolation. The first rule that applies to a declaration decides; a declaration to
which none applies is not isolated.
-/

set_option autoImplicit false

namespace ActorIsolation

structure Ruling where
  isolation : Isolation
  complaint : Option ResolutionIssueKind := none
  deriving DecidableEq, Repr, Inhabited

namespace Ruling

def plain (domain : Domain) (origin : Origin) : Ruling := ⟨⟨domain, origin⟩, none⟩

def fallback : Ruling := ⟨.fallback, none⟩

/-- One candidate is taken, several are ambiguous, and with none the rule does not apply. -/
def elect (origin : Origin) (candidates : List DeclId) : Option Ruling :=
  match ascending candidates with
  | [] => none
  | [actor] => some (plain (.globalActor actor) origin)
  | several => some ⟨.nonisolated .ambiguous, some (.ambiguousInference several)⟩

end Ruling

/-- A rule on its way to a decision; it ends without one where it does not apply. -/
abbrev Rule := Inquiry (Option Ruling)

namespace Rule

def skip : Rule := pure none

def decide (domain : Domain) (origin : Origin) : Rule := pure (some (.plain domain origin))

def firstOf : List Rule → Inquiry Ruling
  | [] => pure .fallback
  | rule :: rest => do
    match ← rule with
    | some ruling => pure ruling
    | none => firstOf rest

def globalActors : List DeclId → Inquiry (List DeclId)
  | [] => pure []
  | id :: rest => do
    let isolation ← Inquiry.isolation id
    let others ← globalActors rest
    pure (isolation.domain.globalActor?.toList ++ others)

def electFrom (origin : Origin) (ids : List DeclId) : Rule := do
  let candidates ← globalActors ids
  pure (Ruling.elect origin candidates)

variable (graph : Graph) (options : Options) (decl : Declaration)

/-- Both ways to write that a declaration is not isolated mean the same domain. -/
def writtenAnnotations : List Annotation :=
  ascending (decl.annotations.map fun
    | .nonisolatedUnsafe => .nonisolated
    | annotation => annotation)

def explicit : Rule :=
  match writtenAnnotations decl with
  | [] => skip
  | [.nonisolated] | [.nonisolatedUnsafe] => decide .nonisolated .explicit
  | [.globalActor actor] => decide (.globalActor actor) .explicit
  | [.isolatedParameter _ actor] => decide (.actorInstance actor) .isolatedParameter
  | _ => pure (some ⟨.nonisolated .conflict, some .conflictingAnnotations⟩)

def actorType : Rule :=
  if decl.typeKind? = some .actor then
    decide (if decl.isGlobalActor then .globalActor decl.id else .actorInstance decl.id) .actorType
  else skip

/-- A conformance stated on the type itself isolates the type; one stated in an extension does
not. -/
def conformance : Rule :=
  electFrom .conformance
    ((decl.conformances.filter (·.scope = .primary)).map (·.protocol))

def inheritance : Rule := electFrom .inheritance decl.supertypes

/-- A closure that inherits isolation runs where its surroundings run. -/
def closureContext (inherits : Bool) : Rule :=
  match inherits, decl.enclosing with
  | true, some parent => do
    let outer ← Inquiry.isolation parent
    decide outer.domain .closureContext
  | _, _ => skip

def actorMember : Rule :=
  match graph.enclosingType? decl with
  | some owner =>
    if owner.isPlainActor && !decl.isStatic then
      decide (.actorInstance owner.id)
        (if decl.kind = .storedProperty then .actorStorage else .actorSelf)
    else skip
  | none => skip

def isEntryState : Bool :=
  decl.isTopLevel && decl.inEntryFile && decl.kind = .storedProperty && decl.isMutable

def entryPoint : Rule :=
  match options.entryPointActor with
  | some actor =>
    if decl.isEntryPoint || isEntryState decl then decide (.globalActor actor) .entryPoint else skip
  | none => skip

def extensionAttribute : Rule :=
  match decl.scope with
  | .primary => skip
  | .extension id =>
    match (graph.extension? id).bind (·.globalActor) with
    | some actor => decide (.globalActor actor) .extension
    | none => skip

/-- Members follow their type's global actor. A type that has it from a conformance passes it on
only to the members of the scope that states the conformance. -/
def enclosingType : Rule :=
  match graph.enclosingType? decl with
  | none => skip
  | some owner => do
    let outer ← Inquiry.isolation owner.id
    match outer.domain.globalActor? with
    | some actor =>
      if decl.scope = .primary || outer.origin ≠ .conformance then
        decide (.globalActor actor) .enclosingType
      else skip
    | none => skip

/-- A requirement counts where the conformance to its protocol is stated in the member's scope. -/
def isInScope (requirement : DeclId) : Bool :=
  match graph.enclosingType? decl, graph.decl? requirement with
  | some owner, some required =>
    required.enclosing.bind (graph.conformanceScope? owner.id) = some decl.scope
  | _, _ => false

def requirement : Rule :=
  electFrom .requirement (decl.satisfies.filter (isInScope graph decl))

def overridden : Rule := electFrom .override decl.overrides

def rules : List Rule :=
  explicit decl ::
    match decl.kind with
    | .type _ => [actorType decl, conformance decl, inheritance decl]
    | .closure inherits => [closureContext decl inherits]
    | .function | .storedProperty =>
      [actorMember graph decl, entryPoint options decl, extensionAttribute graph decl,
        enclosingType graph decl, requirement graph decl, overridden decl]

end Rule

def Declaration.ruling (graph : Graph) (options : Options) (decl : Declaration) : Inquiry Ruling :=
  Rule.firstOf (Rule.rules graph options decl)

end ActorIsolation
