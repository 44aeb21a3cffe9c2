import ActorIsolation.Boundary.Category
import ActorIsolation.Diagnostic.Basic
import ActorIsolation.Graph.Basic

/-! The settings of a check. -/

set_option autoImplicit false

namespace ActorIsolation

inductive Mode where
  | warn
  | error
  deriving DecidableEq, Repr, Inhabited

def Mode.severity : Mode → Severity
  | .warn => .warning
  | .error => .error

structure Options where
  mode : Mode := .error
  /-- The global actor of the entry point and of the mutable state of the entry file. -/
  entryPointActor : Option DeclId := none
  /-- The module of each declaration that is not of the module under check, by ascending id. -/
  modules : List (DeclId × ModuleId) := []
  /-- The categories that are not to be reported, ascending. -/
  suppressed : List Category := []
  parallel : Bool := false
  deriving DecidableEq, Repr, Inhabited

inductive OptionsError where
  | unknownEntryPointActor (actor : DeclId)
  | notGlobalActor (actor : DeclId)
  deriving DecidableEq, Repr, Inhabited

def OptionsError.message : OptionsError → String
  | .unknownEntryPointActor actor =>
    s!"entry point global actor {actor.text} is not a declaration"
  | .notGlobalActor actor =>
    s!"entry point global actor {actor.text} is not a global actor type"

namespace Options

variable (options : Options)

def moduleOf (id : DeclId) : ModuleId := (options.modules.lookup id).getD .here

def isSuppressed (category : Category) : Bool := options.suppressed.contains category

/-- The entry point's actor, if there is one, has to be a global actor of the graph. -/
def validate (graph : Graph) : Except OptionsError Unit :=
  match options.entryPointActor with
  | none => .ok ()
  | some actor =>
    match graph.decl? actor with
    | none => .error (.unknownEntryPointActor actor)
    | some decl =>
      if decl.typeKind? = some .actor && decl.isGlobalActor then .ok ()
      else .error (.notGlobalActor actor)

end Options

end ActorIsolation
