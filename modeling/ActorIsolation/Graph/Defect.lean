import ActorIsolation.Declaration

/-! What can be wrong with the declarations, extensions and call edges of a program. -/

set_option autoImplicit false

namespace ActorIsolation

inductive Referrer where
  | decl (id : DeclId)
  | extension (id : ExtensionId)
  | edge (id : EdgeId)
  deriving DecidableEq, Repr, Inhabited

def Referrer.text : Referrer → String
  | .decl id => s!"declaration {id.text}"
  | .extension id => s!"extension {id.text}"
  | .edge id => s!"call edge {id.text}"

inductive Role where
  | enclosing
  | actor
  | requirement
  | overridden
  | protocol
  | supertype
  | type
  | defaultReference
  | extended
  | caller
  | callee
  deriving DecidableEq, Repr, Inhabited

def Role.text : Role → String
  | .enclosing => "enclosing declaration"
  | .actor => "actor"
  | .requirement => "requirement"
  | .overridden => "overridden declaration"
  | .protocol => "protocol"
  | .supertype => "supertype"
  | .type => "type"
  | .defaultReference => "default value reference"
  | .extended => "extended type"
  | .caller => "caller"
  | .callee => "callee"

inductive Defect where
  | repeatedDecl (id : DeclId)
  | repeatedExtension (id : ExtensionId)
  | repeatedEdge (id : EdgeId)
  | unknownDecl (referrer : Referrer) (missing : DeclId) (role : Role)
  | unknownExtension (referrer : Referrer) (missing : ExtensionId)
  /-- A stored property without a type. -/
  | untypedProperty (id : DeclId)
  /-- The chain of declarations around this one never ends. -/
  | endlessEnclosing (id : DeclId)
  deriving DecidableEq, Repr, Inhabited

def Defect.message : Defect → String
  | .repeatedDecl id => s!"declaration {id.text} defined twice"
  | .repeatedExtension id => s!"extension {id.text} defined twice"
  | .repeatedEdge id => s!"call edge {id.text} defined twice"
  | .unknownDecl referrer missing role =>
    s!"{referrer.text} references unknown declaration {missing.text} as {role.text}"
  | .unknownExtension referrer missing =>
    s!"{referrer.text} references unknown extension {missing.text}"
  | .untypedProperty id => s!"stored property {id.text} has no type"
  | .endlessEnclosing id => s!"declaration {id.text} encloses itself"

end ActorIsolation
