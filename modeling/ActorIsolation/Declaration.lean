import ActorIsolation.Span
import ActorIsolation.TypeRef

/-! Declarations, extensions and call edges, as a front end hands them over. -/

set_option autoImplicit false

namespace ActorIsolation

inductive TypeKind where
  | struct
  | enum
  | classType
  | actor
  | protocol
  deriving DecidableEq, Repr, Inhabited

def TypeKind.isValueType : TypeKind → Bool
  | .struct | .enum => true
  | .classType | .actor | .protocol => false

inductive DeclKind where
  | type (kind : TypeKind)
  | function
  | storedProperty
  /-- A closure or task body. One that inherits isolation runs where its enclosing function runs. -/
  | closure (inheritsIsolation : Bool)
  deriving DecidableEq, Repr, Inhabited

/-- Where a member is written: in the type itself or in an extension. -/
inductive Scope where
  | primary
  | extension (id : ExtensionId)
  deriving DecidableEq, Repr, Inhabited

inductive Annotation where
  | nonisolated
  /-- Not isolated, and shared mutable state is accepted on the author's word. -/
  | nonisolatedUnsafe
  | globalActor (actor : DeclId)
  /-- The declaration runs on the actor value handed over in this parameter. -/
  | isolatedParameter (name : String) (actor : DeclId)
  deriving DecidableEq, Repr, Inhabited

instance : Ranked Annotation where
  rank
    | .nonisolated => [0]
    | .nonisolatedUnsafe => [1]
    | .globalActor actor => 2 :: rank actor
    | .isolatedParameter name actor => 3 :: Rank.text name ++ rank actor

/-- What a type claims about being Sendable. -/
inductive Assertion where
  | absent
  /-- Claimed, to be verified from the type's structure. -/
  | checked
  /-- Claimed, to be believed. -/
  | unchecked
  deriving DecidableEq, Repr, Inhabited

structure Conformance where
  protocol : DeclId
  scope : Scope
  deriving DecidableEq, Repr, Inhabited

/-- A default value, reduced to the declarations its evaluation needs. -/
structure DefaultValue where
  references : List DeclId
  span : Option Span
  deriving DecidableEq, Repr, Inhabited

structure Declaration where
  id : DeclId
  name : String
  kind : DeclKind
  span : Option Span := none
  enclosing : Option DeclId := none
  scope : Scope := .primary
  annotations : List Annotation := []
  /-- Requirements of protocols that this declaration witnesses. -/
  satisfies : List DeclId := []
  /-- Members of supertypes that this declaration overrides. -/
  overrides : List DeclId := []
  conformances : List Conformance := []
  /-- Superclasses, or the protocols that a protocol refines. -/
  supertypes : List DeclId := []
  isAsync : Bool := false
  isStatic : Bool := false
  isMutable : Bool := false
  isFinal : Bool := false
  isGlobalActor : Bool := false
  isEntryPoint : Bool := false
  inEntryFile : Bool := false
  isInitializer : Bool := false
  /-- A protocol to which only actors may conform. -/
  actorOnly : Bool := false
  type : Option TypeRef := none
  defaultValue : Option DefaultValue := none
  sendable : Assertion := .absent
  deriving DecidableEq, Repr, Inhabited

namespace Declaration

def typeKind? (decl : Declaration) : Option TypeKind :=
  match decl.kind with
  | .type kind => some kind
  | _ => none

def isType (decl : Declaration) : Bool := decl.typeKind?.isSome

def isTopLevel (decl : Declaration) : Bool := decl.enclosing.isNone

def isPlainActor (decl : Declaration) : Bool :=
  decl.typeKind? = some .actor && !decl.isGlobalActor

def isNonisolatedUnsafe (decl : Declaration) : Bool :=
  decl.annotations.contains .nonisolatedUnsafe

def isolatedParameter? (decl : Declaration) : Option String :=
  decl.annotations.findSome? fun
    | .isolatedParameter name _ => some name
    | _ => none

/-- The declarations whose isolation may decide this one's. -/
def dependencies (decl : Declaration) : List DeclId :=
  decl.enclosing.toList ++ decl.satisfies ++ decl.overrides ++
    decl.conformances.map (·.protocol) ++ decl.supertypes

end Declaration

structure Extension where
  id : ExtensionId
  extended : DeclId
  globalActor : Option DeclId := none
  span : Option Span := none
  deriving DecidableEq, Repr, Inhabited

inductive EdgeKind where
  | call
  /-- The creation of a task. -/
  | spawn
  deriving DecidableEq, Repr, Inhabited

inductive ValueKind where
  | argument
  | capture
  | result
  deriving DecidableEq, Repr, Inhabited

def ValueKind.text : ValueKind → String
  | .argument => "argument"
  | .capture => "captured value"
  | .result => "result"

instance : Ranked ValueKind where
  rank
    | .argument => [0]
    | .capture => [1]
    | .result => [2]

structure Transfer where
  name : String
  type : TypeRef
  deriving DecidableEq, Repr, Inhabited

structure CallEdge where
  id : EdgeId
  caller : DeclId
  callee : DeclId
  kind : EdgeKind := .call
  /-- The call is marked as a point where the caller may be suspended. -/
  suspends : Bool := false
  /-- The caller's name for the actor value the call goes through. -/
  receiver : Option String := none
  arguments : List Transfer := []
  captures : List Transfer := []
  result : Option TypeRef := none
  span : Option Span := none
  deriving DecidableEq, Repr, Inhabited

/-- The caller does not wait in place: the call is awaited, or it starts a task. -/
def CallEdge.isAsynchronous (edge : CallEdge) : Bool :=
  edge.suspends || edge.kind = .spawn

end ActorIsolation
