import ActorIsolation.Declaration

/-! Whether values may be handed over between isolation domains. -/

set_option autoImplicit false

namespace ActorIsolation

inductive Sendability where
  | sendable
  | notSendable
  /-- Accepted on the author's word. -/
  | uncheckedSendable
  deriving DecidableEq, Repr, Inhabited

namespace Sendability

def isSendable : Sendability → Bool
  | .sendable | .uncheckedSendable => true
  | .notSendable => false

def meet : Sendability → Sendability → Sendability
  | .notSendable, _ => .notSendable
  | _, .notSendable => .notSendable
  | .uncheckedSendable, _ => .uncheckedSendable
  | _, .uncheckedSendable => .uncheckedSendable
  | .sendable, .sendable => .sendable

theorem meet_assoc (first second third : Sendability) :
    (first.meet second).meet third = first.meet (second.meet third) := by
  cases first <;> cases second <;> cases third <;> rfl

@[simp] theorem sendable_meet (verdict : Sendability) : sendable.meet verdict = verdict := by
  cases verdict <;> rfl

@[simp] theorem meet_sendable (verdict : Sendability) : verdict.meet sendable = verdict := by
  cases verdict <;> rfl

end Sendability

inductive AuditReason where
  /-- A value of the type crosses a boundary. -/
  | transfer (edge : EdgeId) (value : ValueKind) (name : String)
  /-- A type is Sendable although this field of it is so only by word. -/
  | field (owner field : DeclId)
  /-- The type is that of a variable shared by all. -/
  | sharedMutable (decl : DeclId)
  /-- The variable itself is declared safe. -/
  | nonisolatedUnsafe (decl : DeclId)
  deriving DecidableEq, Repr, Inhabited

structure AuditRecord where
  /-- The declaration that carries the assertion. -/
  asserted : DeclId
  reason : AuditReason
  deriving DecidableEq, Repr, Inhabited

instance : Ranked AuditReason where
  rank
    | .transfer edge value name => 0 :: rank edge ++ rank value ++ Rank.text name
    | .field owner field => 1 :: rank owner ++ rank field
    | .sharedMutable decl => 2 :: rank decl
    | .nonisolatedUnsafe decl => 3 :: rank decl

instance : Ranked AuditRecord := ⟨fun record => rank record.asserted ++ rank record.reason⟩

inductive SendableIssueKind where
  /-- The class can be subclassed. -/
  | subclassable
  | nonSendableField (field : DeclId)
  /-- The class has a mutable field that no global actor guards. -/
  | mutableField (field : DeclId)
  deriving DecidableEq, Repr, Inhabited

structure SendableIssue where
  type : DeclId
  kind : SendableIssueKind
  deriving DecidableEq, Repr, Inhabited

instance : Ranked SendableIssueKind where
  rank
    | .subclassable => [0]
    | .nonSendableField field => 1 :: rank field
    | .mutableField field => 2 :: rank field

instance : Ranked SendableIssue := ⟨fun issue => rank issue.type ++ rank issue.kind⟩

end ActorIsolation
