import ActorIsolation.Boundary.Crossing
import ActorIsolation.Proofs.Outward

/-! When a call crosses a boundary, said without a walk over the declarations. In an accepted graph the
way outwards ends at the top level, so the name of the actor value that a body runs on can be read off
step by step.
-/

set_option autoImplicit false

namespace ActorIsolation

namespace Graph

variable {graph : Graph} {id : DeclId} {decl : Declaration} {edge : CallEdge} {name : String}

/-! ### Names of actor values -/

/-- The body of a declaration runs on the actor value of this name: that of its isolated parameter or
`self`, and for a closure that inherits its isolation, that of the declaration around it. -/
inductive BoundTo (graph : Graph) : DeclId → String → Prop where
  | own {id : DeclId} {decl : Declaration} : graph.decl? id = some decl →
      decl.kind ≠ .closure true → BoundTo graph id (decl.isolatedParameter?.getD "self")
  | inherited {id parent : DeclId} {decl : Declaration} {name : String} :
      graph.decl? id = some decl → decl.kind = .closure true → decl.enclosing = some parent →
      BoundTo graph parent name → BoundTo graph id name

theorem binding?_eq (found : graph.decl? id = some decl) : graph.binding? id =
    if decl.kind = .closure true then decl.enclosing.bind graph.binding?
    else some decl.actorName := by
  unfold binding?
  rw [chain_eq_cons found]
  by_cases inherits : decl.kind = .closure true
  · rw [if_pos inherits, List.find?_cons_of_neg (by simp [Declaration.isInheritingClosure, inherits])]
    cases decl.enclosing with
    | none => rfl
    | some parent => rfl
  · rw [if_neg inherits, List.find?_cons_of_pos (by simp [Declaration.isInheritingClosure, inherits])]
    rfl

theorem binding?_eq_some : graph.binding? id = some name ↔ graph.BoundTo id name := by
  constructor
  · -- By induction on the chain, which is shorter by one for each closure that is left.
    intro bound
    induction chain : graph.chain id generalizing id with
    | nil => simp [binding?, chain] at bound
    | cons first rest ih =>
      cases found : graph.decl? id with
      | none => simp [chain_eq_nil found] at chain
      | some decl =>
        rw [binding?_eq found] at bound
        split at bound
        · rename_i inherits
          obtain ⟨parent, inside, outer⟩ := Option.bind_eq_some_iff.mp bound
          rw [chain_eq_cons found, inside] at chain
          exact .inherited found inherits inside (ih outer (List.cons.inj chain).2)
        · rename_i own
          obtain rfl := Option.some.inj bound
          exact .own found own
  · intro bound
    induction bound with
    | own found own => rw [binding?_eq found, if_neg own, Declaration.actorName]
    | inherited found inherits inside _ ih =>
      rw [binding?_eq found, if_pos inherits, inside]
      exact ih

def CallsClosure (graph : Graph) (edge : CallEdge) : Prop :=
  ∃ callee inherits, graph.decl? edge.callee = some callee ∧ callee.kind = .closure inherits

/-- The call goes through the actor value of this name: a closure has its own, any other callee is
called through the receiver, and without a receiver through the caller's. -/
inductive CallsThrough (graph : Graph) (edge : CallEdge) : String → Prop where
  | closure {name : String} : graph.CallsClosure edge → graph.BoundTo edge.callee name →
      CallsThrough graph edge name
  | receiver {name : String} : ¬ graph.CallsClosure edge → edge.receiver = some name →
      CallsThrough graph edge name
  | unqualified {name : String} : ¬ graph.CallsClosure edge → edge.receiver = none →
      graph.BoundTo edge.caller name → CallsThrough graph edge name

theorem calleeBinding?_of_plain (plain : ¬ graph.CallsClosure edge) :
    graph.calleeBinding? edge = edge.receiver.or (graph.binding? edge.caller) := by
  unfold calleeBinding?
  split
  · rename_i found
    exact absurd ⟨_, _, found, rfl⟩ plain
  · rfl

theorem calleeBinding?_eq_some :
    graph.calleeBinding? edge = some name ↔ graph.CallsThrough edge name := by
  by_cases closure : graph.CallsClosure edge
  · obtain ⟨callee, inherits, found, kind⟩ := closure
    have own : graph.calleeBinding? edge = graph.binding? edge.callee := by
      obtain ⟨id, name, kind⟩ := callee
      cases kind
      simp only [calleeBinding?, found]
    rw [own, binding?_eq_some]
    constructor
    · exact .closure ⟨callee, inherits, found, kind⟩
    · intro through
      cases through with
      | closure _ bound => exact bound
      | receiver plain => exact absurd ⟨callee, inherits, found, kind⟩ plain
      | unqualified plain => exact absurd ⟨callee, inherits, found, kind⟩ plain
  · rw [calleeBinding?_of_plain closure]
    cases qualified : edge.receiver with
    | some receiver =>
      rw [Option.some_or]
      constructor
      · intro same
        exact .receiver closure (qualified.trans same)
      · intro through
        cases through with
        | closure isClosure => exact absurd isClosure closure
        | receiver _ named => exact qualified.symm.trans named
        | unqualified _ absent => simp [qualified] at absent
    | none =>
      rw [Option.none_or, binding?_eq_some]
      constructor
      · exact .unqualified closure qualified
      · intro through
        cases through with
        | closure isClosure => exact absurd isClosure closure
        | receiver _ named => simp [qualified] at named
        | unqualified _ _ bound => exact bound

def SameActorValue (graph : Graph) (edge : CallEdge) : Prop :=
  ∃ name, graph.BoundTo edge.caller name ∧ graph.CallsThrough edge name

theorem isSameActorValue_iff : graph.isSameActorValue edge ↔ graph.SameActorValue edge := by
  simp only [SameActorValue, ← binding?_eq_some, ← calleeBinding?_eq_some]
  unfold isSameActorValue
  cases graph.binding? edge.caller <;> cases graph.calleeBinding? edge <;> simp [eq_comm]

/-! ### Crossing -/

/-- The call leaves the caller's isolation domain, when declarations are isolated so. -/
inductive Crosses (graph : Graph) (isolation : DeclId → Isolation) (edge : CallEdge) : Prop where
  /-- A task runs beside its creator. -/
  | task : (isolation edge.callee).domain = .nonisolated → edge.kind = .spawn →
      Crosses graph isolation edge
  /-- An asynchronous callee without isolation does not stay on the caller's actor. -/
  | asynchronous {callee : Declaration} : (isolation edge.callee).domain = .nonisolated →
      graph.decl? edge.callee = some callee → callee.isAsync →
      (isolation edge.caller).domain ≠ .nonisolated → Crosses graph isolation edge
  | globalActor {actor : DeclId} : (isolation edge.callee).domain = .globalActor actor →
      (isolation edge.caller).domain ≠ .globalActor actor → Crosses graph isolation edge
  | otherDomain {actor : DeclId} : (isolation edge.callee).domain = .actorInstance actor →
      (isolation edge.caller).domain ≠ .actorInstance actor → Crosses graph isolation edge
  | otherValue {actor : DeclId} : (isolation edge.callee).domain = .actorInstance actor →
      ¬ graph.SameActorValue edge → Crosses graph isolation edge

theorem isAsync_iff : graph.isAsync id ↔ ∃ decl, graph.decl? id = some decl ∧ decl.isAsync := by
  unfold isAsync
  cases graph.decl? id <;> simp

theorem crosses_iff {isolation : DeclId → Isolation} :
    graph.crosses edge (isolation edge.caller).domain (isolation edge.callee).domain ↔
      graph.Crosses isolation edge := by
  constructor
  · intro crosses
    cases target : (isolation edge.callee).domain with
    | nonisolated =>
      simp only [Graph.crosses, target, Bool.or_eq_true, decide_eq_true_eq, Bool.and_eq_true,
        isAsync_iff] at crosses
      rcases crosses with spawned | ⟨⟨callee, found, async⟩, isolated⟩
      · exact .task target spawned
      · refine .asynchronous target found async fun same => ?_
        simp [same, Domain.isIsolated] at isolated
    | globalActor actor =>
      rw [target] at crosses
      exact .globalActor target (by simpa [Graph.crosses] using crosses)
    | actorInstance actor =>
      simp only [Graph.crosses, target, Bool.or_eq_true, decide_eq_true_eq, Bool.not_eq_true'] at crosses
      rcases crosses with different | other
      · exact .otherDomain target different
      · refine .otherValue target fun same => ?_
        rw [isSameActorValue_iff.mpr same] at other
        cases other
  · intro crosses
    cases crosses with
    | task target spawned => simp [Graph.crosses, target, spawned]
    | asynchronous target found async isolated =>
      have asynchronous := isAsync_iff.mpr ⟨_, found, async⟩
      cases source : (isolation edge.caller).domain with
      | nonisolated => exact absurd source isolated
      | actorInstance _ => simp [Graph.crosses, target, asynchronous, Domain.isIsolated]
      | globalActor _ => simp [Graph.crosses, target, asynchronous, Domain.isIsolated]
    | globalActor target different => simpa [Graph.crosses, target] using different
    | otherDomain target different => simp [Graph.crosses, target, different]
    | otherValue target different =>
      rw [← isSameActorValue_iff, Bool.not_eq_true] at different
      simp [Graph.crosses, target, different]

end Graph

end ActorIsolation
