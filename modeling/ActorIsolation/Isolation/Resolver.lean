import ActorIsolation.Isolation.Component

/-! The isolation of a whole graph, worked out on demand or level by level. -/

set_option autoImplicit false

namespace ActorIsolation

structure Resolution where
  /-- By ascending id. -/
  entries : IsolationTable := []
  /-- Ascending, each once. -/
  issues : List ResolutionIssue := []
  deriving DecidableEq, Repr, Inhabited

namespace Resolution

variable (resolution : Resolution)

def get? (id : DeclId) : Option Isolation := resolution.entries.lookup id

def isolation (id : DeclId) : Isolation := (resolution.get? id).getD .fallback

end Resolution

structure Resolver where
  settled : IsolationTable := []
  /-- The components that have been solved. -/
  done : List Nat := []
  issues : List ResolutionIssue := []
  log : List Event := []
  deriving DecidableEq, Repr, Inhabited

namespace Resolver

def start : Resolver := {}

def sortedIssues (resolver : Resolver) : List ResolutionIssue := sorted resolver.issues

def snapshot (resolver : Resolver) : Resolution where
  entries := sortOn (rank ·.1) resolver.settled
  issues := ascending resolver.issues

variable (graph : Graph) (options : Options)

def keep (resolver : Resolver) (index : Nat) (solved : Solving) : Resolver where
  settled := solved.found ++ resolver.settled
  done := index :: resolver.done
  issues := resolver.issues ++ solved.issues
  log := resolver.log ++ solved.events

def solve (resolver : Resolver) (index : Nat) (component : Component) : Resolver :=
  resolver.keep index (solveComponent graph options resolver.settled index component.members)

/-! ### On demand -/

/-- A component that is to be done. Once it is expanded, its dependencies have been put before it. -/
structure Task where
  component : Nat
  expanded : Bool
  deriving DecidableEq, Repr, Inhabited

/-- The dependencies that are still to do, the last of them first. -/
def postponed (resolver : Resolver) (component : Component) : List Task :=
  (component.dependencies.filter (· ∉ resolver.done)).reverse.map (⟨·, false⟩)

def Task.turns (plan : Decomposition) (task : Task) : Nat :=
  if task.expanded then 1 else plan.turns task.component

theorem Task.turns_pos (plan : Decomposition) (task : Task) : 0 < task.turns plan := by
  unfold Task.turns
  split
  · exact Nat.one_pos
  · exact plan.turns_pos task.component

theorem weigh_postponed_le (plan : Decomposition) (resolver : Resolver) (component : Component) :
    weigh (Task.turns plan) (resolver.postponed component) ≤ weigh plan.turns component.dependencies := by
  have fewer := @weigh_filter_le _ plan.turns (· ∉ resolver.done) (fun _ => true)
    component.dependencies fun _ _ => rfl
  rw [List.filter_eq_self.mpr fun _ _ => rfl] at fewer
  rw [postponed, weigh_map, weigh_reverse]
  exact fewer

def work : List Task → Resolver → Resolver
  | [], resolver => resolver
  | task :: rest, resolver =>
    if task.component ∈ resolver.done then work rest resolver
    else
      match _found : graph.plan.components[task.component]? with
      | none => work rest resolver
      | some component =>
        if _expanded : task.expanded then
          work rest (resolver.solve graph options task.component component)
        else
          work (resolver.postponed component ++ ⟨task.component, true⟩ :: rest) resolver
termination_by tasks => weigh (Task.turns graph.plan) tasks
decreasing_by
  · exact Nat.lt_add_of_pos_left (task.turns_pos graph.plan)
  · exact Nat.lt_add_of_pos_left (task.turns_pos graph.plan)
  · exact Nat.lt_add_of_pos_left (task.turns_pos graph.plan)
  · have fewer := weigh_postponed_le graph.plan resolver component
    have all : task.turns graph.plan = _ := (if_neg _expanded).trans (Decomposition.turns_eq _found)
    have again : Task.turns graph.plan ⟨task.component, true⟩ = 1 := if_pos rfl
    simp only [weigh_append, weigh_cons]
    omega

def ensure (index : Nat) (resolver : Resolver) : Resolver :=
  work graph options [⟨index, false⟩] resolver

def query (id : DeclId) (resolver : Resolver) : Isolation × Resolver :=
  match resolver.settled.lookup id with
  | some isolation => (isolation, resolver)
  | none =>
    match graph.plan.componentOf? id with
    | none => (.fallback, resolver)
    | some index =>
      let resolver := ensure graph options index resolver
      ((resolver.settled.lookup id).getD .fallback, resolver)

def complete (resolver : Resolver) : Resolver :=
  (List.range graph.plan.size).foldl (fun resolver index => ensure graph options index resolver)
    resolver

/-! ### Level by level -/

/-- Solves all components of a level from the same table, and then keeps their results. -/
def solveLevel (resolver : Resolver) (level : List Nat) : Resolver :=
  let solutions := level.filterMap fun index =>
    graph.plan.components[index]?.map fun component =>
      (index, solveComponent graph options resolver.settled index component.members)
  solutions.foldl (fun resolver solution => resolver.keep solution.1 solution.2) resolver

def byLevels : Resolver := graph.plan.levels.foldl (solveLevel graph options) start

end Resolver

end ActorIsolation
