import ActorIsolation.Proofs.Levels
import ActorIsolation.Proofs.Locality

/-! Chains of dependencies between components. One component depends on another when one of its
members depends on a member of the other. Such chains never come back to where they began, so below
each component there is a longest one, and its length is the level at which the component stands.
-/

set_option autoImplicit false

namespace ActorIsolation

/-! ### Components that depend on each other -/

namespace Graph

def Uses (graph : Graph) (index other : Nat) : Prop :=
  other ≠ index ∧ ∃ id next, graph.Member index id ∧ graph.Depends id next ∧ graph.Member other next

variable {graph : Graph} {index other : Nat} {component : Component}

theorem uses_iff (found : graph.plan.components[index]? = some component) :
    graph.Uses index other ↔ other ∈ component.dependencies := by
  have listed := found
  rw [graph.plan_eq] at listed
  obtain ⟨nodes, class_, rfl⟩ := Decomposition.class_of_component listed
  rw [Decomposition.mem_dependencies]
  refine and_congr_right fun _ => ⟨?_, ?_⟩
  · rintro ⟨id, next, ⟨own, again, mem⟩, depends, member⟩
    cases found.symm.trans again
    exact ⟨id, Decomposition.mem_members.mp mem, next, mem_next_iff_depends.mpr depends,
      Decomposition.position?_eq_some_iff.mpr (member_iff_class.mp member)⟩
  · rintro ⟨id, mem, next, points, position⟩
    exact ⟨id, next, member_iff_class.mpr ⟨nodes, class_, mem⟩, mem_next_iff_depends.mp points,
      member_iff_class.mpr (Decomposition.position?_eq_some_iff.mp position)⟩

theorem uses_iff_dependsOn : graph.Uses index other ↔ graph.plan.DependsOn index other := by
  constructor
  · intro uses
    have between := uses.2
    obtain ⟨-, -, ⟨component, found, -⟩, -, -⟩ := between
    exact ⟨component, found, (uses_iff found).mp uses⟩
  · rintro ⟨component, found, dependency⟩
    exact (uses_iff found).mpr dependency

theorem Uses.lt (uses : graph.Uses index other) : other < index := by
  obtain ⟨component, found, dependency⟩ := uses_iff_dependsOn.mp uses
  exact graph.plan.dependencies_lt found dependency

theorem Uses.lt_size (uses : graph.Uses index other) : other < graph.plan.size := by
  obtain ⟨-, -, next, -, -, member⟩ := uses
  exact member_bound member

theorem exists_component (bound : index < graph.plan.size) :
    ∃ component, graph.plan.components[index]? = some component :=
  ⟨_, List.getElem?_eq_getElem bound⟩

/-! ### Longest chains -/

/-- Each component of the list depends on the next one, and the given one on the first. -/
def Descends (graph : Graph) (index : Nat) (chain : List Nat) : Prop :=
  (index :: chain).IsChain graph.Uses

/-- The longest chains of dependencies from this component have this length. -/
structure Longest (graph : Graph) (index length : Nat) : Prop where
  attained : ∃ chain, graph.Descends index chain ∧ chain.length = length
  bounded : ∀ chain, graph.Descends index chain → chain.length ≤ length

theorem Uses.depth_lt (uses : graph.Uses index other) :
    graph.plan.depth other < graph.plan.depth index := by
  obtain ⟨component, found, dependency⟩ := uses_iff_dependsOn.mp uses
  exact Decomposition.depth_lt found dependency

/-- A component is at depth zero or one deeper than something it depends on. -/
theorem depth_cases (bound : index < graph.plan.size) :
    graph.plan.depth index = 0 ∨
      ∃ other, graph.Uses index other ∧ graph.plan.depth index = graph.plan.depth other + 1 := by
  obtain ⟨component, found⟩ := exists_component bound
  rw [Decomposition.depth_eq found]
  rcases foldl_max_eq 0 (component.dependencies.map (graph.plan.depth · + 1)) with zero | mem
  · exact .inl zero
  · obtain ⟨other, dependency, same⟩ := List.mem_map.mp mem
    exact .inr ⟨other, (uses_iff found).mpr dependency, same.symm⟩

theorem Descends.length_le {chain : List Nat} (descends : graph.Descends index chain) :
    chain.length ≤ graph.plan.depth index := by
  induction chain generalizing index with
  | nil => exact Nat.zero_le _
  | cons next rest ih =>
    obtain ⟨uses, onwards⟩ := List.isChain_cons_cons.mp descends
    have below := ih onwards
    have deeper := uses.depth_lt
    rw [List.length_cons]
    omega

theorem exists_descends (bound : index < graph.plan.size) :
    ∃ chain, graph.Descends index chain ∧ chain.length = graph.plan.depth index := by
  -- What a component depends on has a smaller index, whatever its depth.
  induction index using Nat.strong_induction_on with
  | _ index ih =>
    rcases depth_cases bound with zero | ⟨other, uses, deeper⟩
    · exact ⟨[], .singleton index, zero.symm⟩
    · obtain ⟨chain, descends, length⟩ := ih other uses.lt uses.lt_size
      exact ⟨other :: chain, .cons_cons uses descends, by rw [List.length_cons, length, deeper]⟩

theorem longest_depth (bound : index < graph.plan.size) :
    graph.Longest index (graph.plan.depth index) :=
  ⟨exists_descends bound, fun _ => Descends.length_le⟩

theorem exists_depth {level : Nat} (bound : index < graph.plan.size)
    (above : level ≤ graph.plan.depth index) :
    ∃ other < graph.plan.size, graph.plan.depth other = level := by
  induction index using Nat.strong_induction_on with
  | _ index ih =>
    rcases Nat.eq_or_lt_of_le above with rfl | less
    · exact ⟨index, bound, rfl⟩
    · rcases depth_cases bound with zero | ⟨other, uses, deeper⟩
      · omega
      · exact ih other uses.lt uses.lt_size (by omega)

end Graph

/-! ### Levels -/

namespace Decomposition

def At (plan : Decomposition) (level index : Nat) : Prop :=
  ∃ group, plan.levels[level]? = some group ∧ index ∈ group

variable {plan : Decomposition} {level index : Nat}

theorem at_iff : plan.At level index ↔ index < plan.size ∧ plan.depth index = level := by
  constructor
  · rintro ⟨group, found, mem⟩
    obtain ⟨-, rfl⟩ := getElem?_levels.mp found
    simpa using mem
  · rintro ⟨bound, rfl⟩
    obtain ⟨group, listed, mem⟩ := List.mem_flatten.mp (mem_levels.mpr bound)
    obtain ⟨level, found⟩ := List.getElem?_of_mem listed
    obtain ⟨-, rfl⟩ := getElem?_levels.mp found
    obtain ⟨-, same⟩ := List.mem_filter.mp mem
    rw [decide_eq_true_eq] at same
    exact ⟨_, same ▸ found, mem⟩

end Decomposition

theorem Graph.level_inhabited {graph : Graph} {level : Nat} {group : List Nat}
    (found : graph.plan.levels[level]? = some group) : ∃ index, index ∈ group := by
  obtain ⟨below, rfl⟩ := Decomposition.getElem?_levels.mp found
  rcases foldl_max_eq 0 (graph.plan.depths.map (· + 1)) with zero | mem
  · omega
  · -- The deepest component is at this level or above a component that is.
    obtain ⟨deepest, listed, top⟩ := List.mem_map.mp mem
    obtain ⟨index, bound, rfl⟩ := List.getElem_of_mem listed
    rw [Decomposition.length_depths] at bound
    have depth : graph.plan.depth index = graph.plan.depths[index] := List.getD_eq_getElem _ _ _
    have within : level ≤ graph.plan.depth index := by omega
    obtain ⟨other, inside, same⟩ := exists_depth bound within
    exact ⟨other, by simpa using ⟨inside, same⟩⟩

/-- Levels group the components by the length of the longest chain of dependencies from each. Every
component stands at one level: at the lowest when it depends on nothing, and otherwise one above the
highest level among the components it depends on. No level is empty, and each is in order. -/
theorem levels_measure_chains (graph : Graph) :
    (∀ index < graph.plan.size, ∃! level, graph.plan.At level index) ∧
      (∀ level index, graph.plan.At level index → index < graph.plan.size ∧
        graph.Longest index level ∧
        ((∀ other, ¬ graph.Uses index other) → level = 0) ∧
        ((∃ other, graph.Uses index other) → ∃ highest lower, graph.Uses index highest ∧
          graph.plan.At lower highest ∧ level = lower + 1 ∧
          ∀ other below, graph.Uses index other → graph.plan.At below other → below ≤ lower) ∧
        ∀ other, graph.Uses index other → ∃ lower < level, graph.plan.At lower other) ∧
      ∀ group ∈ graph.plan.levels, group ≠ [] ∧ group.Pairwise (· < ·) := by
  have stands_iff {level index : Nat} := @Decomposition.at_iff graph.plan level index
  refine ⟨fun index bound => ?_, fun level index stands => ?_, fun group listed => ?_⟩
  · refine ⟨graph.plan.depth index, stands_iff.mpr ⟨bound, rfl⟩, fun level stands => ?_⟩
    exact (stands_iff.mp stands).2.symm
  · obtain ⟨bound, rfl⟩ := stands_iff.mp stands
    have placed {other : Nat} (uses : graph.Uses index other) :
        graph.plan.At (graph.plan.depth other) other := stands_iff.mpr ⟨uses.lt_size, rfl⟩
    refine ⟨bound, Graph.longest_depth bound, fun free => ?_, ?_, ?_⟩
    · rcases Graph.depth_cases bound with zero | ⟨other, uses, -⟩
      · exact zero
      · exact absurd uses (free other)
    · rintro ⟨other, uses⟩
      obtain ⟨highest, usesHighest, deeper⟩ :=
        (Graph.depth_cases bound).resolve_left (Nat.ne_zero_of_lt uses.depth_lt)
      refine ⟨highest, _, usesHighest, placed usesHighest, deeper, fun other below uses stands => ?_⟩
      have less := uses.depth_lt
      rw [(stands_iff.mp stands).2] at less
      omega
    · exact fun other uses => ⟨_, uses.depth_lt, placed uses⟩
  · obtain ⟨level, found⟩ := List.getElem?_of_mem listed
    obtain ⟨index, mem⟩ := Graph.level_inhabited found
    refine ⟨List.ne_nil_of_mem mem, ?_⟩
    obtain ⟨-, rfl⟩ := Decomposition.getElem?_levels.mp found
    exact List.pairwise_lt_range.sublist List.filter_sublist

end ActorIsolation
