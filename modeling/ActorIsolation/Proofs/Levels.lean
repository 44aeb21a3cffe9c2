import ActorIsolation.Graph.Decomposition
import Mathlib.Data.List.GetD
import Mathlib.Data.List.Induction
import Mathlib.Data.List.Nodup

/-! Levels list every component once, after all the components it depends on. -/

set_option autoImplicit false

namespace ActorIsolation

theorem le_foldl_max (start : Nat) (values : List Nat) :
    start ≤ values.foldl max start ∧ ∀ value ∈ values, value ≤ values.foldl max start := by
  induction values generalizing start with
  | nil => simp
  | cons first rest ih =>
    obtain ⟨above, others⟩ := ih (max start first)
    rw [List.foldl_cons]
    refine ⟨by omega, fun value mem => ?_⟩
    rcases List.mem_cons.mp mem with rfl | mem
    · omega
    · exact others value mem

theorem foldl_max_eq (start : Nat) (values : List Nat) :
    values.foldl max start = start ∨ values.foldl max start ∈ values := by
  induction values generalizing start with
  | nil => exact .inl rfl
  | cons first rest ih =>
    rw [List.foldl_cons]
    rcases ih (max start first) with same | mem
    · rw [same, List.mem_cons]
      omega
    · exact .inr (List.mem_cons_of_mem _ mem)

namespace Decomposition

/-! ### Depths -/

def depthOver (depths : List Nat) (component : Component) : Nat :=
  (component.dependencies.map fun index => depths.getD index 0 + 1).foldl max 0

def depthsOf (components : List Component) : List Nat :=
  components.foldl (fun depths component => depths ++ [depthOver depths component]) []

theorem depthsOf_concat (components : List Component) (component : Component) :
    depthsOf (components ++ [component]) =
      depthsOf components ++ [depthOver (depthsOf components) component] := by
  simp [depthsOf]

theorem length_depthsOf (components : List Component) :
    (depthsOf components).length = components.length := by
  induction components using List.reverseRecOn with
  | nil => rfl
  | append_singleton components component ih => simp [depthsOf_concat, ih]

theorem depthsOf_append (components more : List Component) {index : Nat}
    (bound : index < components.length) :
    (depthsOf (components ++ more)).getD index 0 = (depthsOf components).getD index 0 := by
  induction more using List.reverseRecOn with
  | nil => rw [List.append_nil]
  | append_singleton more component ih =>
    have inside : index < (depthsOf (components ++ more)).length := by
      rw [length_depthsOf, List.length_append]
      omega
    rw [← List.append_assoc, depthsOf_concat, List.getD_append _ _ _ _ inside, ih]

variable (plan : Decomposition)

def depth (index : Nat) : Nat := plan.depths.getD index 0

variable {plan} {index : Nat} {component : Component}

theorem depth_eq (found : plan.components[index]? = some component) :
    plan.depth index = (component.dependencies.map (plan.depth · + 1)).foldl max 0 := by
  obtain ⟨bound, same⟩ := List.getElem?_eq_some_iff.mp found
  have split : plan.components =
      (plan.components.take index ++ [component]) ++ plan.components.drop (index + 1) := by
    rw [← same, List.take_append_getElem bound, List.take_append_drop]
  have length : (plan.components.take index).length = index := by
    rw [List.length_take]
    omega
  -- Depths are worked out from left to right, so those below `index` are final at its turn.
  have below : ∀ earlier < index,
      plan.depth earlier = (depthsOf (plan.components.take index)).getD earlier 0 := by
    intro earlier less
    change (depthsOf plan.components).getD earlier 0 = _
    rw [split, List.append_assoc, depthsOf_append _ _ (by omega)]
    rw [← List.append_assoc, ← split]
  have here : plan.depth index = depthOver (depthsOf (plan.components.take index)) component := by
    change (depthsOf plan.components).getD index 0 = _
    rw [split, depthsOf_append _ _ (by simp [length]), depthsOf_concat]
    rw [← split, List.getD_append_right _ _ _ _ (by rw [length_depthsOf]; omega),
      length_depthsOf, length]
    simp
  rw [here, depthOver]
  congr 1
  apply List.map_congr_left
  intro earlier mem
  rw [below earlier (plan.dependencies_lt found mem)]

theorem depth_lt (found : plan.components[index]? = some component) {earlier : Nat}
    (dependency : earlier ∈ component.dependencies) : plan.depth earlier < plan.depth index := by
  rw [depth_eq found]
  have bound := (le_foldl_max 0 (component.dependencies.map (plan.depth · + 1))).2
    (plan.depth earlier + 1) (List.mem_map.mpr ⟨earlier, dependency, rfl⟩)
  omega

/-! ### Levels -/

theorem length_depths : plan.depths.length = plan.size := length_depthsOf plan.components

theorem levels_flatten : plan.levels.flatten =
    (List.range ((plan.depths.map (· + 1)).foldl max 0)).flatMap fun level =>
      (List.range plan.size).filter fun index => plan.depth index = level := by
  simp [levels, List.flatMap_def, length_depths, depth]

theorem mem_levels : index ∈ plan.levels.flatten ↔ index < plan.size := by
  rw [levels_flatten]
  simp only [List.mem_flatMap, List.mem_range, List.mem_filter, decide_eq_true_eq]
  constructor
  · rintro ⟨level, -, bound, -⟩
    exact bound
  · intro bound
    refine ⟨plan.depth index, ?_, bound, rfl⟩
    have listed : index < plan.depths.length := by rwa [length_depths]
    have mem : plan.depth index + 1 ∈ plan.depths.map (· + 1) := by
      refine List.mem_map.mpr ⟨plan.depth index, ?_, rfl⟩
      rw [depth, List.getD_eq_getElem _ _ listed]
      exact List.getElem_mem listed
    have above := (le_foldl_max 0 (plan.depths.map (· + 1))).2 _ mem
    omega

theorem levels_nodup (plan : Decomposition) : plan.levels.flatten.Nodup := by
  rw [levels_flatten, List.nodup_flatMap]
  refine ⟨fun level _ => List.nodup_range.filter _, ?_⟩
  refine List.nodup_range.imp fun different => ?_
  intro index left right
  simp only [List.mem_filter, decide_eq_true_eq] at left right
  exact different (left.2.symm.trans right.2)

theorem getElem?_levels {level : Nat} {group : List Nat} : plan.levels[level]? = some group ↔
    level < (plan.depths.map (· + 1)).foldl max 0 ∧
      group = (List.range plan.size).filter (plan.depth · = level) := by
  have listed : plan.levels = (List.range ((plan.depths.map (· + 1)).foldl max 0)).map fun level =>
      (List.range plan.size).filter (plan.depth · = level) := by
    simp [levels, length_depths, depth]
  rw [listed, List.getElem?_map, Option.map_eq_some_iff]
  simp only [List.getElem?_eq_some_iff, List.length_range, List.getElem_range]
  constructor
  · rintro ⟨_, ⟨bound, rfl⟩, rfl⟩
    exact ⟨bound, rfl⟩
  · rintro ⟨bound, rfl⟩
    exact ⟨level, ⟨bound, rfl⟩, rfl⟩

theorem depth_of_mem_level {level : Nat} {group : List Nat} (found : plan.levels[level]? = some group)
    (mem : index ∈ group) : plan.depth index = level := by
  obtain ⟨-, rfl⟩ := getElem?_levels.mp found
  simpa using (List.mem_filter.mp mem).2

theorem dependency_before {before after : List (List Nat)} {level : List Nat}
    (order : plan.levels = before ++ level :: after) (mem : index ∈ level)
    (found : plan.components[index]? = some component) {earlier : Nat}
    (dependency : earlier ∈ component.dependencies) : earlier ∈ before.flatten := by
  have bound : index < plan.size := (List.getElem?_eq_some_iff.mp found).1
  have listed : earlier ∈ plan.levels.flatten :=
    mem_levels.mpr (Nat.lt_trans (plan.dependencies_lt found dependency) bound)
  obtain ⟨others, inside, memOthers⟩ := List.mem_flatten.mp listed
  obtain ⟨position, there⟩ := List.getElem?_of_mem inside
  have here : plan.levels[before.length]? = some level := by simp [order]
  have less := depth_lt found dependency
  rw [depth_of_mem_level here mem, depth_of_mem_level there memOthers] at less
  rw [order, List.getElem?_append_left less] at there
  exact List.mem_flatten_of_mem (List.mem_of_getElem? there) memOthers

end Decomposition

end ActorIsolation
