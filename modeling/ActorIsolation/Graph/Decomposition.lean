import ActorIsolation.Graph.Emission

/-! The components of the dependency relation. Two declarations stand in one component when each depends
on the other, at once or through further declarations. Each component comes after every one it depends on.
-/

set_option autoImplicit false

namespace ActorIsolation

structure Component where
  /-- In ascending order. -/
  members : List DeclId
  /-- The positions of the components that hold a direct dependency of a member, ascending. -/
  dependencies : List Nat
  deriving DecidableEq, Repr, Inhabited

structure Decomposition where
  components : List Component
  /-- A component depends on earlier ones only. -/
  dependencies_lt : ∀ {index : Nat} {component : Component},
    components[index]? = some component → ∀ {earlier : Nat},
      earlier ∈ component.dependencies → earlier < index

namespace Decomposition

def position? (classes : List (List DeclId)) (id : DeclId) : Option Nat :=
  classes.findIdx? (·.contains id)

def component (links : Links) (classes : List (List DeclId)) (index : Nat)
    (nodes : List DeclId) : Component where
  members := sorted nodes
  dependencies :=
    ascending (((nodes.flatMap links.next).filterMap (position? classes)).filter (· ≠ index))

theorem position?_le {links : Links} {index position : Nat} {nodes : List DeclId} {node target : DeclId}
    (found : links.classes[index]? = some nodes) (mem : node ∈ nodes) (points : target ∈ links.next node)
    (placed : position? links.classes target = some position) : position ≤ index := by
  obtain ⟨other, others, earlier, there, inside⟩ := Links.target_placed found mem points
  obtain ⟨bound, same⟩ := List.getElem?_eq_some_iff.mp there
  obtain ⟨_, _, first⟩ := List.findIdx?_eq_some_iff_getElem.mp placed
  -- A position is the first of its kind, so it is not after the one that has been found.
  refine Nat.le_trans (Nat.le_of_not_lt fun less => ?_) earlier
  exact first other less (by simpa [same] using inside)

def ofLinks (links : Links) : Decomposition where
  components :=
    let classes := links.classes
    classes.mapIdx (component links classes)
  dependencies_lt := by
    intro index found h earlier mem
    rw [List.getElem?_mapIdx, Option.map_eq_some_iff] at h
    obtain ⟨nodes, class_, rfl⟩ := h
    obtain ⟨listed, different⟩ := List.mem_filter.mp (mem_of_mem_ascending mem)
    obtain ⟨target, pointed, placed⟩ := List.mem_filterMap.mp listed
    obtain ⟨node, inside, points⟩ := List.mem_flatMap.mp pointed
    have atMost := position?_le class_ inside points placed
    have other : earlier ≠ index := by simpa using different
    omega

def ofDeclarations (decls : List Declaration) : Decomposition :=
  ofLinks (Links.ofDeclarations decls)

variable (plan : Decomposition)

def size : Nat := plan.components.length

def componentOf? (id : DeclId) : Option Nat :=
  plan.components.findIdx? (·.members.contains id)

def depths : List Nat :=
  plan.components.foldl
    (fun depths component =>
      depths ++ [(component.dependencies.map fun index => depths.getD index 0 + 1).foldl max 0])
    []

/-- The components grouped by depth: each group depends on earlier groups only. -/
def levels : List (List Nat) :=
  let depths := plan.depths
  (List.range ((depths.map (· + 1)).foldl max 0)).map fun level =>
    (List.range depths.length).filter fun index => depths.getD index 0 = level

def turns (index : Nat) : Nat :=
  match _found : plan.components[index]? with
  | none => 1
  | some component => 2 + weigh (fun earlier => turns earlier.1) component.dependencies.attach
termination_by index
decreasing_by exact plan.dependencies_lt _found earlier.2

variable {plan}

theorem turns_eq {index : Nat} {component : Component}
    (found : plan.components[index]? = some component) :
    plan.turns index = 2 + weigh plan.turns component.dependencies := by
  rw [turns]
  split
  · rename_i absent
    simp [found] at absent
  · rename_i same
    obtain rfl := Option.some.inj (found.symm.trans same)
    rw [← weigh_map Subtype.val, List.attach_map_subtype_val]

theorem turns_pos (plan : Decomposition) (index : Nat) : 0 < plan.turns index := by
  rw [turns]
  split <;> omega

end Decomposition

end ActorIsolation
