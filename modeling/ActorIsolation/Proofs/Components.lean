import ActorIsolation.Proofs.Graph
import ActorIsolation.Proofs.Order
import Mathlib.Logic.Relation

/-! The components of the dependency relation: they hold each declaration once, two declarations stand
in one component when each reaches the other, and no component points to a later one.
-/

set_option autoImplicit false

namespace ActorIsolation

namespace Links

abbrev Reaches (links : Links) : DeclId → DeclId → Prop :=
  Relation.ReflTransGen fun node next => next ∈ links.next node

def Closed (links : Links) : Prop := ∀ node next, next ∈ links.next node → next ∈ links.nodes

variable {links : Links}

/-! ### Links of declarations -/

theorem mem_next_iff (distinct : links.nodes.Nodup) {node next : DeclId} :
    next ∈ links.next node ↔ ∃ targets, (node, targets) ∈ links ∧ next ∈ targets := by
  unfold Links.next
  cases found : links.lookup node with
  | none =>
    simp only [Option.getD_none, List.not_mem_nil, false_iff, not_exists, not_and]
    intro targets mem
    rw [← lookup_iff_mem distinct, found] at mem
    simp at mem
  | some targets =>
    simp only [Option.getD_some, ← lookup_iff_mem distinct, found, Option.some.injEq]
    exact ⟨fun mem => ⟨targets, rfl, mem⟩, fun ⟨_, same, mem⟩ => same ▸ mem⟩

theorem nodes_ofDeclarations (decls : List Declaration) :
    (ofDeclarations decls).nodes = decls.map (·.id) := by
  simp [nodes, ofDeclarations]

theorem mem_next_ofDeclarations {decls : List Declaration} (distinct : (decls.map (·.id)).Nodup)
    {node next : DeclId} : next ∈ (ofDeclarations decls).next node ↔
      ∃ decl ∈ decls, decl.id = node ∧ next ∈ decl.dependencies ∧ next ∈ decls.map (·.id) := by
  rw [mem_next_iff (by rwa [nodes_ofDeclarations])]
  simp only [ofDeclarations, List.mem_map, Prod.mk.injEq]
  constructor
  · rintro ⟨targets, ⟨decl, mem, same, rfl⟩, points⟩
    rw [mem_ascending Rank.delimited_declId.injective, List.mem_filter] at points
    exact ⟨decl, mem, same, points.1, by simpa using points.2⟩
  · rintro ⟨decl, mem, same, dependency, declared⟩
    refine ⟨_, ⟨decl, mem, same, rfl⟩, ?_⟩
    rw [mem_ascending Rank.delimited_declId.injective, List.mem_filter]
    exact ⟨dependency, by simpa using declared⟩

theorem closed_ofDeclarations {decls : List Declaration} (distinct : (decls.map (·.id)).Nodup) :
    (ofDeclarations decls).Closed := by
  intro node next points
  obtain ⟨_, _, _, _, declared⟩ := (mem_next_ofDeclarations distinct).mp points
  rwa [nodes_ofDeclarations]

/-! ### Classes -/

variable {index : Nat} {members : List DeclId} {node other : DeclId}

theorem respects_reaches (links : Links) : links.Respects links.Reaches where
  refl _ := .refl
  link _ _ points := .single points
  trans first second := first.trans second

theorem mem_classes (closed : links.Closed) : node ∈ links.classes.flatten ↔ node ∈ links.nodes := by
  refine ⟨fun mem => ?_, mem_classes_of_node⟩
  rcases listed_of_mem_classes mem with listed | ⟨source, points⟩
  · exact listed
  · exact closed source node points

theorem class_unique {position : Nat} {others : List DeclId} (first : links.classes[index]? = some members)
    (second : links.classes[position]? = some others) (mem : node ∈ members) (also : node ∈ others) :
    index = position := by
  obtain ⟨bound, rfl⟩ := List.getElem?_eq_some_iff.mp first
  obtain ⟨otherBound, rfl⟩ := List.getElem?_eq_some_iff.mp second
  have disjoint := List.pairwise_iff_getElem.mp (List.nodup_flatten.mp links.classes_nodup).2
  rcases Nat.lt_trichotomy index position with less | same | greater
  · exact absurd also (disjoint index position bound otherBound less mem)
  · exact same
  · exact absurd mem (disjoint position index otherBound bound greater also)

theorem reached_placed (found : links.classes[index]? = some members) (mem : node ∈ members)
    (reaches : links.Reaches node other) : ∃ position others, position ≤ index ∧
      links.classes[position]? = some others ∧ other ∈ others := by
  induction reaches with
  | refl => exact ⟨index, members, Nat.le_refl index, found, mem⟩
  | tail _ points ih =>
    obtain ⟨position, others, atMost, there, inside⟩ := ih
    obtain ⟨further, more, earlier, found, mem⟩ := target_placed there inside points
    exact ⟨further, more, Nat.le_trans earlier atMost, found, mem⟩

/-- With one member, a class holds the nodes that reach it and are reached from it. -/
theorem mem_class_iff (found : links.classes[index]? = some members) (mem : node ∈ members) :
    other ∈ members ↔ links.Reaches node other ∧ links.Reaches other node := by
  constructor
  · have joined := (classes_emitted links.respects_reaches).joined members (List.mem_of_getElem? found)
    exact fun inside => ⟨joined node mem other inside, joined other inside node mem⟩
  · rintro ⟨there, back⟩
    obtain ⟨position, others, atMost, placed, inside⟩ := reached_placed found mem there
    obtain ⟨again, same, least, placedToo, home⟩ := reached_placed placed inside back
    -- Neither of the two classes is listed after the other, so they are the same.
    have first := class_unique placedToo found home mem
    obtain rfl : position = index := by omega
    exact Option.some.inj (placed.symm.trans found) ▸ inside

end Links

namespace Decomposition

variable {links : Links} {index : Nat} {found : Component} {nodes : List DeclId} {id : DeclId}

theorem class_of_component (component : (ofLinks links).components[index]? = some found) :
    ∃ nodes, links.classes[index]? = some nodes ∧
      found = Decomposition.component links links.classes index nodes := by
  simp only [ofLinks, List.getElem?_mapIdx, Option.map_eq_some_iff] at component
  obtain ⟨nodes, class_, rfl⟩ := component
  exact ⟨nodes, class_, rfl⟩

theorem component_of_class (class_ : links.classes[index]? = some nodes) :
    (ofLinks links).components[index]? = some (component links links.classes index nodes) := by
  simp [ofLinks, List.getElem?_mapIdx, class_]

theorem mem_members : id ∈ (component links links.classes index nodes).members ↔ id ∈ nodes :=
  mem_sortOn

theorem mem_dependencies {other : Nat} :
    other ∈ (component links links.classes index nodes).dependencies ↔ other ≠ index ∧
      ∃ id ∈ nodes, ∃ next ∈ links.next id, position? links.classes next = some other := by
  simp only [component]
  rw [mem_ascending (fun left right same => by simpa [rank] using same)]
  simp only [List.mem_filter, List.mem_filterMap, List.mem_flatMap, decide_eq_true_eq]
  constructor
  · rintro ⟨⟨next, ⟨id, inside, points⟩, position⟩, different⟩
    exact ⟨different, id, inside, next, points, position⟩
  · rintro ⟨different, id, inside, next, points, position⟩
    exact ⟨⟨next, ⟨id, inside, points⟩, position⟩, different⟩

theorem position?_eq_some_iff : position? links.classes id = some index ↔
    ∃ nodes, links.classes[index]? = some nodes ∧ id ∈ nodes := by
  constructor
  · intro found
    obtain ⟨bound, mem, -⟩ := List.findIdx?_eq_some_iff_getElem.mp found
    exact ⟨_, List.getElem?_eq_getElem bound, by simpa using mem⟩
  · rintro ⟨nodes, class_, mem⟩
    obtain ⟨bound, same⟩ := List.getElem?_eq_some_iff.mp class_
    refine List.findIdx?_eq_some_iff_getElem.mpr ⟨bound, by simpa [same] using mem, ?_⟩
    intro earlier less inside
    have before : links.classes[earlier]? = some links.classes[earlier] :=
      List.getElem?_eq_getElem (Nat.lt_trans less bound)
    have first := Links.class_unique before class_ (by simpa using inside) mem
    omega

theorem map_members (links : Links) :
    (ofLinks links).components.map (·.members) = links.classes.map sorted := by
  apply List.ext_getElem?
  intro index
  simp [ofLinks, List.getElem?_mapIdx, Function.comp_def, component]

theorem componentOf?_eq_position? (links : Links) (id : DeclId) :
    (ofLinks links).componentOf? id = position? links.classes id := by
  have members : (ofLinks links).componentOf? id =
      ((ofLinks links).components.map (·.members)).findIdx? (·.contains id) := by
    rw [List.findIdx?_map]
    rfl
  have same (nodes : List DeclId) : (sorted nodes).contains id = nodes.contains id := by
    simp [sorted, List.contains_eq_mem, mem_sortOn]
  rw [members, map_members, List.findIdx?_map, position?]
  simp only [Function.comp_def, same]

/-- What a member points to is in its own component or in one that the component depends on. -/
theorem next_placed {next : DeclId} (component : (ofLinks links).components[index]? = some found)
    (mem : id ∈ found.members) (points : next ∈ links.next id) :
    next ∈ found.members ∨ ∃ earlier ∈ found.dependencies,
      ∃ other, (ofLinks links).components[earlier]? = some other ∧ next ∈ other.members := by
  obtain ⟨nodes, class_, rfl⟩ := class_of_component component
  rw [mem_members] at mem ⊢
  obtain ⟨position, others, -, there, inside⟩ := Links.target_placed class_ mem points
  by_cases same : position = index
  · rw [same] at there
    exact .inl (Option.some.inj (there.symm.trans class_) ▸ inside)
  · have placed := position?_eq_some_iff.mpr ⟨others, there, inside⟩
    exact .inr ⟨position, mem_dependencies.mpr ⟨same, id, mem, next, points, placed⟩, _,
      component_of_class there, mem_members.mpr inside⟩

theorem members_ascending (component : (ofLinks links).components[index]? = some found) :
    found.members.Pairwise fun left right => left.number < right.number := by
  obtain ⟨nodes, class_, rfl⟩ := class_of_component component
  have distinct : (nodes.map fun id => id).Nodup := by
    rw [List.map_id']
    exact (List.nodup_flatten.mp links.classes_nodup).1 nodes (List.mem_of_getElem? class_)
  exact sortOn_ascending (fun ⟨_⟩ ⟨_⟩ same => congrArg DeclId.mk same) distinct

theorem members_inhabited (component : (ofLinks links).components[index]? = some found) :
    found.members ≠ [] := by
  obtain ⟨nodes, class_, rfl⟩ := class_of_component component
  have inhabited := (Links.classes_emitted links.respects_trivial).inhabited
  obtain ⟨first, inside⟩ := List.exists_mem_of_ne_nil nodes (inhabited nodes (List.mem_of_getElem? class_))
  exact List.ne_nil_of_mem (mem_members.mpr inside)

theorem dependencies_ascending (component : (ofLinks links).components[index]? = some found) :
    found.dependencies.Pairwise (· < ·) := by
  obtain ⟨nodes, class_, rfl⟩ := class_of_component component
  refine (ascending_ascends _).imp ?_
  intro left right less
  simpa [rank, Rank.precedes] using less

end Decomposition

/-! ### The components of a graph -/

namespace Graph

variable (graph : Graph)

def Member (index : Nat) (id : DeclId) : Prop :=
  ∃ component, graph.plan.components[index]? = some component ∧ id ∈ component.members

theorem links_closed : (Links.ofDeclarations graph.decls).Closed :=
  Links.closed_ofDeclarations graph.ids_nodup

variable {graph} {index other : Nat} {id next : DeclId}

theorem member_iff_class : graph.Member index id ↔
    ∃ nodes, (Links.ofDeclarations graph.decls).classes[index]? = some nodes ∧ id ∈ nodes := by
  rw [Member, graph.plan_eq]
  constructor
  · rintro ⟨component, found, mem⟩
    obtain ⟨nodes, class_, rfl⟩ := Decomposition.class_of_component found
    exact ⟨nodes, class_, Decomposition.mem_members.mp mem⟩
  · rintro ⟨nodes, class_, mem⟩
    exact ⟨_, Decomposition.component_of_class class_, Decomposition.mem_members.mpr mem⟩

theorem Member.unique (first : graph.Member index id) (second : graph.Member other id) :
    index = other := by
  obtain ⟨left, leftClass, inLeft⟩ := member_iff_class.mp first
  obtain ⟨right, rightClass, inRight⟩ := member_iff_class.mp second
  exact Links.class_unique leftClass rightClass inLeft inRight

theorem Member.declared (member : graph.Member index id) : (graph.decl? id).isSome := by
  obtain ⟨nodes, found, mem⟩ := member_iff_class.mp member
  have listed := (Links.mem_classes graph.links_closed).mp
    (List.mem_flatten.mpr ⟨nodes, List.mem_of_getElem? found, mem⟩)
  rwa [Links.nodes_ofDeclarations, ← decl?_isSome_iff] at listed

theorem exists_member (declared : (graph.decl? id).isSome) : ∃ index, graph.Member index id := by
  rw [decl?_isSome_iff, ← Links.nodes_ofDeclarations, ← Links.mem_classes graph.links_closed] at declared
  obtain ⟨nodes, listed, mem⟩ := List.mem_flatten.mp declared
  obtain ⟨index, found⟩ := List.getElem?_of_mem listed
  exact ⟨index, member_iff_class.mpr ⟨nodes, found, mem⟩⟩

theorem componentOf?_eq_some : graph.plan.componentOf? id = some index ↔ graph.Member index id := by
  rw [member_iff_class, graph.plan_eq, Decomposition.ofDeclarations,
    Decomposition.componentOf?_eq_position?, Decomposition.position?_eq_some_iff]

theorem dependency_placed {component : Component} {decl : Declaration}
    (found : graph.plan.components[index]? = some component) (mem : id ∈ component.members)
    (known : graph.decl? id = some decl) (dependency : next ∈ decl.dependencies) :
    next ∈ component.members ∨ ∃ earlier ∈ component.dependencies, graph.Member earlier next := by
  have points : next ∈ (Links.ofDeclarations graph.decls).next id := by
    rw [Links.mem_next_ofDeclarations graph.ids_nodup]
    refine ⟨decl, mem_of_decl? known, id_of_decl? known, dependency, ?_⟩
    exact decl?_isSome_iff.mp (dependency_declared (mem_of_decl? known) dependency)
  have placed := @Decomposition.next_placed _ index component id next
    (by rwa [← Decomposition.ofDeclarations, ← graph.plan_eq]) mem points
  rwa [← Decomposition.ofDeclarations, ← graph.plan_eq] at placed

end Graph

end ActorIsolation
