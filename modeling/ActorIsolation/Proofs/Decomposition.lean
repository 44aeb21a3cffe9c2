import ActorIsolation.Proofs.Components

/-! The decomposition of declarations is exact: its components are the classes of declarations that
reach each other by references, each is listed after all those it depends on, and the dependencies
it lists are those of its members.
-/

set_option autoImplicit false

namespace ActorIsolation

/-- A declaration names another one in a way that isolation may follow. -/
inductive Refers (decls : List Declaration) : DeclId → DeclId → Prop where
  | enclosing {decl : Declaration} {parent : DeclId} :
      decl ∈ decls → decl.enclosing = some parent → Refers decls decl.id parent
  | requirement {decl : Declaration} {required : DeclId} :
      decl ∈ decls → required ∈ decl.satisfies → Refers decls decl.id required
  | overridden {decl : Declaration} {inherited : DeclId} :
      decl ∈ decls → inherited ∈ decl.overrides → Refers decls decl.id inherited
  | protocol {decl : Declaration} {conformance : Conformance} :
      decl ∈ decls → conformance ∈ decl.conformances → Refers decls decl.id conformance.protocol
  | supertype {decl : Declaration} {parent : DeclId} :
      decl ∈ decls → parent ∈ decl.supertypes → Refers decls decl.id parent

abbrev Leads (decls : List Declaration) : DeclId → DeclId → Prop :=
  Relation.ReflTransGen (Refers decls)

structure Decomposition.Exact (decls : List Declaration) (plan : Decomposition) : Prop where
  /-- A declaration is in the component that is named for it and in no other. -/
  located : ∀ decl ∈ decls, ∃ index component, plan.componentOf? decl.id = some index ∧
    plan.components[index]? = some component ∧ decl.id ∈ component.members ∧
    ∀ other component, plan.components[other]? = some component → decl.id ∈ component.members →
      other = index
  /-- Components hold declarations only, and none is empty. -/
  declared : ∀ component ∈ plan.components, component.members ≠ [] ∧
    ∀ id ∈ component.members, ∃ decl ∈ decls, decl.id = id
  /-- Declarations share a component when each leads to the other. -/
  shared_iff : ∀ left ∈ decls, ∀ right ∈ decls,
    plan.componentOf? left.id = plan.componentOf? right.id ↔
      Leads decls left.id right.id ∧ Leads decls right.id left.id
  members_ascending : ∀ component ∈ plan.components,
    component.members.Pairwise fun left right => left.number < right.number
  dependencies_ascending : ∀ component ∈ plan.components,
    component.dependencies.Pairwise (· < ·)
  /-- A component depends on those others to which one of its members refers directly. -/
  mem_dependencies : ∀ (index : Nat) (component : Component),
    plan.components[index]? = some component →
      ∀ other, other ∈ component.dependencies ↔ other ≠ index ∧
        ∃ id ∈ component.members, ∃ next, Refers decls id next ∧ plan.componentOf? next = some other
  earlier : ∀ (index : Nat) (component : Component), plan.components[index]? = some component →
    ∀ other ∈ component.dependencies, other < index

/-! ### References and links -/

section

variable {decls : List Declaration} {id next : DeclId}

theorem refers_iff : Refers decls id next ↔
    ∃ decl ∈ decls, decl.id = id ∧ next ∈ decl.dependencies := by
  simp only [Declaration.mem_dependencies]
  constructor
  · intro refers
    cases refers with
    | enclosing mem inside => exact ⟨_, mem, rfl, .inl inside⟩
    | requirement mem required => exact ⟨_, mem, rfl, .inr (.inl required)⟩
    | overridden mem inherited => exact ⟨_, mem, rfl, .inr (.inr (.inl inherited))⟩
    | protocol mem stated => exact ⟨_, mem, rfl, .inr (.inr (.inr (.inl ⟨_, stated, rfl⟩)))⟩
    | supertype mem parent => exact ⟨_, mem, rfl, .inr (.inr (.inr (.inr parent)))⟩
  · rintro ⟨decl, mem, rfl, inside | required | inherited | ⟨conformance, stated, rfl⟩ | parent⟩
    · exact .enclosing mem inside
    · exact .requirement mem required
    · exact .overridden mem inherited
    · exact .protocol mem stated
    · exact .supertype mem parent

theorem Refers.declared (refers : Refers decls id next) : id ∈ decls.map (·.id) := by
  obtain ⟨decl, mem, same, -⟩ := refers_iff.mp refers
  exact List.mem_map.mpr ⟨decl, mem, same⟩

theorem Links.mem_next_iff_refers (distinct : (decls.map (·.id)).Nodup) :
    next ∈ (Links.ofDeclarations decls).next id ↔
      Refers decls id next ∧ next ∈ decls.map (·.id) := by
  rw [Links.mem_next_ofDeclarations distinct, refers_iff]
  constructor
  · rintro ⟨decl, mem, same, dependency, declared⟩
    exact ⟨⟨decl, mem, same, dependency⟩, declared⟩
  · rintro ⟨⟨decl, mem, same, dependency⟩, declared⟩
    exact ⟨decl, mem, same, dependency, declared⟩

/-- What is not declared refers to nothing, so it is on no way from one declaration to another. -/
theorem Links.reaches_iff_leads (distinct : (decls.map (·.id)).Nodup)
    (declared : next ∈ decls.map (·.id)) :
    (Links.ofDeclarations decls).Reaches id next ↔ Leads decls id next := by
  constructor
  · intro reaches
    induction reaches with
    | refl => exact .refl
    | tail reaches points ih =>
      obtain ⟨refers, -⟩ := (Links.mem_next_iff_refers distinct).mp points
      exact .tail (ih refers.declared) refers
  · intro leads
    induction leads using Relation.ReflTransGen.head_induction_on with
    | refl => exact .refl
    | @head first middle refers leads ih =>
      have middleDeclared : middle ∈ decls.map (·.id) := by
        rcases leads.cases_head with rfl | ⟨_, onwards, -⟩
        · exact declared
        · exact onwards.declared
      exact .head ((Links.mem_next_iff_refers distinct).mpr ⟨refers, middleDeclared⟩) ih

end

/-! ### Components and classes -/

namespace Decomposition

variable {links : Links} {id other : DeclId}

theorem exists_position (listed : id ∈ links.nodes) :
    ∃ index, position? links.classes id = some index := by
  obtain ⟨nodes, mem, inside⟩ := List.mem_flatten.mp (Links.mem_classes_of_node listed)
  obtain ⟨index, found⟩ := List.getElem?_of_mem mem
  exact ⟨index, position?_eq_some_iff.mpr ⟨nodes, found, inside⟩⟩

theorem position?_eq_iff (listed : id ∈ links.nodes) :
    position? links.classes id = position? links.classes other ↔
      links.Reaches id other ∧ links.Reaches other id := by
  obtain ⟨index, found⟩ := exists_position listed
  obtain ⟨nodes, class_, inside⟩ := position?_eq_some_iff.mp found
  rw [← Links.mem_class_iff class_ inside, found, eq_comm, position?_eq_some_iff]
  constructor
  · rintro ⟨others, otherClass, mem⟩
    rw [class_, Option.some.injEq] at otherClass
    rwa [otherClass]
  · exact fun mem => ⟨nodes, class_, mem⟩

theorem listed_of_position {index : Nat} (closed : links.Closed)
    (found : position? links.classes id = some index) : id ∈ links.nodes := by
  obtain ⟨nodes, class_, inside⟩ := position?_eq_some_iff.mp found
  exact (Links.mem_classes closed).mp (List.mem_flatten_of_mem (List.mem_of_getElem? class_) inside)

end Decomposition

/-! ### Exactness -/

/-- For any declarations, in the order of their ids, the decomposition is exact. -/
theorem ofDeclarations_exact (decls : List Declaration)
    (order : decls.Pairwise fun left right => left.id.number < right.id.number) :
    (Decomposition.ofDeclarations decls).Exact decls := by
  have ids := Declaration.ids_nodup order
  have nodes := Links.nodes_ofDeclarations decls
  have closed := Links.closed_ofDeclarations ids
  have listed : ∀ decl ∈ decls, decl.id ∈ (Links.ofDeclarations decls).nodes := by
    intro decl mem
    rw [nodes]
    exact List.mem_map_of_mem mem
  have named (id : DeclId) : (Decomposition.ofDeclarations decls).componentOf? id =
      Decomposition.position? (Links.ofDeclarations decls).classes id :=
    Decomposition.componentOf?_eq_position? _ id
  constructor
  case located =>
    intro decl mem
    obtain ⟨index, found⟩ := Decomposition.exists_position (listed decl mem)
    obtain ⟨nodes, class_, inside⟩ := Decomposition.position?_eq_some_iff.mp found
    refine ⟨index, _, by rw [named, found], Decomposition.component_of_class class_,
      Decomposition.mem_members.mpr inside, ?_⟩
    intro other component get otherInside
    obtain ⟨others, otherClass, rfl⟩ := Decomposition.class_of_component get
    exact Links.class_unique otherClass class_ (Decomposition.mem_members.mp otherInside) inside
  case declared =>
    intro component mem
    obtain ⟨index, get⟩ := List.getElem?_of_mem mem
    refine ⟨Decomposition.members_inhabited get, fun id inside => ?_⟩
    obtain ⟨members, class_, rfl⟩ := Decomposition.class_of_component get
    have position := Decomposition.position?_eq_some_iff.mpr
      ⟨members, class_, Decomposition.mem_members.mp inside⟩
    have listed := Decomposition.listed_of_position closed position
    rwa [nodes, List.mem_map] at listed
  case shared_iff =>
    intro left leftMem right rightMem
    rw [named, named, Decomposition.position?_eq_iff (listed left leftMem),
      Links.reaches_iff_leads ids (List.mem_map_of_mem rightMem),
      Links.reaches_iff_leads ids (List.mem_map_of_mem leftMem)]
  case members_ascending =>
    intro component mem
    obtain ⟨index, get⟩ := List.getElem?_of_mem mem
    exact Decomposition.members_ascending get
  case dependencies_ascending =>
    intro component mem
    obtain ⟨index, get⟩ := List.getElem?_of_mem mem
    exact Decomposition.dependencies_ascending get
  case mem_dependencies =>
    intro index component get other
    obtain ⟨members, class_, rfl⟩ := Decomposition.class_of_component get
    rw [Decomposition.mem_dependencies]
    simp only [Decomposition.mem_members, named, Links.mem_next_iff_refers ids]
    constructor
    · rintro ⟨different, id, inside, next, ⟨refers, -⟩, position⟩
      exact ⟨different, id, inside, next, refers, position⟩
    · -- What has a position is in a class, so it is declared.
      rintro ⟨different, id, inside, next, refers, position⟩
      have declared := Decomposition.listed_of_position closed position
      rw [nodes] at declared
      exact ⟨different, id, inside, next, ⟨refers, declared⟩, position⟩
  case earlier =>
    intro index component get other dependency
    exact (Decomposition.ofDeclarations decls).dependencies_lt get dependency

/-- Two classes that inherit from each other, a reference that leads nowhere, and a method of one of
the classes that overrides itself. -/
def heirsWithMethod : List Declaration :=
  [{ id := ⟨0⟩, name := "Left", kind := .type .classType, supertypes := [⟨1⟩] },
    { id := ⟨1⟩, name := "Right", kind := .type .classType, supertypes := [⟨0⟩, ⟨7⟩] },
    { id := ⟨2⟩, name := "run", kind := .function, enclosing := some ⟨0⟩, overrides := [⟨2⟩] }]

theorem heirsWithMethod_decomposed :
    (heirsWithMethod.Pairwise fun left right => left.id.number < right.id.number) ∧
      (Decomposition.ofDeclarations heirsWithMethod).Exact heirsWithMethod ∧
      (Decomposition.ofDeclarations heirsWithMethod).components =
        [⟨[⟨0⟩, ⟨1⟩], []⟩, ⟨[⟨2⟩], [0]⟩] := by
  have order : heirsWithMethod.Pairwise fun left right => left.id.number < right.id.number := by
    decide
  exact ⟨order, ofDeclarations_exact heirsWithMethod order, by decide +kernel⟩

end ActorIsolation
