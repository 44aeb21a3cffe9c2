import ActorIsolation.Graph.Basic
import Mathlib.Data.List.Nodup

/-! What an accepted graph can be relied on for: ids name one declaration each, references lead to
declarations, and stored properties have types.
-/

set_option autoImplicit false

namespace ActorIsolation

theorem Declaration.mem_dependencies {decl : Declaration} {id : DeclId} :
    id ∈ decl.dependencies ↔ decl.enclosing = some id ∨ id ∈ decl.satisfies ∨ id ∈ decl.overrides ∨
      (∃ conformance ∈ decl.conformances, conformance.protocol = id) ∨ id ∈ decl.supertypes := by
  simp [Declaration.dependencies]

theorem nodup_of_ascending {α β : Type} {key : α → β} {number : β → Nat} {items : List α}
    (order : items.Pairwise fun left right => number (key left) < number (key right)) :
    (items.map key).Nodup := by
  refine List.pairwise_map.mpr (order.imp ?_)
  intro left right less same
  rw [same] at less
  exact Nat.lt_irrefl _ less

theorem Declaration.ids_nodup {decls : List Declaration}
    (order : decls.Pairwise fun left right => left.id.number < right.id.number) :
    (decls.map (·.id)).Nodup :=
  nodup_of_ascending order

theorem find?_key_eq_some {α β : Type} [DecidableEq β] {key : α → β} {items : List α} {item : α}
    {value : β}
    (distinct : (items.map key).Nodup) :
    items.find? (key · = value) = some item ↔ item ∈ items ∧ key item = value := by
  constructor
  · intro found
    exact ⟨List.mem_of_find?_eq_some found, by simpa using List.find?_some found⟩
  · rintro ⟨mem, rfl⟩
    obtain ⟨other, found⟩ : ∃ other, items.find? (key · = key item) = some other :=
      Option.isSome_iff_exists.mp (List.find?_isSome.mpr ⟨item, mem, by simp⟩)
    have same : key other = key item := by simpa using List.find?_some found
    rw [found, List.inj_on_of_nodup_map distinct (List.mem_of_find?_eq_some found) mem same]

namespace Graph

section

variable (graph : Graph)

structure HasField (owner : DeclId) (field : Declaration) : Prop where
  declared : field ∈ graph.decls
  inside : field.enclosing = some owner
  stored : field.kind = .storedProperty
  ofInstance : field.isStatic = false

structure HasInitializer (owner : DeclId) (initializer : Declaration) : Prop where
  declared : initializer ∈ graph.decls
  inside : initializer.enclosing = some owner
  function : initializer.kind = .function
  starts : initializer.isInitializer

structure InType (decl owner : Declaration) : Prop where
  declared : owner ∈ graph.decls
  inside : decl.enclosing = some owner.id
  isType : owner.isType

/-- A type states a conformance in this scope, and has not stated it before. -/
def Conforms (type protocol : DeclId) (scope : Scope) : Prop :=
  ∃ decl ∈ graph.decls, decl.id = type ∧ ∃ before after,
    decl.conformances = before ++ ⟨protocol, scope⟩ :: after ∧
      ∀ conformance ∈ before, conformance.protocol ≠ protocol

end

variable {graph : Graph} {id : DeclId} {decl : Declaration}

theorem ids_nodup (graph : Graph) : (graph.decls.map (·.id)).Nodup :=
  Declaration.ids_nodup graph.decls_ascending

theorem mem_of_decl? (found : graph.decl? id = some decl) : decl ∈ graph.decls :=
  List.mem_of_find?_eq_some found

theorem id_of_decl? (found : graph.decl? id = some decl) : decl.id = id := by
  simpa using List.find?_some found

theorem decl?_isSome_iff : (graph.decl? id).isSome ↔ id ∈ graph.decls.map (·.id) := by
  simp [Draft.decl?, List.mem_map]

theorem decl?_eq_some : graph.decl? id = some decl ↔ decl ∈ graph.decls ∧ decl.id = id :=
  find?_key_eq_some graph.ids_nodup

theorem decl?_of_mem (mem : decl ∈ graph.decls) : graph.decl? decl.id = some decl :=
  decl?_eq_some.mpr ⟨mem, rfl⟩

theorem declDefects_eq_nil (mem : decl ∈ graph.decls) : graph.declDefects decl = [] := by
  have sound := graph.sound
  simp only [Draft.referenceDefects, List.append_eq_nil_iff, List.flatMap_eq_nil_iff] at sound
  exact sound.1.1.1 decl mem

theorem unknownDecl_eq_nil {referrer : Referrer} {role : Role}
    (clean : graph.unknownDecl referrer role id = []) : (graph.decl? id).isSome := by
  unfold Draft.unknownDecl at clean
  split at clean
  · assumption
  · simp at clean

theorem callee_declared {edge : CallEdge} (mem : edge ∈ graph.edges) :
    (graph.decl? edge.callee).isSome := by
  have sound := graph.sound
  simp only [Draft.referenceDefects, List.append_eq_nil_iff, List.flatMap_eq_nil_iff] at sound
  have clean := sound.2 edge mem
  simp only [Draft.edgeDefects, List.append_eq_nil_iff] at clean
  exact unknownDecl_eq_nil clean.1.1.2

theorem dependency_declared (mem : decl ∈ graph.decls) (dependency : id ∈ decl.dependencies) :
    (graph.decl? id).isSome := by
  have clean := declDefects_eq_nil mem
  simp only [Draft.declDefects, List.append_eq_nil_iff, List.flatMap_eq_nil_iff] at clean
  obtain ⟨⟨⟨⟨⟨⟨⟨⟨enclosing, -⟩, -⟩, satisfies⟩, overrides⟩, conformances⟩, supertypes⟩, -⟩, -⟩ := clean
  rcases Declaration.mem_dependencies.mp dependency with
    inside | required | overridden | ⟨conformance, stated, rfl⟩ | inherited
  · exact unknownDecl_eq_nil (enclosing id (by simp [inside]))
  · exact unknownDecl_eq_nil (satisfies id required)
  · exact unknownDecl_eq_nil (overrides id overridden)
  · exact unknownDecl_eq_nil (conformances conformance stated).1
  · exact unknownDecl_eq_nil (supertypes id inherited)

theorem storedProperty_typed (mem : decl ∈ graph.decls) (property : decl.kind = .storedProperty) :
    ∃ type, decl.type = some type := by
  have clean := declDefects_eq_nil mem
  simp only [Draft.declDefects, List.append_eq_nil_iff] at clean
  obtain ⟨⟨-, typed⟩, -⟩ := clean
  cases found : decl.type with
  | none => simp [found, property] at typed
  | some type => exact ⟨type, rfl⟩

/-! ### Queries -/

variable {owner : Declaration} {protocol : DeclId} {scope : Scope}

theorem mem_storedFields : decl ∈ graph.storedFields id ↔ graph.HasField id decl := by
  simp only [storedFields, members, List.mem_filter, Bool.and_eq_true, decide_eq_true_eq,
    Bool.not_eq_true']
  constructor
  · rintro ⟨⟨declared, inside⟩, stored, ofInstance⟩
    exact ⟨declared, inside, stored, ofInstance⟩
  · rintro ⟨declared, inside, stored, ofInstance⟩
    exact ⟨⟨declared, inside⟩, stored, ofInstance⟩

theorem mem_initializers : decl ∈ graph.initializers id ↔ graph.HasInitializer id decl := by
  simp only [initializers, members, List.mem_filter, Bool.and_eq_true, decide_eq_true_eq]
  constructor
  · rintro ⟨⟨declared, inside⟩, function, starts⟩
    exact ⟨declared, inside, function, starts⟩
  · rintro ⟨declared, inside, function, starts⟩
    exact ⟨⟨declared, inside⟩, function, starts⟩

theorem enclosingType?_eq_some : graph.enclosingType? decl = some owner ↔ graph.InType decl owner := by
  simp only [enclosingType?, Option.filter_eq_some_iff, Option.bind_eq_some_iff, decl?_eq_some]
  constructor
  · rintro ⟨⟨_, inside, declared, rfl⟩, isType⟩
    exact ⟨declared, inside, isType⟩
  · rintro ⟨declared, inside, isType⟩
    exact ⟨⟨_, inside, declared, rfl⟩, isType⟩

theorem conformanceScope?_eq_some :
    graph.conformanceScope? id protocol = some scope ↔ graph.Conforms id protocol scope := by
  simp only [conformanceScope?, Option.bind_eq_bind, Option.bind_eq_some_iff, decl?_eq_some,
    List.find?_eq_some_iff_append, Option.pure_def, Option.some.injEq]
  constructor
  · rintro ⟨decl, ⟨declared, same⟩, ⟨_, _⟩, ⟨named, before, after, stated, others⟩, rfl⟩
    obtain rfl := of_decide_eq_true named
    exact ⟨decl, declared, same, before, after, stated, fun other mem => by simpa using others other mem⟩
  · rintro ⟨decl, declared, same, before, after, stated, others⟩
    exact ⟨decl, ⟨declared, same⟩, ⟨protocol, scope⟩, ⟨by simp, before, after, stated,
      fun other mem => by simpa using others other mem⟩, rfl⟩

theorem HasField.typed (field : graph.HasField id decl) : ∃ type, decl.type = some type :=
  storedProperty_typed field.declared field.stored

theorem noExtensions_ascending :
    ([] : List Extension).Pairwise fun left right => left.id.number < right.id.number :=
  .nil

theorem noCalls_ascending :
    ([] : List CallEdge).Pairwise fun left right => left.id.number < right.id.number :=
  .nil

end Graph

end ActorIsolation
