import ActorIsolation.Proofs.Decomposition
import ActorIsolation.Proofs.LookUp
import ActorIsolation.Proofs.Resolver

/-! Resolution is local. What a declaration depends on, directly or not, decides how it is isolated
and what is wrong with it; another graph that has the same declarations there gives the same answer,
whatever else it declares and however its components are numbered.
-/

set_option autoImplicit false

namespace ActorIsolation

variable {graph other : Graph} {options : Options} {decl : Declaration} {id next : DeclId}
  {index position : Nat}

/-! ### What the rules look at -/

/-- The rules for a declaration look at what it depends on and at the extension it stands in. -/
theorem ruling_congr
    (declared : ∀ next ∈ decl.dependencies, other.decl? next = graph.decl? next)
    (extended : ∀ extension, decl.scope = .extension extension →
      other.extension? extension = graph.extension? extension) :
    decl.ruling graph options = decl.ruling other options := by
  have enclosing : other.enclosingType? decl = graph.enclosingType? decl := by
    unfold Graph.enclosingType?
    cases inside : decl.enclosing with
    | none => rfl
    | some parent => simp [declared parent (Declaration.mem_dependencies.mpr (.inl inside))]
  have stated : ∀ owner, graph.enclosingType? decl = some owner →
      other.conformanceScope? owner.id = graph.conformanceScope? owner.id := by
    intro owner found
    funext protocol
    have inside := (Graph.enclosingType?_eq_some.mp found).inside
    simp only [Graph.conformanceScope?,
      declared owner.id (Declaration.mem_dependencies.mpr (.inl inside))]
  have member : Rule.actorMember graph decl = Rule.actorMember other decl := by
    rw [Rule.actorMember, Rule.actorMember, enclosing]
  have extension : Rule.extensionAttribute graph decl = Rule.extensionAttribute other decl := by
    unfold Rule.extensionAttribute
    split
    · rfl
    · rename_i extension scope
      rw [extended extension scope]
  have type : Rule.enclosingType graph decl = Rule.enclosingType other decl := by
    rw [Rule.enclosingType, Rule.enclosingType, enclosing]
  have requirement : Rule.requirement graph decl = Rule.requirement other decl := by
    unfold Rule.requirement
    congr 1
    refine List.filter_congr fun required mem => ?_
    unfold Rule.isInScope
    rw [enclosing, declared required (Declaration.mem_dependencies.mpr (.inr (.inl mem)))]
    cases found : graph.enclosingType? decl with
    | none => rfl
    | some owner =>
      cases graph.decl? required with
      | none => rfl
      | some required =>
        dsimp only
        rw [stated owner found]
  rw [Declaration.ruling, Declaration.ruling, Rule.rules, Rule.rules, member, extension, type,
    requirement]

/-! ### Dependencies and components -/

theorem Graph.Depends.declared (depends : graph.Depends id next) : (graph.decl? next).isSome := by
  obtain ⟨decl, found, dependency⟩ := depends
  exact dependency_declared (mem_of_decl? found) dependency

theorem Graph.mem_next_iff_depends :
    next ∈ (Links.ofDeclarations graph.decls).next id ↔ graph.Depends id next := by
  rw [Links.mem_next_ofDeclarations graph.ids_nodup]
  constructor
  · rintro ⟨decl, mem, rfl, dependency, -⟩
    exact ⟨decl, decl?_of_mem mem, dependency⟩
  · intro depends
    have declared := decl?_isSome_iff.mp depends.declared
    obtain ⟨decl, found, dependency⟩ := depends
    exact ⟨decl, mem_of_decl? found, id_of_decl? found, dependency, declared⟩

/-- A component holds what its members depend on and what depends on them in turn. -/
theorem Graph.member_iff (member : graph.Member index id) : graph.Member index next ↔
    Relation.ReflTransGen graph.Depends id next ∧ Relation.ReflTransGen graph.Depends next id := by
  have same : graph.Depends = fun id next => next ∈ (Links.ofDeclarations graph.decls).next id := by
    funext id next
    exact propext mem_next_iff_depends.symm
  obtain ⟨nodes, found, inside⟩ := member_iff_class.mp member
  rw [same, ← Links.mem_class_iff found inside, member_iff_class]
  constructor
  · rintro ⟨others, again, mem⟩
    rw [found, Option.some.injEq] at again
    rwa [again]
  · exact fun mem => ⟨nodes, found, mem⟩

theorem Graph.member_le (reaches : Relation.ReflTransGen graph.Depends id next)
    (member : graph.Member index id) (placed : graph.Member position next) : position ≤ index := by
  induction reaches generalizing position with
  | refl => exact Nat.le_of_eq (placed.unique member)
  | @tail middle next _ depends ih =>
    have declared : (graph.decl? middle).isSome := by
      obtain ⟨decl, found, -⟩ := depends
      exact Option.isSome_of_eq_some found
    obtain ⟨between, inside⟩ := exists_member declared
    refine Nat.le_trans ?_ (ih inside)
    obtain ⟨decl, known, dependency⟩ := depends
    obtain ⟨component, found, mem⟩ := inside
    rcases dependency_placed found mem known dependency with same | ⟨earlier, listed, there⟩
    · exact Nat.le_of_eq (placed.unique ⟨component, found, same⟩)
    · rw [placed.unique there]
      exact Nat.le_of_lt (graph.plan.dependencies_lt found listed)

/-! ### The same closure in another graph -/

/-- A declaration and all that it depends on, directly or not, are the same in another graph, and so
are the extensions in which they stand. -/
structure Graph.SameClosure (graph other : Graph) (id : DeclId) : Prop where
  decls : ∀ next, Relation.ReflTransGen graph.Depends id next →
    other.decl? next = graph.decl? next
  extensions : ∀ next decl extension, Relation.ReflTransGen graph.Depends id next →
    graph.decl? next = some decl → decl.scope = .extension extension →
      other.extension? extension = graph.extension? extension

namespace Graph.SameClosure

theorem below (same : graph.SameClosure other id)
    (reaches : Relation.ReflTransGen graph.Depends id next) : graph.SameClosure other next where
  decls further onwards := same.decls further (reaches.trans onwards)
  extensions further decl extension onwards :=
    same.extensions further decl extension (reaches.trans onwards)

theorem depends_iff (same : graph.SameClosure other id) :
    other.Depends id next ↔ graph.Depends id next := by
  rw [Depends, Depends, same.decls id .refl]

theorem reaches_iff (same : graph.SameClosure other id) :
    Relation.ReflTransGen other.Depends id next ↔ Relation.ReflTransGen graph.Depends id next := by
  constructor
  · intro reaches
    induction reaches with
    | refl => exact .refl
    | tail _ depends ih => exact ih.tail ((same.below ih).depends_iff.mp depends)
  · intro reaches
    induction reaches with
    | refl => exact .refl
    | tail before depends ih => exact ih.tail ((same.below before).depends_iff.mpr depends)

theorem member_iff (same : graph.SameClosure other id) (member : graph.Member index id)
    (placed : other.Member position id) : graph.Member index next ↔ other.Member position next := by
  rw [Graph.member_iff member, Graph.member_iff placed, same.reaches_iff]
  exact and_congr_right fun reaches => (same.below reaches).reaches_iff.symm

/-- What the declaration depends on stands before its component in both graphs, or in it. -/
theorem before_iff (same : graph.SameClosure other id) (member : graph.Member index id)
    (placed : other.Member position id) (reaches : Relation.ReflTransGen graph.Depends id next)
    {there away : Nat} (inside : graph.Member there next) (outside : other.Member away next) :
    there < index ↔ away < position := by
  have before := Graph.member_le reaches member inside
  have beforeToo := Graph.member_le (same.reaches_iff.mpr reaches) placed outside
  have together : there = index ↔ away = position := by
    constructor
    · rintro rfl
      exact outside.unique ((same.member_iff member placed).mp inside)
    · rintro rfl
      exact inside.unique ((same.member_iff member placed).mpr outside)
  omega

theorem alike (same : graph.SameClosure other id) :
    Alike graph other options options (Relation.ReflTransGen graph.Depends id) := by
  intro next reaches
  rw [same.decls next reaches]
  cases found : graph.decl? next with
  | none => rfl
  | some decl =>
    refine congrArg some (Eq.symm (ruling_congr ?_ ?_))
    · intro further dependency
      exact same.decls further (reaches.tail ⟨decl, found, dependency⟩)
    · intro extension scope
      exact same.extensions next decl extension reaches found scope

end Graph.SameClosure

def Graph.closureOf (settled : IsolationTable) (declared : (graph.decl? id).isSome) :
    Region graph settled where
  Holds := Relation.ReflTransGen graph.Depends id
  declared next reaches := by
    rcases reaches.cases_tail with rfl | ⟨_, -, depends⟩
    · exact declared
    · exact depends.declared
  closed _ _ reaches _ depends := reaches.tail depends

theorem Graph.members_ascend {component : Component}
    (found : graph.plan.components[index]? = some component) : Ascends component.members := by
  rw [graph.plan_eq] at found
  refine (Decomposition.members_ascending found).imp ?_
  intro left right less
  simpa [rank, Rank.precedes] using less

theorem Graph.members_eq {component counterpart : Component}
    (found : graph.plan.components[index]? = some component)
    (foundToo : other.plan.components[position]? = some counterpart)
    (shared : ∀ next, graph.Member index next ↔ other.Member position next) :
    component.members = counterpart.members := by
  have belongs : ∀ next, next ∈ component.members ↔ next ∈ counterpart.members := by
    intro next
    simpa [Graph.Member, found, foundToo] using shared next
  exact (Graph.members_ascend found).eq Rank.delimited_declId.injective
    (Graph.members_ascend foundToo) belongs

/-- Where the closure of a declaration is the same, its component is solved the same way. -/
theorem solution_congr (same : graph.SameClosure other id) (member : graph.Member index id)
    (placed : other.Member position id) :
    (solution graph options index).found = (solution other options position).found ∧
      (solution graph options index).issues = (solution other options position).issues := by
  -- By induction on the number of the component; the components it depends on have smaller ones.
  induction index using Nat.strong_induction_on generalizing id position with
  | _ index earlier =>
    have declared := member.declared
    have lookups : ∀ next, Relation.ReflTransGen graph.Depends id next →
        (tableOf graph options (List.range index).reverse).lookup next =
          (tableOf other options (List.range position).reverse).lookup next := by
      intro next reaches
      have nextSame := same.below reaches
      obtain ⟨there, inside⟩ := Graph.exists_member ((graph.closureOf [] declared).declared next reaches)
      obtain ⟨away, outside⟩ : ∃ away, other.Member away next := by
        apply Graph.exists_member
        rw [same.decls next reaches]
        exact inside.declared
      have before := same.before_iff member placed reaches inside outside
      rw [lookup_tableOf inside, lookup_tableOf outside]
      by_cases less : there < index
      · rw [if_pos (by simpa using less), if_pos (by simpa using before.mp less),
          (earlier there less nextSame inside outside).1]
      · rw [if_neg (by simpa using less), if_neg (by simpa using mt before.mpr less)]
    have shared (next : DeclId) : graph.Member index next ↔ other.Member position next :=
      same.member_iff member placed
    obtain ⟨component, found, mem⟩ := member
    obtain ⟨counterpart, foundToo, -⟩ := placed
    have members := Graph.members_eq found foundToo shared
    have inside : ∀ next ∈ component.members,
        (graph.closureOf (tableOf graph options (List.range index).reverse) declared).Holds next := by
      intro next mem'
      exact ((Graph.member_iff ⟨component, found, mem⟩).mp ⟨component, found, mem'⟩).1
    rw [solution_eq found, solution_eq foundToo, ← members,
      solveComponent_congr same.alike lookups inside index]
    exact solveComponent_index component.members index position

/-! ### Issues -/

theorem solution_answers (graph : Graph) (options : Options) (index : Nat) :
    (solution graph options index).Answers := by
  unfold solution solveAt
  split
  · exact solveComponent_answers index _
  · simp [Solving.Answers]

theorem mem_issues_resolution {issue : ResolutionIssue} (member : graph.Member index issue.decl) :
    issue ∈ (graph.resolution options).issues ↔ issue ∈ (solution graph options index).issues := by
  rw [Graph.resolution, mem_ascending Rank.delimited_issue.injective, List.mem_flatMap]
  constructor
  · rintro ⟨source, -, mem⟩
    have answered := solution_answers graph options source issue mem
    rw [solved graph options source] at answered
    rwa [member.unique answered]
  · intro mem
    exact ⟨index, by simpa using member_bound member, mem⟩

theorem issue_declared {issue : ResolutionIssue}
    (mem : issue ∈ (graph.resolution options).issues) : (graph.decl? issue.decl).isSome := by
  rw [Graph.resolution, mem_ascending Rank.delimited_issue.injective, List.mem_flatMap] at mem
  obtain ⟨source, -, mem⟩ := mem
  have answered := solution_answers graph options source issue mem
  rw [solved graph options source] at answered
  exact answered.declared

/-! ### Resolution -/

theorem get?_resolution_congr (same : graph.SameClosure other id) :
    (other.resolution options).get? id = (graph.resolution options).get? id := by
  have declared := same.decls id .refl
  cases found : graph.decl? id with
  | none =>
    have absent : ∀ graph : Graph, graph.decl? id = none →
        (graph.resolution options).get? id = none := by
      intro graph undeclared
      rw [← Option.not_isSome_iff_eq_none, Resolution.get?, lookup_isSome, mem_keys_resolution,
        undeclared]
      simp
    rw [absent graph found, absent other (by rw [declared, found])]
  | some decl =>
    obtain ⟨index, member⟩ := Graph.exists_member (Option.isSome_of_eq_some found)
    obtain ⟨position, placed⟩ := Graph.exists_member
      (Option.isSome_of_eq_some (declared.trans found))
    rw [get?_resolution_of_member member, get?_resolution_of_member placed,
      (solution_congr same member placed).1]

theorem mem_issues_congr (same : graph.SameClosure other id) {issue : ResolutionIssue}
    (about : issue.decl = id) : issue ∈ (other.resolution options).issues ↔
      issue ∈ (graph.resolution options).issues := by
  subst about
  have declared := same.decls issue.decl .refl
  by_cases known : (graph.decl? issue.decl).isSome
  · obtain ⟨index, member⟩ := Graph.exists_member known
    obtain ⟨position, placed⟩ := Graph.exists_member (by rwa [← declared] at known)
    rw [mem_issues_resolution member, mem_issues_resolution placed,
      (solution_congr same member placed).2]
  · -- Neither graph has anything to say of what it does not declare.
    constructor
    · intro mem
      exact absurd (declared ▸ issue_declared mem) known
    · intro mem
      exact absurd (issue_declared mem) known

/-- A declaration is resolved to the same isolation, for the same reason and with the same issues, in
any two graphs that have the same declarations and extensions below it. -/
theorem resolved_within_closure {graph other : Graph} (options : Options) {id : DeclId}
    (same : graph.SameClosure other id) :
    let table := (Resolver.byLevels graph options).snapshot
    let counterpart := (Resolver.byLevels other options).snapshot
    counterpart.get? id = table.get? id ∧
      counterpart.issues.filter (·.decl = id) = table.issues.filter (·.decl = id) := by
  intro table counterpart
  simp only [table, counterpart, Resolver.byLevels_snapshot]
  refine ⟨get?_resolution_congr same, ?_⟩
  have ascends : ∀ graph : Graph,
      Ascends ((graph.resolution options).issues.filter (·.decl = id)) :=
    fun graph => (ascending_ascends _).filter _
  refine (ascends other).eq Rank.delimited_issue.injective (ascends graph) fun issue => ?_
  simp only [List.mem_filter, decide_eq_true_eq]
  exact and_congr_left fun about => mem_issues_congr same about

/-- Two classes that inherit from each other, and a method, added to one of them, that overrides
itself. -/
def extendedHeirs : Graph where
  decls :=
    [{ id := ⟨1⟩, name := "Left", kind := .type .classType, supertypes := [⟨2⟩] },
      { id := ⟨2⟩, name := "Right", kind := .type .classType, supertypes := [⟨1⟩] },
      { id := ⟨3⟩, name := "refresh", kind := .function, enclosing := some ⟨1⟩,
        scope := .extension ⟨0⟩, overrides := [⟨3⟩] }]
  extensions := [{ id := ⟨0⟩, extended := ⟨1⟩ }]
  plan := _
  plan_eq := rfl
  decls_ascending := by decide
  extensions_ascending := by decide
  edges_ascending := Graph.noCalls_ascending
  sound := by decide +kernel

/-- The same with a global actor that comes first, an heir on it, and another extension. -/
def isolatedHeirs : Graph where
  decls :=
    [{ id := ⟨0⟩, name := "Main", kind := .type .actor, isGlobalActor := true },
      { id := ⟨1⟩, name := "Left", kind := .type .classType, supertypes := [⟨2⟩] },
      { id := ⟨2⟩, name := "Right", kind := .type .classType, supertypes := [⟨1⟩] },
      { id := ⟨3⟩, name := "refresh", kind := .function, enclosing := some ⟨1⟩,
        scope := .extension ⟨0⟩, overrides := [⟨3⟩] },
      { id := ⟨4⟩, name := "View", kind := .type .classType, supertypes := [⟨1⟩],
        annotations := [.globalActor ⟨0⟩] }]
  extensions :=
    [{ id := ⟨0⟩, extended := ⟨1⟩ }, { id := ⟨1⟩, extended := ⟨4⟩, globalActor := some ⟨0⟩ }]
  plan := _
  plan_eq := rfl
  decls_ascending := by decide
  extensions_ascending := by decide
  edges_ascending := Graph.noCalls_ascending
  sound := by decide +kernel

theorem extendedHeirs_resolved_within_closure :
    extendedHeirs.SameClosure isolatedHeirs ⟨3⟩ ∧
      (Resolver.byLevels extendedHeirs {}).snapshot.get? ⟨3⟩ = some (.nonisolated .cycle) ∧
      (Resolver.byLevels isolatedHeirs {}).snapshot.get? ⟨3⟩ = some (.nonisolated .cycle) ∧
      (Resolver.byLevels isolatedHeirs {}).snapshot.issues.filter (·.decl = ⟨3⟩) =
        (Resolver.byLevels extendedHeirs {}).snapshot.issues.filter (·.decl = ⟨3⟩) := by
  have below : ∀ next, Relation.ReflTransGen extendedHeirs.Depends ⟨3⟩ next →
      next ∈ ([⟨1⟩, ⟨2⟩, ⟨3⟩] : List DeclId) := by
    intro next reaches
    induction reaches with
    | refl => decide
    | tail _ depends ih =>
      obtain ⟨decl, found, dependency⟩ := depends
      have closed : ∀ decl ∈ extendedHeirs.decls, decl.dependencies ⊆ [⟨1⟩, ⟨2⟩, ⟨3⟩] := by decide
      exact closed decl (Graph.mem_of_decl? found) dependency
  have same : extendedHeirs.SameClosure isolatedHeirs ⟨3⟩ := by
    constructor
    · intro next reaches
      have decls : ∀ next ∈ ([⟨1⟩, ⟨2⟩, ⟨3⟩] : List DeclId),
          isolatedHeirs.decl? next = extendedHeirs.decl? next := by decide
      exact decls next (below next reaches)
    · intro next decl extension _ found scope
      have only : ∀ decl ∈ extendedHeirs.decls,
          decl.scope = .primary ∨ decl.scope = .extension ⟨0⟩ := by decide
      rcases only decl (Graph.mem_of_decl? found) with primary | zero
      · simp [primary] at scope
      · rw [zero, Scope.extension.injEq] at scope
        rw [← scope]
        decide
  obtain ⟨isolation, issues⟩ := resolved_within_closure {} same
  have cyclic : (Resolver.byLevels extendedHeirs {}).snapshot.get? ⟨3⟩ =
      some (.nonisolated .cycle) := by decide +kernel
  exact ⟨same, cyclic, isolation.trans cyclic, issues⟩

end ActorIsolation
