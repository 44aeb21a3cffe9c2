import ActorIsolation.Proofs.Cycles
import ActorIsolation.Proofs.Declarations
import ActorIsolation.Proofs.Resolution

/-! Default values on a type of a global actor. Members of such a type follow it unless something else is
written, even where the type and its members depend on each other. So its initializers, written or not,
all run on the actor, and a default value is unsafe there exactly when it needs another one.
-/

set_option autoImplicit false

namespace ActorIsolation

/-- A function in a type, written where the type is, with nothing else that could isolate it first. -/
structure Declaration.FollowsType (graph : Graph) (decl owner : Declaration) : Prop where
  function : decl.kind = .function
  inside : graph.InType decl owner
  unwritten : decl.annotations = []
  primary : decl.scope = .primary
  ordinary : decl.isEntryPoint = false
  shared : owner.isPlainActor = false

namespace Declaration.FollowsType

variable {graph : Graph} {options : Options} {decl owner : Declaration} {actor : DeclId}

theorem ruling (follows : decl.FollowsType graph owner) (options : Options) :
    decl.ruling graph options = Rule.firstOf [Rule.enclosingType graph decl,
      Rule.requirement graph decl, Rule.overridden decl] := by
  have explicit : Rule.explicit decl = Rule.skip := by
    simp [Rule.explicit, Rule.writtenAnnotations, follows.unwritten, ascending]
  have member : Rule.actorMember graph decl = Rule.skip := by
    simp [Rule.actorMember, Graph.enclosingType?_eq_some.mpr follows.inside, follows.shared]
  have entry : Rule.entryPoint options decl = Rule.skip := by
    unfold Rule.entryPoint
    split <;> simp [Rule.isEntryState, follows.ordinary, follows.function]
  have extension : Rule.extensionAttribute graph decl = Rule.skip := by
    simp [Rule.extensionAttribute, follows.primary]
  simp only [Declaration.ruling, Rule.rules, follows.function, explicit, member, entry, extension,
    Rule.firstOf, Rule.skip, Inquiry.pure_eq, Inquiry.done_bind]

theorem ruled {answers : DeclId → Isolation} (follows : decl.FollowsType graph owner)
    (global : (answers owner.id).domain = .globalActor actor) :
    (decl.ruling graph options).asked answers = [owner.id] ∧
      ((decl.ruling graph options).against answers).isolation =
        ⟨.globalActor actor, .enclosingType⟩ := by
  rw [follows.ruling]
  simp [Rule.firstOf, Rule.enclosingType, Graph.enclosingType?_eq_some.mpr follows.inside,
    follows.primary, global, Domain.globalActor?, Rule.decide, Ruling.plain]

/-- Such a function is where its type is. It asks about its type only, so it is part of a cycle only if
its type is, and then the type is not isolated. -/
theorem isolation (follows : decl.FollowsType graph owner) (declared : decl ∈ graph.decls)
    (global : ((graph.resolution options).isolation owner.id).domain = .globalActor actor) :
    (graph.resolution options).isolation decl.id = ⟨.globalActor actor, .enclosingType⟩ := by
  obtain ⟨asked, ruled⟩ := @ruled graph options decl owner actor _ follows global
  rcases @resolution_justified graph options decl declared with ⟨cyclic, -⟩ | prescribed
  · obtain ⟨next, question, answer⟩ := @cycle_asked graph options decl declared (by rw [cyclic]; rfl)
    rw [asked, List.mem_singleton] at question
    rw [← question, answer] at global
    cases global
  · rw [prescribed, ← ruling_against, ruled]

end Declaration.FollowsType

theorem ascending_constant {α : Type} [Ranked α] {value : α} {values : List α} (nonempty : values ≠ [])
    (all : ∀ other ∈ values, other = value) : ascending values = [value] := by
  induction values with
  | nil => exact absurd rfl nonempty
  | cons first rest ih =>
    obtain ⟨rfl, others⟩ := List.forall_mem_cons.mp all
    cases rest with
    | nil => rfl
    | cons second rest =>
      have last : ¬ Rank.precedes (rank first) (rank first) := by
        rw [Rank.precedes_iff, not_not]
        exact Rank.atMost_refl _
      rw [ascending, List.foldr_cons, ← ascending, ih (by simp) others, insertAscending, if_neg last,
        if_pos rfl]

namespace Boundary

variable {graph : Graph} {options : Options} {owner : Declaration} {actor : DeclId}

/-- Every initializer is written without anything that could isolate it otherwise than its type. -/
def FollowInitializers (graph : Graph) (owner : Declaration) : Prop :=
  ∀ initializer, graph.HasInitializer owner.id initializer →
    initializer.annotations = [] ∧ initializer.scope = .primary ∧ initializer.isEntryPoint = false

theorem follows_of_initializer (declared : owner ∈ graph.decls) (isType : owner.isType)
    (shared : owner.isPlainActor = false) (follow : FollowInitializers graph owner)
    {initializer : Declaration} (starts : graph.HasInitializer owner.id initializer) :
    initializer.FollowsType graph owner := by
  obtain ⟨unwritten, primary, ordinary⟩ := follow initializer starts
  exact ⟨starts.function, ⟨declared, starts.inside, isType⟩, unwritten, primary, ordinary, shared⟩

theorem contextsOf_global (declared : owner ∈ graph.decls) (isType : owner.isType)
    (shared : owner.isPlainActor = false) (follow : FollowInitializers graph owner)
    (global : ((graph.resolution options).isolation owner.id).domain = .globalActor actor) :
    contextsOf graph (graph.resolution options).isolation owner = [.globalActor actor] := by
  unfold contextsOf
  split
  · rw [global]
    rfl
  · rename_i some
    refine ascending_constant (by simpa using some) fun domain mem => ?_
    obtain ⟨initializer, listed, rfl⟩ := List.mem_map.mp mem
    have starts := Graph.mem_initializers.mp listed
    have follows := follows_of_initializer declared isType shared follow starts
    rw [follows.isolation starts.declared global]

def unsafeOn (actor : DeclId) (options : Options) (answers : DeclId → Isolation) (field : Declaration)
    (value : DefaultValue) : List Violation :=
  (value.references.filter fun reference => (answers reference).domain ≠ .globalActor actor ∧
      (answers reference).domain ≠ .nonisolated).map fun reference =>
    unsafeDefault options answers field (value.span.or field.span) reference (.globalActor actor)

section

variable {answers : DeclId → Isolation} {field : Declaration} {value : DefaultValue}

theorem unsafeDefaults_eq_unsafeOn (listed : graph.HasField owner.id field)
    (declared : owner ∈ graph.decls) (isType : owner.isType) (given : field.defaultValue = some value)
    (contexts : contextsOf graph answers owner = [.globalActor actor]) :
    unsafeDefaults graph options answers field = unsafeOn actor options answers field value := by
  have inside := Graph.enclosingType?_eq_some.mpr ⟨declared, listed.inside, isType⟩
  rw [unsafeDefaults, if_pos ⟨listed.stored, listed.ofInstance⟩, given, inside]
  dsimp only
  rw [contexts, unsafeOn]
  induction value.references with
  | nil => rfl
  | cons reference rest ih =>
    rw [List.filterMap_cons, ih, List.filter_cons]
    cases needed : (answers reference).domain with
    | nonisolated => simp [clash?, Domain.isIsolated]
    | actorInstance other => simp [clash?, Domain.isIsolated]
    | globalActor other =>
      by_cases same : actor = other
      · simp [clash?, Domain.isIsolated, same]
      · simp [clash?, Domain.isIsolated, same, Ne.symm same]

theorem mem_unsafeOn {violation : Violation}
    (mem : violation ∈ unsafeOn actor options answers field value) :
    ∃ reference ∈ value.references, ((answers reference).domain ≠ .globalActor actor ∧
        (answers reference).domain ≠ .nonisolated) ∧ violation = unsafeDefault options answers field
          (value.span.or field.span) reference (.globalActor actor) := by
  obtain ⟨reference, kept, rfl⟩ := List.mem_map.mp mem
  obtain ⟨occurs, needed⟩ := List.mem_filter.mp kept
  exact ⟨reference, occurs, of_decide_eq_true needed, rfl⟩

theorem countP_unsafeOn {reference : DeclId}
    (elsewhere : (answers reference).domain ≠ .globalActor actor)
    (isolated : (answers reference).domain ≠ .nonisolated) :
    (unsafeOn actor options answers field value).countP (·.related = some reference) =
      value.references.count reference := by
  have named : ((fun violation : Violation => decide (violation.related = some reference)) ∘
      fun other => unsafeDefault options answers field (value.span.or field.span) other
        (.globalActor actor)) = (· == reference) := by
    funext other
    simp [unsafeDefault, declViolation, beq_eq_decide]
  rw [unsafeOn, List.countP_map, named]
  exact List.count_filter (decide_eq_true ⟨elsewhere, isolated⟩)

end

end Boundary

open Boundary in
/-- On a type that is not a plain actor and has come to a global actor, in whatever way, initializers with
nothing of their own follow the type. What the default value of an instance's stored property refers to
is then unsafe exactly when it is isolated and not to that actor, once for each time that it occurs, and
nothing else is unsafe about the property. -/
theorem default_values_on_global_actor {graph : Graph} {options : Options} {checker : Checker}
    (created : Checker.create graph options = .ok checker) (requests : List Checker.Request)
    {report : Report} (reported : report ∈ checker.reports requests) {owner : Declaration}
    (declared : owner ∈ graph.decls) (isType : owner.isType) (shared : owner.isPlainActor = false)
    {actor : DeclId} (global : (report.resolution.isolation owner.id).domain = .globalActor actor)
    (follow : FollowInitializers graph owner) :
    let domain (id : DeclId) := (report.resolution.isolation id).domain
    (∀ initializer, graph.HasInitializer owner.id initializer →
        domain initializer.id = .globalActor actor) ∧
      ∀ field, graph.HasField owner.id field →
        let found := report.violations.filter fun violation =>
          violation.category = .unsafeIsolatedDefault ∧ violation.decl = field.id
        (field.defaultValue = none → found = []) ∧
          ∀ value, field.defaultValue = some value →
            (∀ violation ∈ found, ∃ reference ∈ value.references, violation.related = some reference ∧
              violation.source = .globalActor actor ∧ violation.target = domain reference) ∧
            (∀ reference, domain reference = .globalActor actor ∨ domain reference = .nonisolated →
              ∀ violation ∈ found, violation.related ≠ some reference) ∧
            ∀ reference, domain reference ≠ .globalActor actor → domain reference ≠ .nonisolated →
              found.countP (·.related = some reference) = value.references.count reference := by
  obtain ⟨findings, resolved⟩ := Checker.findings_of_mem created reported
  rw [resolved] at global
  rw [findings, resolved]
  intro domain
  refine ⟨fun initializer starts => ?_, fun field listed => ?_⟩
  · have follows := follows_of_initializer declared isType shared follow starts
    exact congrArg Isolation.domain (follows.isolation starts.declared global)
  intro found
  have perm : found.Perm _ := @Pass.unsafeDefaults_perm graph options field listed.declared
  refine ⟨fun absent => ?_, fun value given => ?_⟩
  · refine List.eq_nil_iff_forall_not_mem.mpr fun violation mem => ?_
    obtain ⟨_, _, given, -⟩ := unsafeDefault_of_mem (perm.mem_iff.mp mem)
    simp [absent] at given
  · rw [unsafeDefaults_eq_unsafeOn listed declared isType given
      (contextsOf_global declared isType shared follow global)] at perm
    refine ⟨fun violation mem => ?_, fun reference safe violation mem related => ?_,
      fun reference elsewhere isolated => ?_⟩
    · obtain ⟨reference, occurs, -, rfl⟩ := mem_unsafeOn (perm.mem_iff.mp mem)
      exact ⟨reference, occurs, rfl, rfl, rfl⟩
    · obtain ⟨other, -, ⟨elsewhere, isolated⟩, rfl⟩ := mem_unsafeOn (perm.mem_iff.mp mem)
      obtain rfl : other = reference := Option.some.inj related
      exact safe.elim elsewhere isolated
    · rw [perm.countP_eq]
      exact countP_unsafeOn elsewhere isolated

/-- A panel on the main actor that inherits from a class inside it. Its image needs another actor, once
for each side. -/
def nestedPanel : Graph where
  decls :=
    [{ id := ⟨0⟩, name := "Main", kind := .type .actor, isGlobalActor := true },
      { id := ⟨1⟩, name := "Render", kind := .type .actor, isGlobalActor := true },
      { id := ⟨2⟩, name := "Panel", kind := .type .classType, annotations := [.globalActor ⟨0⟩],
        supertypes := [⟨3⟩] },
      { id := ⟨3⟩, name := "Base", kind := .type .classType, enclosing := some ⟨2⟩ },
      { id := ⟨4⟩, name := "init", kind := .function, enclosing := some ⟨2⟩, isInitializer := true },
      { id := ⟨5⟩, name := "title", kind := .function, annotations := [.globalActor ⟨0⟩] },
      { id := ⟨6⟩, name := "side", kind := .function, annotations := [.globalActor ⟨1⟩] },
      { id := ⟨7⟩, name := "image", kind := .storedProperty, enclosing := some ⟨2⟩,
        type := some (.function true), defaultValue := some ⟨[⟨6⟩, ⟨5⟩, ⟨6⟩], none⟩ }]
  plan := _
  plan_eq := rfl
  decls_ascending := by decide
  extensions_ascending := Graph.noExtensions_ascending
  edges_ascending := Graph.noCalls_ascending
  sound := by decide +kernel

theorem nestedPanel_default_values :
    ∃ checker report, Checker.create nestedPanel {} = .ok checker ∧
      report ∈ checker.reports [.parallel] ∧ nestedPanel.Entangled ⟨2⟩ ∧
      (report.resolution.isolation ⟨2⟩).domain = .globalActor ⟨0⟩ ∧
      let found := report.violations.filter fun violation =>
        violation.category = .unsafeIsolatedDefault ∧ violation.decl = ⟨7⟩
      (∀ violation ∈ found, violation.related ≠ some ⟨5⟩) ∧
        found.countP (·.related = some ⟨6⟩) = 2 := by
  have created : Checker.create nestedPanel {} = .ok ⟨nestedPanel, {}, {}⟩ := rfl
  obtain ⟨report, reported⟩ : ∃ report, report ∈ Checker.reports ⟨nestedPanel, {}, {}⟩ [.parallel] :=
    ⟨_, List.mem_cons_self⟩
  have domains : (report.resolution.isolation ⟨2⟩).domain = .globalActor ⟨0⟩ ∧
      (report.resolution.isolation ⟨5⟩).domain = .globalActor ⟨0⟩ ∧
      (report.resolution.isolation ⟨6⟩).domain = .globalActor ⟨1⟩ := by
    rw [(Checker.findings_of_mem created reported).2]
    decide +kernel
  obtain ⟨panel, title, side⟩ := domains
  have inherits : nestedPanel.Depends ⟨2⟩ ⟨3⟩ := ⟨_, rfl, by decide⟩
  have nested : nestedPanel.Depends ⟨3⟩ ⟨2⟩ := ⟨_, rfl, by decide⟩
  have follow : Boundary.FollowInitializers nestedPanel (nestedPanel.decls.get ⟨2, by decide⟩) := by
    simp only [Boundary.FollowInitializers, ← Graph.mem_initializers]
    decide
  obtain ⟨-, fields⟩ := default_values_on_global_actor created [.parallel] reported
    (List.get_mem nestedPanel.decls ⟨2, by decide⟩) rfl rfl panel follow
  obtain ⟨-, values⟩ := fields (nestedPanel.decls.get ⟨7, by decide⟩)
    (Graph.mem_storedFields.mp (by decide))
  obtain ⟨-, safe, unsafely⟩ := values _ rfl
  refine ⟨_, report, created, reported, .tail (.single inherits) nested, panel, ?_, ?_⟩
  · exact safe ⟨5⟩ (.inl title)
  · exact unsafely ⟨6⟩ (by simp [side]) (by simp [side])

end ActorIsolation
