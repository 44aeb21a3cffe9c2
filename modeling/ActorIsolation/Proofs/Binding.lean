import ActorIsolation.Proofs.Crossing
import ActorIsolation.Proofs.Provenance
import ActorIsolation.Proofs.Resolution

/-! The name of the actor value that a body runs on, as its isolation tells it and as the way outwards
tells it. Isolation comes from what is written first, while the way outwards passes through every
closure that inherits its isolation. So the two agree unless such a closure has an isolated parameter
of its own.
-/

set_option autoImplicit false

namespace ActorIsolation

inductive Declaration.OnInstance (answers : DeclId → Isolation) (decl : Declaration) (actor : DeclId) :
    Origin → Prop where
  | parameter {name : String} {rest : List Annotation} :
      decl.annotations = .isolatedParameter name actor :: rest →
      OnInstance answers decl actor .isolatedParameter
  | self {origin : Origin} : decl.annotations = [] → decl.kind ≠ .closure true →
      origin = .actorSelf ∨ origin = .actorStorage ∨ origin = .actorType →
      OnInstance answers decl actor origin
  | context {parent : DeclId} : decl.annotations = [] → decl.kind = .closure true →
      decl.enclosing = some parent → (answers parent).domain = .actorInstance actor →
      OnInstance answers decl actor .closureContext

section

variable {graph : Graph} {options : Options} {answers : DeclId → Isolation} {decl : Declaration}
  {actor : DeclId}

theorem Prescription.annotations_of_written (silent : written decl = none) :
    decl.annotations = [] := by
  unfold written at silent
  split at silent
  · cases silent
  · exact List.head?_eq_none_iff.mp (Option.map_eq_none_iff.mp silent)

theorem prescribed_of_written {isolation : Isolation}
    (said : Prescription.written decl = some isolation) :
    decl.prescribed graph options answers = isolation := by
  simp [Declaration.prescribed, Prescription.opinions, said]

theorem onInstance_of_written {origin : Origin}
    (said : Prescription.written decl = some ⟨.actorInstance actor, origin⟩) :
    decl.OnInstance answers actor origin := by
  unfold Prescription.written at said
  split at said
  · cases said
  · obtain ⟨mark, first, meant⟩ := Option.map_eq_some_iff.mp said
    obtain ⟨rest, annotations⟩ := List.head?_eq_some_iff.mp first
    cases mark with
    | nonisolated => cases meant
    | nonisolatedUnsafe => cases meant
    | globalActor other => cases meant
    | isolatedParameter name other =>
      cases meant
      exact .parameter annotations

/-- Only these rules put a declaration on an instance of an actor. -/
theorem prescribed_onInstance
    (domain : (decl.prescribed graph options answers).domain = .actorInstance actor) :
    decl.OnInstance answers actor (decl.prescribed graph options answers).origin := by
  cases said : Prescription.written decl with
  | some isolation =>
    rw [prescribed_of_written said] at domain ⊢
    obtain ⟨_, origin⟩ := isolation
    cases domain
    exact onInstance_of_written said
  | none =>
    have unmarked := Prescription.annotations_of_written said
    have isolated : (decl.prescribed graph options answers).domain.isIsolated := by
      rw [domain]
      rfl
    have supported := prescribed_supported graph options answers decl isolated
    generalize decl.prescribed graph options answers = isolation at domain supported ⊢
    rcases supported with rooted | handed
    · cases rooted with
      | named present => simp [unmarked] at present
      | parameter present => simp [unmarked] at present
      | globalActor => cases domain
      | actor kind => exact .self unmarked (by simp [kind]) (by simp)
      | storage _ _ _ kind => exact .self unmarked (by simp [kind]) (by simp)
      | member _ _ _ kind => exact .self unmarked (by simp [kind]) (by simp)
      | extension => cases domain
      | entryPoint => cases domain
    · cases handed with
      | context kind enclosing => exact .context unmarked kind enclosing domain
      | globalActor => cases domain

end

/-! ### Names -/

/-- The actor value that a body runs on, as told by isolation: the value of an isolated parameter, the
instance itself, or for a closure isolated as its surroundings are, the value those run on. -/
inductive RunsOn (graph : Graph) (table : DeclId → Isolation) : DeclId → String → Prop where
  | parameter {id : DeclId} {decl : Declaration} {name : String} : graph.decl? id = some decl →
      (table id).origin = .isolatedParameter → decl.isolatedParameter? = some name →
      RunsOn graph table id name
  | self {id : DeclId} : (graph.decl? id).isSome → (table id).origin = .actorSelf ∨
      (table id).origin = .actorStorage ∨ (table id).origin = .actorType →
      RunsOn graph table id "self"
  | context {id parent : DeclId} {decl : Declaration} {name : String} : graph.decl? id = some decl →
      (table id).origin = .closureContext → decl.enclosing = some parent →
      RunsOn graph table parent name → RunsOn graph table id name

/-- Going outwards through closures that inherit their isolation, one is met that has an isolated
parameter all the same. -/
inductive Graph.Rebinds (graph : Graph) : DeclId → Prop where
  | here {id : DeclId} {decl : Declaration} : graph.decl? id = some decl →
      decl.kind = .closure true → decl.isolatedParameter?.isSome → Rebinds graph id
  | outside {id parent : DeclId} {decl : Declaration} : graph.decl? id = some decl →
      decl.kind = .closure true → decl.enclosing = some parent → Rebinds graph parent →
      Rebinds graph id

variable {graph : Graph} {options : Options} {decl : Declaration} {actor : DeclId} {id : DeclId}
  {name other : String}

theorem RunsOn.unique {table : DeclId → Isolation} (first : RunsOn graph table id name)
    (second : RunsOn graph table id other) : other = name := by
  induction first with
  | parameter found origin named =>
    cases second with
    | parameter same _ alsoNamed =>
      cases found.symm.trans same
      exact Option.some.inj (alsoNamed.symm.trans named)
    | self _ different => simp [origin] at different
    | context _ different => simp [origin] at different
  | self _ origin =>
    cases second with
    | parameter _ different => simp [different] at origin
    | self => rfl
    | context _ different => simp [different] at origin
  | context found origin enclosing _ ih =>
    cases second with
    | parameter _ different => simp [origin] at different
    | self _ different => simp [origin] at different
    | context same _ alsoEnclosing runs =>
      cases found.symm.trans same
      cases enclosing.symm.trans alsoEnclosing
      exact ih runs

theorem not_rebinds (unnamed : ∀ decl ∈ graph.decls, decl.kind = .closure true →
    decl.isolatedParameter? = none) : ¬ graph.Rebinds id := by
  intro rebinds
  induction rebinds with
  | here found inherits named => simp [unnamed _ (Graph.mem_of_decl? found) inherits] at named
  | outside _ _ _ _ ih => exact ih

theorem isolatedParameter?_of_cons {rest : List Annotation}
    (annotations : decl.annotations = .isolatedParameter name actor :: rest) :
    decl.isolatedParameter? = some name := by
  simp [Declaration.isolatedParameter?, annotations]

theorem binding?_of_parameter (found : graph.decl? id = some decl) (own : decl.kind ≠ .closure true)
    (named : decl.isolatedParameter? = some name) : graph.binding? id = some name := by
  rw [Graph.binding?_eq found, if_neg own, Declaration.actorName, named, Option.getD_some]

theorem binding?_of_unmarked (found : graph.decl? id = some decl) (own : decl.kind ≠ .closure true)
    (unmarked : decl.annotations = []) : graph.binding? id = some "self" := by
  have unnamed : decl.isolatedParameter? = none := by
    simp [Declaration.isolatedParameter?, unmarked]
  rw [Graph.binding?_eq found, if_neg own, Declaration.actorName, unnamed, Option.getD_none]

theorem binding?_of_closure {parent : DeclId} (found : graph.decl? id = some decl)
    (inherits : decl.kind = .closure true) (enclosing : decl.enclosing = some parent) :
    graph.binding? id = graph.binding? parent := by
  rw [Graph.binding?_eq found, if_pos inherits, enclosing, Option.bind_some]

/-! ### Agreement -/

theorem resolution_onInstance (declared : decl ∈ graph.decls)
    (domain : ((graph.resolution options).isolation decl.id).domain = .actorInstance actor) :
    decl.OnInstance (graph.resolution options).isolation actor
      ((graph.resolution options).isolation decl.id).origin := by
  rcases @resolution_justified graph options decl declared with ⟨cyclic, -⟩ | prescribed
  · rw [cyclic] at domain
    cases domain
  · rw [prescribed] at domain ⊢
    exact prescribed_onInstance domain

theorem exists_runsOn (declared : decl ∈ graph.decls)
    (domain : ((graph.resolution options).isolation decl.id).domain = .actorInstance actor) :
    ∃ name, RunsOn graph (graph.resolution options).isolation decl.id name := by
  -- By induction on the way outwards.
  induction chain : graph.chain decl.id generalizing decl with
  | nil =>
    rw [Graph.chain_eq_cons (Graph.decl?_of_mem declared)] at chain
    cases chain
  | cons first rest ih =>
    have found := Graph.decl?_of_mem declared
    have onInstance := resolution_onInstance declared domain
    generalize same : ((graph.resolution options).isolation decl.id).origin = origin at onInstance
    cases onInstance with
    | parameter annotations =>
      exact ⟨_, .parameter found same (isolatedParameter?_of_cons annotations)⟩
    | self _ _ origin => exact ⟨_, .self (Option.isSome_of_eq_some found) (same ▸ origin)⟩
    | @context parent _ _ enclosing outer =>
      obtain ⟨around, known⟩ := Option.isSome_iff_exists.mp
        (Graph.dependency_declared declared (Declaration.mem_dependencies.mpr (.inl enclosing)))
      obtain rfl : around.id = parent := Graph.id_of_decl? known
      rw [Graph.chain_eq_cons found, enclosing, Option.elim_some] at chain
      obtain ⟨name, runs⟩ := ih (Graph.mem_of_decl? known) outer (List.cons.inj chain).2
      exact ⟨name, .context found same enclosing runs⟩

/-- Unless a closure binds anew, the way outwards comes to the same name. -/
theorem RunsOn.binding (runs : RunsOn graph (graph.resolution options).isolation id name)
    (domain : ((graph.resolution options).isolation id).domain = .actorInstance actor)
    (plain : ¬ graph.Rebinds id) : graph.binding? id = some name := by
  induction runs with
  | @parameter id decl name found origin named =>
    refine binding?_of_parameter found (fun inherits => plain ?_) named
    exact .here found inherits (Option.isSome_of_eq_some named)
  | @self id declared origin =>
    obtain ⟨decl, found⟩ := Option.isSome_iff_exists.mp declared
    obtain rfl := Graph.id_of_decl? found
    have onInstance := resolution_onInstance (Graph.mem_of_decl? found) domain
    generalize ((graph.resolution options).isolation decl.id).origin = source at onInstance origin
    cases onInstance with
    | parameter => simp at origin
    | self unmarked own => exact binding?_of_unmarked found own unmarked
    | context => simp at origin
  | @context id parent decl name found origin enclosing _ ih =>
    obtain rfl := Graph.id_of_decl? found
    have onInstance := resolution_onInstance (Graph.mem_of_decl? found) domain
    rw [origin] at onInstance
    cases onInstance with
    | self _ _ different => simp at different
    | @context outside _ inherits around outer =>
      cases enclosing.symm.trans around
      rw [binding?_of_closure found inherits enclosing]
      exact ih outer fun rebinds => plain (.outside found inherits enclosing rebinds)

/-- Within one domain, a callee that is no closure is off the caller's value exactly when the receiver
is another. -/
theorem crosses_iff_receiver {edge : CallEdge} (bound : graph.binding? edge.caller = some name)
    (plain : ¬ graph.CallsClosure edge) :
    graph.crosses edge (.actorInstance actor) (.actorInstance actor) ↔
      ∃ receiver, edge.receiver = some receiver ∧ receiver ≠ name := by
  have through := Graph.calleeBinding?_of_plain plain
  rw [bound] at through
  cases receiver : edge.receiver with
  | none => simp [Graph.crosses, Graph.isSameActorValue, bound, through, receiver]
  | some value =>
    simpa [Graph.crosses, Graph.isSameActorValue, bound, through, receiver] using ne_comm

/-- Two ways to tell which actor value a body runs on. A declaration on an instance of an actor has its
isolation from an isolated parameter, from being part of the actor, or from what is around it, and its
isolation tells one name. The way outwards tells the same, so that a call into the same domain crosses
exactly when its receiver has another name, unless a closure on the way that inherits its isolation has
an isolated parameter of its own. -/
theorem binding_follows_isolation {graph : Graph} {options : Options} {decl : Declaration}
    {actor : DeclId} (declared : decl ∈ graph.decls)
    (isolated : ((Resolver.byLevels graph options).snapshot.isolation decl.id).domain =
      .actorInstance actor) :
    let table := (Resolver.byLevels graph options).snapshot.isolation
    ((table decl.id).origin = .isolatedParameter ∧
        (∃ name, .isolatedParameter name actor ∈ decl.annotations ∧
          decl.isolatedParameter? = some name ∧
          (decl.kind ≠ .closure true → graph.binding? decl.id = some name)) ∨
      ((table decl.id).origin = .actorSelf ∨ (table decl.id).origin = .actorStorage ∨
          (table decl.id).origin = .actorType) ∧ graph.binding? decl.id = some "self" ∨
      (table decl.id).origin = .closureContext ∧
        ∃ parent, decl.enclosing = some parent ∧ (table parent).domain = .actorInstance actor ∧
          graph.binding? decl.id = graph.binding? parent) ∧
      ∃ name, RunsOn graph table decl.id name ∧
        (∀ other, RunsOn graph table decl.id other → other = name) ∧
        (¬ graph.Rebinds decl.id → graph.binding? decl.id = some name ∧
          ∀ edge : CallEdge, edge.caller = decl.id → ¬ graph.CallsClosure edge →
            (table edge.callee).domain = .actorInstance actor →
            (graph.crosses edge (table edge.caller).domain (table edge.callee).domain ↔
              ∃ receiver, edge.receiver = some receiver ∧ receiver ≠ name)) := by
  rw [Resolver.byLevels_snapshot] at isolated ⊢
  intro table
  have found := Graph.decl?_of_mem declared
  constructor
  · have onInstance := resolution_onInstance declared isolated
    generalize (table decl.id).origin = origin at onInstance ⊢
    cases onInstance with
    | @parameter name rest annotations =>
      have named := isolatedParameter?_of_cons annotations
      exact .inl ⟨rfl, name, by simp [annotations], named,
        fun own => binding?_of_parameter found own named⟩
    | self unmarked own origin => exact .inr (.inl ⟨origin, binding?_of_unmarked found own unmarked⟩)
    | @context parent _ inherits enclosing outer =>
      exact .inr (.inr ⟨rfl, parent, enclosing, outer, binding?_of_closure found inherits enclosing⟩)
  · obtain ⟨name, runs⟩ := exists_runsOn declared isolated
    refine ⟨name, runs, fun other => runs.unique, fun plain => ?_⟩
    have bound := runs.binding isolated plain
    refine ⟨bound, fun edge caller callee target => ?_⟩
    rw [← caller] at bound isolated
    rw [isolated, target]
    exact crosses_iff_receiver bound callee

/-- A closure within a closure, in a function that is handed the account it works on. -/
def lentAccount : Graph where
  decls :=
    [{ id := ⟨1⟩, name := "Account", kind := .type .actor },
      { id := ⟨2⟩, name := "deposit", kind := .function, enclosing := some ⟨1⟩ },
      { id := ⟨3⟩, name := "settle", kind := .function,
        annotations := [.isolatedParameter "account" ⟨1⟩] },
      { id := ⟨4⟩, name := "retry", kind := .closure true, enclosing := some ⟨3⟩ },
      { id := ⟨5⟩, name := "attempt", kind := .closure true, enclosing := some ⟨4⟩ }]
  edges :=
    [{ id := ⟨0⟩, caller := ⟨5⟩, callee := ⟨2⟩ },
      { id := ⟨1⟩, caller := ⟨5⟩, callee := ⟨2⟩, receiver := some "account" },
      { id := ⟨2⟩, caller := ⟨5⟩, callee := ⟨2⟩, receiver := some "self" }]
  plan := _
  plan_eq := rfl
  decls_ascending := by decide
  extensions_ascending := Graph.noExtensions_ascending
  edges_ascending := by decide
  sound := by decide +kernel

theorem lentAccount_binding_follows :
    let table := (Resolver.byLevels lentAccount {}).snapshot.isolation
    table ⟨5⟩ = ⟨.actorInstance ⟨1⟩, .closureContext⟩ ∧ RunsOn lentAccount table ⟨5⟩ "account" ∧
      lentAccount.binding? ⟨5⟩ = some "account" ∧
      ∀ edge ∈ lentAccount.edges,
        (lentAccount.crosses edge (table edge.caller).domain (table edge.callee).domain ↔
          ∃ receiver, edge.receiver = some receiver ∧ receiver ≠ "account") := by
  have isolation : (Resolver.byLevels lentAccount {}).snapshot.isolation ⟨5⟩ =
      ⟨.actorInstance ⟨1⟩, .closureContext⟩ := by decide +kernel
  have callee : (Resolver.byLevels lentAccount {}).snapshot.isolation ⟨2⟩ =
      ⟨.actorInstance ⟨1⟩, .actorSelf⟩ := by decide +kernel
  have declared : lentAccount.decls.getLast (by decide) ∈ lentAccount.decls := List.getLast_mem _
  obtain ⟨-, name, runs, -, agree⟩ :=
    @binding_follows_isolation lentAccount {} _ ⟨1⟩ declared (congrArg (·.domain) isolation)
  obtain ⟨bound, calls⟩ := agree (not_rebinds (by decide))
  have named : lentAccount.binding? ⟨5⟩ = some "account" := by decide +kernel
  obtain rfl : name = "account" := Option.some.inj (bound.symm.trans named)
  refine ⟨isolation, runs, named, fun edge mem => ?_⟩
  have same : edge.caller = ⟨5⟩ ∧ edge.callee = ⟨2⟩ := by
    revert edge
    decide
  refine calls edge same.1 ?_ (by rw [same.2, callee])
  rintro ⟨called, inherits, found, kind⟩
  rw [same.2] at found
  cases found
  cases kind

/-- A method's closure that inherits its isolation and yet is handed another counter to run on. -/
def lentCounter : Graph where
  decls :=
    [{ id := ⟨1⟩, name := "Counter", kind := .type .actor },
      { id := ⟨2⟩, name := "increment", kind := .function, enclosing := some ⟨1⟩ },
      { id := ⟨3⟩, name := "run", kind := .function, enclosing := some ⟨1⟩ },
      { id := ⟨4⟩, name := "body", kind := .closure true, enclosing := some ⟨3⟩,
        annotations := [.isolatedParameter "other" ⟨1⟩] }]
  edges :=
    [{ id := ⟨0⟩, caller := ⟨4⟩, callee := ⟨2⟩, receiver := some "other" },
      { id := ⟨1⟩, caller := ⟨4⟩, callee := ⟨2⟩, receiver := some "self" }]
  plan := _
  plan_eq := rfl
  decls_ascending := by decide
  extensions_ascending := Graph.noExtensions_ascending
  edges_ascending := by decide
  sound := by decide +kernel

/-- The closure runs on the counter it is handed, but the call through that counter crosses and the call
through the method's own does not. -/
theorem lentCounter_binding_differs :
    let table := (Resolver.byLevels lentCounter {}).snapshot.isolation
    table ⟨4⟩ = ⟨.actorInstance ⟨1⟩, .isolatedParameter⟩ ∧
      table ⟨2⟩ = ⟨.actorInstance ⟨1⟩, .actorSelf⟩ ∧ RunsOn lentCounter table ⟨4⟩ "other" ∧
      lentCounter.binding? ⟨4⟩ = some "self" ∧
      lentCounter.edges.map (fun edge =>
        lentCounter.crosses edge (table edge.caller).domain (table edge.callee).domain) =
          [true, false] := by
  have isolation : (Resolver.byLevels lentCounter {}).snapshot.isolation ⟨4⟩ =
      ⟨.actorInstance ⟨1⟩, .isolatedParameter⟩ := by decide +kernel
  have callee : (Resolver.byLevels lentCounter {}).snapshot.isolation ⟨2⟩ =
      ⟨.actorInstance ⟨1⟩, .actorSelf⟩ := by decide +kernel
  refine ⟨isolation, callee, .parameter rfl (congrArg (·.origin) isolation) rfl, ?_, ?_⟩
  · decide +kernel
  · decide +kernel

end ActorIsolation
