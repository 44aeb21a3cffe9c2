import ActorIsolation.Proofs.LookUp
import ActorIsolation.Proofs.Resolver

/-! Where isolation comes from. A rule takes an actor from what is written at the declaration itself or
hands down the domain of a dependency, and a dependency has its domain before it is handed down. So from
every isolated declaration a chain of dependencies leads to one that names the actor.
-/

set_option autoImplicit false

namespace ActorIsolation

/-- The isolation that a declaration has without looking at another: it names the actor, it is the
actor or an instance member of it, it stands in an extension that names the actor, or the program starts
here and the options name the actor for that. -/
inductive Declaration.Rooted (graph : Graph) (options : Options) (decl : Declaration) :
    Isolation → Prop where
  | named {actor : DeclId} : .globalActor actor ∈ decl.annotations →
      Rooted graph options decl ⟨.globalActor actor, .explicit⟩
  | parameter {name : String} {actor : DeclId} : .isolatedParameter name actor ∈ decl.annotations →
      Rooted graph options decl ⟨.actorInstance actor, .isolatedParameter⟩
  | globalActor : decl.kind = .type .actor → decl.isGlobalActor →
      Rooted graph options decl ⟨.globalActor decl.id, .actorType⟩
  | actor : decl.kind = .type .actor → ¬ decl.isGlobalActor →
      Rooted graph options decl ⟨.actorInstance decl.id, .actorType⟩
  | storage {owner : Declaration} : graph.InType decl owner → owner.isPlainActor →
      ¬ decl.isStatic → decl.kind = .storedProperty →
      Rooted graph options decl ⟨.actorInstance owner.id, .actorStorage⟩
  | member {owner : Declaration} : graph.InType decl owner → owner.isPlainActor →
      ¬ decl.isStatic → decl.kind = .function →
      Rooted graph options decl ⟨.actorInstance owner.id, .actorSelf⟩
  | extension {extension : Extension} {actor : DeclId} : decl.scope = .extension extension.id →
      extension ∈ graph.extensions → extension.globalActor = some actor →
      Rooted graph options decl ⟨.globalActor actor, .extension⟩
  | entryPoint {actor : DeclId} : Prescription.IsEntry decl → options.entryPointActor = some actor →
      Rooted graph options decl ⟨.globalActor actor, .entryPoint⟩

/-- An isolation that comes from a dependency: a closure has the domain of what is around it, and a
global actor may come from any. -/
inductive Declaration.HandedDown (answers : DeclId → Isolation) (decl : Declaration) :
    Isolation → Prop where
  | context {parent : DeclId} : decl.kind = .closure true → decl.enclosing = some parent →
      HandedDown answers decl ⟨(answers parent).domain, .closureContext⟩
  | globalActor {next actor : DeclId} {origin : Origin} : next ∈ decl.dependencies →
      (answers next).domain = .globalActor actor →
      HandedDown answers decl ⟨.globalActor actor, origin⟩

theorem Declaration.HandedDown.exists_dependency {answers : DeclId → Isolation} {decl : Declaration}
    {isolation : Isolation} (handed : decl.HandedDown answers isolation) :
    ∃ next ∈ decl.dependencies, (answers next).domain = isolation.domain := by
  cases handed with
  | context _ enclosing => exact ⟨_, Declaration.mem_dependencies.mpr (.inl enclosing), rfl⟩
  | globalActor depends domain => exact ⟨_, depends, domain⟩

/-! ### Rules -/

/-- An isolation, if it is one, that the declaration has of its own or from a dependency. -/
def Declaration.Supported (graph : Graph) (options : Options) (answers : DeclId → Isolation)
    (decl : Declaration) (isolation : Isolation) : Prop :=
  isolation.domain.isIsolated →
    decl.Rooted graph options isolation ∨ decl.HandedDown answers isolation

namespace Prescription

variable {graph : Graph} {options : Options} {answers : DeclId → Isolation} {decl : Declaration}

theorem supported_nonisolated (origin : Origin) :
    decl.Supported graph options answers (.nonisolated origin) :=
  fun isolated => absurd isolated Bool.false_ne_true

theorem supported_election {origin : Origin} {ids : Set DeclId}
    (asked : ∀ id ∈ ids, id ∈ decl.dependencies) :
    ∀ isolation ∈ election origin (actorsOf answers ids),
      decl.Supported graph options answers isolation := by
  rcases (actorsOf answers ids).subsingleton_or_nontrivial with few | several
  · rcases few.eq_empty_or_singleton with empty | ⟨actor, only⟩
    · simp [election_none empty]
    · rw [election_one only]
      rintro _ ⟨⟩ -
      obtain ⟨id, mem, domain⟩ : actor ∈ actorsOf answers ids := by simp [only]
      exact .inr (.globalActor (asked id mem) domain)
  · rw [election_several several]
    rintro _ ⟨⟩
    exact supported_nonisolated .ambiguous

theorem supported_written : ∀ isolation ∈ written decl,
    decl.Supported graph options answers isolation := by
  unfold written
  split
  · rintro _ ⟨⟩
    exact supported_nonisolated .conflict
  · intro isolation said
    obtain ⟨mark, first, rfl⟩ := Option.map_eq_some_iff.mp said
    have present := List.mem_of_mem_head? first
    cases mark with
    | nonisolated => exact supported_nonisolated .explicit
    | nonisolatedUnsafe => exact supported_nonisolated .explicit
    | globalActor actor => exact fun _ => .inl (.named present)
    | isolatedParameter name actor => exact fun _ => .inl (.parameter present)

theorem supported_surroundings {inherits : Bool} (kind : decl.kind = .closure inherits) :
    ∀ isolation ∈ surroundings answers decl inherits,
      decl.Supported graph options answers isolation := by
  intro isolation said _
  cases inherits with
  | false => cases said
  | true =>
    obtain ⟨parent, enclosing, rfl⟩ := Option.map_eq_some_iff.mp said
    exact .inr (.context kind enclosing)

theorem supported_actorness : ∀ isolation ∈ actorness decl,
    decl.Supported graph options answers isolation := by
  unfold actorness
  split
  · rename_i actor
    rintro _ ⟨⟩ -
    by_cases global : decl.isGlobalActor
    · rw [if_pos global]
      exact .inl (.globalActor actor global)
    · rw [if_neg global]
      exact .inl (.actor actor global)
  · rintro _ ⟨⟩

theorem supported_actorInstance (kind : decl.kind = .function ∨ decl.kind = .storedProperty) :
    ∀ isolation ∈ actorInstance graph decl, decl.Supported graph options answers isolation := by
  unfold actorInstance
  split
  · rename_i instanceMember
    obtain ⟨owner, owned, actor, ofInstance⟩ := instanceMember
    rw [owned.inside]
    rintro _ ⟨⟩ -
    rcases kind with function | stored
    · rw [if_neg (by simp [function])]
      exact .inl (.member owned actor ofInstance function)
    · rw [if_pos stored]
      exact .inl (.storage owned actor ofInstance stored)
  · rintro _ ⟨⟩

theorem supported_entry : ∀ isolation ∈ entry options decl,
    decl.Supported graph options answers isolation := by
  unfold entry
  split
  · rename_i starts
    intro isolation said _
    obtain ⟨actor, configured, rfl⟩ := Option.map_eq_some_iff.mp said
    exact .inl (.entryPoint starts configured)
  · rintro _ ⟨⟩

theorem supported_extensionActor : ∀ isolation ∈ extensionActor graph decl,
    decl.Supported graph options answers isolation := by
  unfold extensionActor
  split
  · rintro _ ⟨⟩
  · rename_i id scope
    intro isolation said _
    obtain ⟨actor, named, rfl⟩ := Option.map_eq_some_iff.mp said
    obtain ⟨extension, found, stated⟩ := Option.bind_eq_some_iff.mp named
    have same : extension.id = id := by simpa using List.find?_some found
    exact .inl (.extension (scope.trans (by rw [same])) (List.mem_of_find?_eq_some found) stated)

theorem supported_typeActor : ∀ isolation ∈ typeActor graph answers decl,
    decl.Supported graph options answers isolation := by
  unfold typeActor
  split
  · intro isolation said _
    obtain ⟨owner, inside, said⟩ := Option.bind_eq_some_iff.mp said
    obtain ⟨actor, domain, rfl⟩ := Option.map_eq_some_iff.mp said
    refine .inr (.globalActor (Declaration.mem_dependencies.mpr (.inl inside)) ?_)
    cases outer : (answers owner).domain <;> simp_all [Domain.globalActor?]
  · rintro _ ⟨⟩

theorem supported_opinions : ∀ opinion ∈ opinions graph options answers decl,
    ∀ isolation ∈ opinion, decl.Supported graph options answers isolation := by
  have allowed := @Declaration.mem_dependencies decl
  unfold opinions
  refine List.forall_mem_cons.mpr ⟨supported_written, ?_⟩
  cases kind : decl.kind with
  | closure inherits =>
    simp only [List.forall_mem_singleton]
    exact supported_surroundings kind
  | type own =>
    simp only [List.forall_mem_cons, List.not_mem_nil, false_imp_iff, implies_true, and_true]
    refine ⟨supported_actorness, supported_election ?_, supported_election ?_⟩
    · rintro id ⟨conformance, stated, -, rfl⟩
      exact allowed.mpr (.inr (.inr (.inr (.inl ⟨conformance, stated, rfl⟩))))
    · exact fun id mem => allowed.mpr (.inr (.inr (.inr (.inr mem))))
  | function | storedProperty =>
    simp only [List.forall_mem_cons, List.not_mem_nil, false_imp_iff, implies_true, and_true]
    refine ⟨supported_actorInstance (by simp [kind]), supported_entry, supported_extensionActor,
      supported_typeActor, supported_election ?_, supported_election ?_⟩
    · exact fun id mem => allowed.mpr (.inr (.inl mem.1))
    · exact fun id mem => allowed.mpr (.inr (.inr (.inl mem)))

end Prescription

theorem prescribed_supported (graph : Graph) (options : Options) (answers : DeclId → Isolation)
    (decl : Declaration) :
    decl.Supported graph options answers (decl.prescribed graph options answers) := by
  unfold Declaration.prescribed
  cases said : (Prescription.opinions graph options answers decl).findSome? fun opinion => opinion with
  | none => exact Prescription.supported_nonisolated .default
  | some isolation =>
    obtain ⟨opinion, mem, rfl⟩ := List.exists_of_findSome?_eq_some said
    exact Prescription.supported_opinions _ mem isolation rfl

/-! ### Chains -/

/-- A chain of declarations that a table gives this domain, each dependent on the next, up to one that
has it of its own. -/
inductive Traced (graph : Graph) (options : Options) (entries : IsolationTable) (domain : Domain) :
    List Declaration → Prop where
  | root {decl : Declaration} {isolation : Isolation} : decl ∈ graph.decls →
      (decl.id, isolation) ∈ entries → isolation.domain = domain →
      decl.Rooted graph options isolation → Traced graph options entries domain [decl]
  | step {decl next : Declaration} {isolation : Isolation} {rest : List Declaration} :
      decl ∈ graph.decls → (decl.id, isolation) ∈ entries → isolation.domain = domain →
      next.id ∈ decl.dependencies → Traced graph options entries domain (next :: rest) →
      Traced graph options entries domain (decl :: next :: rest)

def AllTraced (graph : Graph) (options : Options) (entries : IsolationTable) : Prop :=
  ∀ entry ∈ entries, entry.2.domain.isIsolated → ∃ decl rest,
    graph.decl? entry.1 = some decl ∧ Traced graph options entries entry.2.domain (decl :: rest)

section

variable {graph : Graph} {options : Options} {entries more settled : IsolationTable} {domain : Domain}
  {chain : List Declaration} {state : Solving} {id : DeclId}

theorem Traced.mono (traced : Traced graph options entries domain chain) (grows : entries ⊆ more) :
    Traced graph options more domain chain := by
  induction traced with
  | root declared known same rooted => exact .root declared (grows known) same rooted
  | step declared known same depends _ ih => exact .step declared (grows known) same depends ih

theorem AllTraced.cons {decl : Declaration} {isolation : Isolation}
    (traced : AllTraced graph options entries) (declared : decl ∈ graph.decls)
    (supported : isolation.domain.isIsolated → decl.Rooted graph options isolation ∨
      ∃ next ∈ decl.dependencies, ∃ before, (next, before) ∈ entries ∧
        before.domain = isolation.domain) :
    AllTraced graph options ((decl.id, isolation) :: entries) := by
  have found := Graph.decl?_of_mem declared
  refine List.forall_mem_cons.mpr ⟨fun isolated => ?_, fun entry mem isolated => ?_⟩
  · rcases supported isolated with rooted | ⟨next, depends, before, known, same⟩
    · exact ⟨decl, [], found, .root declared List.mem_cons_self rfl rooted⟩
    · rw [← same] at isolated
      obtain ⟨earlier, rest, named, chain⟩ := traced (next, before) known isolated
      rw [same] at chain
      obtain rfl : earlier.id = next := Graph.id_of_decl? named
      exact ⟨decl, earlier :: rest, found, .step declared List.mem_cons_self rfl depends
        (chain.mono (List.subset_cons_self _ _))⟩
  · obtain ⟨earlier, rest, named, chain⟩ := traced entry mem isolated
    exact ⟨earlier, rest, named, chain.mono (List.subset_cons_self _ _)⟩

theorem AllTraced.of_mem_iff (traced : AllTraced graph options entries)
    (same : ∀ entry, entry ∈ more ↔ entry ∈ entries) : AllTraced graph options more := by
  intro entry mem isolated
  obtain ⟨decl, rest, named, chain⟩ := traced entry ((same entry).mp mem) isolated
  exact ⟨decl, rest, named, chain.mono fun other => (same other).mpr⟩

/-! ### Looking up -/

theorem Solving.mem_of_known {isolation : Isolation} (known : state.known? settled id = some isolation) :
    (id, isolation) ∈ state.found ++ settled := by
  rcases Option.or_eq_some_iff.mp known with before | ⟨-, found⟩
  · exact List.mem_append_right _ (mem_of_lookup before)
  · exact List.mem_append_left _ (mem_of_lookup found)

/-- A look-up isolates a declaration by what it has of its own or by what is known already, so a chain
never leads back to where it started. -/
theorem lookUp_traced {path : List DeclId} (traced : AllTraced graph options (state.found ++ settled)) :
    AllTraced graph options
      ((lookUp graph options settled path id state).2.found ++ settled) := by
  refine @lookUp_keeps graph options settled path id state
    (fun state => AllTraced graph options (state.found ++ settled)) [] (fun _ _ traced => traced)
    (fun _ _ traced => traced) ?_ (List.nil_subset _) traced
  intro path id decl state _ _ found _ _ attempted after
  obtain ⟨isolation, -, entries, -, outcome⟩ := attempted.2.conclude_spec id attempted.1
  rw [entries, List.cons_append, ← Graph.id_of_decl? found]
  refine after.cons (Graph.mem_of_decl? found) fun isolated => ?_
  rcases outcome with ⟨rfl, -⟩ | ⟨ruling, ended, rfl⟩
  · exact absurd isolated Bool.false_ne_true
  · -- The ruling is what the rules prescribe if nothing but what is known is isolated.
    let answers (other : DeclId) : Isolation := (attempted.2.known? settled other).getD .fallback
    have agrees : attempted.2.Agrees settled answers := by
      intro other isolation known
      simp only [answers, known, Option.getD_some]
    rw [← consult_prescribed found ended agrees] at isolated ⊢
    refine (prescribed_supported graph options answers decl isolated).imp_right fun handed => ?_
    obtain ⟨next, depends, same⟩ := handed.exists_dependency
    rw [← same] at isolated
    cases known : attempted.2.known? settled next with
    | none => simp [answers, known, Isolation.fallback, Isolation.nonisolated,
        Domain.isIsolated] at isolated
    | some before =>
      simp only [answers, known, Option.getD_some] at same
      exact ⟨next, depends, before, Solving.mem_of_known known, same⟩

theorem settledBelow_traced (graph : Graph) (options : Options) (index : Nat) :
    AllTraced graph options (settledBelow graph options index) := by
  induction index with
  | zero => exact fun entry mem => absurd mem List.not_mem_nil
  | succ index ih =>
    rw [settledBelow, solveAt]
    split
    · exact @solveComponent_keeps graph options _
        (fun state => AllTraced graph options (state.found ++ settledBelow graph options index)) _ _
        (fun _ _ _ => lookUp_traced) (fun _ _ traced => traced) ih
    · exact ih

end

/-! ### The resolution of a graph -/

variable {graph : Graph} {options : Options}

theorem resolution_traced (graph : Graph) (options : Options) :
    AllTraced graph options (graph.resolution options).entries := by
  refine (settledBelow_traced graph options graph.plan.size).of_mem_iff fun entry => ?_
  rw [(entries_perm graph options).mem_iff, settledBelow_eq]
  simp [tableOf]

theorem isolation_of_mem {id : DeclId} {isolation : Isolation}
    (mem : (id, isolation) ∈ (graph.resolution options).entries) :
    (graph.resolution options).isolation id = isolation := by
  rw [Resolution.isolation, Resolution.get?, (lookup_iff_mem (keys_nodup graph options)).mpr mem,
    Option.getD_some]

theorem Traced.chain {domain : Domain} {chain : List Declaration}
    (traced : Traced graph options (graph.resolution options).entries domain chain) :
    let table := (graph.resolution options).isolation
    chain.IsChain (fun decl next => next.id ∈ decl.dependencies) ∧
      (∀ step ∈ chain, step ∈ graph.decls ∧ (table step.id).domain = domain) ∧
      ∃ root, chain.getLast? = some root ∧ root.Rooted graph options (table root.id) := by
  intro table
  induction traced with
  | @root decl isolation declared known same rooted =>
    have isolation : table decl.id = isolation := isolation_of_mem known
    refine ⟨.singleton decl, ?_, decl, rfl, by rwa [isolation]⟩
    exact List.forall_mem_singleton.mpr ⟨declared, by rw [isolation, same]⟩
  | @step decl next isolation rest declared known same depends _ ih =>
    obtain ⟨linked, inside, root, last, rooted⟩ := ih
    have isolation : table decl.id = isolation := isolation_of_mem known
    refine ⟨List.isChain_cons_cons.mpr ⟨depends, linked⟩, ?_, root, by rwa [List.getLast?_cons_cons],
      rooted⟩
    exact List.forall_mem_cons.mpr ⟨⟨declared, by rw [isolation, same]⟩, inside⟩

/-- No isolation justifies itself. From every declaration that is isolated a chain of dependencies leads,
through declarations of the same domain, to one that has it of its own. -/
theorem isolation_has_root {graph : Graph} {options : Options} {decl : Declaration}
    (declared : decl ∈ graph.decls)
    (isolated : ((Resolver.byLevels graph options).snapshot.isolation decl.id).domain.isIsolated) :
    let table := (Resolver.byLevels graph options).snapshot.isolation
    ∃ chain : List Declaration, chain.head? = some decl ∧
      chain.IsChain (fun decl next => next.id ∈ decl.dependencies) ∧
      (∀ step ∈ chain, step ∈ graph.decls ∧ (table step.id).domain = (table decl.id).domain) ∧
      ∃ root, chain.getLast? = some root ∧ root.Rooted graph options (table root.id) := by
  rw [Resolver.byLevels_snapshot] at isolated ⊢
  have found := Graph.decl?_of_mem declared
  obtain ⟨⟨_, isolation⟩, mem, rfl⟩ := List.mem_map.mp
    ((@mem_keys_resolution graph options decl.id).mpr (Option.isSome_of_eq_some found))
  rw [← isolation_of_mem mem] at mem
  obtain ⟨first, rest, named, traced⟩ := resolution_traced graph options _ mem isolated
  rw [found] at named
  cases named
  exact ⟨decl :: rest, rfl, traced.chain⟩

/-- Two classes that inherit from each other, one of which conforms to a protocol on the main actor. -/
def heirsOnMain : Graph where
  decls :=
    [{ id := ⟨0⟩, name := "Main", kind := .type .actor, isGlobalActor := true },
      { id := ⟨1⟩, name := "Drawable", kind := .type .protocol,
        annotations := [.globalActor ⟨0⟩] },
      { id := ⟨2⟩, name := "Panel", kind := .type .classType, supertypes := [⟨3⟩] },
      { id := ⟨3⟩, name := "Window", kind := .type .classType, supertypes := [⟨2⟩],
        conformances := [⟨⟨1⟩, .primary⟩] },
      { id := ⟨4⟩, name := "draw", kind := .function, enclosing := some ⟨2⟩ }]
  plan := _
  plan_eq := rfl
  decls_ascending := by decide
  extensions_ascending := Graph.noExtensions_ascending
  edges_ascending := Graph.noCalls_ascending
  sound := by decide +kernel

theorem heirsOnMain_has_root :
    let table := (Resolver.byLevels heirsOnMain {}).snapshot.isolation
    heirsOnMain.Entangled ⟨2⟩ ∧ table ⟨4⟩ = ⟨.globalActor ⟨0⟩, .enclosingType⟩ ∧
      ∃ decl ∈ heirsOnMain.decls, decl.id = ⟨4⟩ ∧ ∃ chain : List Declaration,
        chain.head? = some decl ∧ chain.IsChain (fun decl next => next.id ∈ decl.dependencies) ∧
        (∀ step ∈ chain, step ∈ heirsOnMain.decls ∧
          (table step.id).domain = (table decl.id).domain) ∧
        ∃ root, chain.getLast? = some root ∧ root.Rooted heirsOnMain {} (table root.id) := by
  intro table
  have there : heirsOnMain.Depends ⟨2⟩ ⟨3⟩ := ⟨_, rfl, by decide⟩
  have back : heirsOnMain.Depends ⟨3⟩ ⟨2⟩ := ⟨_, rfl, by decide⟩
  have isolation : (Resolver.byLevels heirsOnMain {}).snapshot.isolation ⟨4⟩ =
      ⟨.globalActor ⟨0⟩, .enclosingType⟩ := by decide +kernel
  have declared : heirsOnMain.decls.getLast (by decide) ∈ heirsOnMain.decls := List.getLast_mem _
  refine ⟨.tail (.single there) back, isolation, _, declared, rfl, ?_⟩
  exact isolation_has_root declared (congrArg (·.domain.isIsolated) isolation)

end ActorIsolation
