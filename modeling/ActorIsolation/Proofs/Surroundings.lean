import ActorIsolation.Proofs.Mentions

/-! A graph is closed: nothing outside of it is ever looked at. So it can be put into a larger graph, where
ids that it does not know are declared as anything at all, and the examination of its own declarations and
calls goes the same way, question by question. Every one of these questions is about a declaration of the
graph itself.
-/

set_option autoImplicit false

namespace ActorIsolation

/-- A graph within a larger one, in which nothing further is directly inside its declarations. -/
structure Graph.PartOf (graph whole : Graph) : Prop where
  decls : graph.decls ⊆ whole.decls
  extensions : graph.extensions ⊆ whole.extensions
  edges : graph.edges ⊆ whole.edges
  closed : ∀ decl ∈ whole.decls, ∀ parent, decl.enclosing = some parent → graph.Declares parent →
    decl ∈ graph.decls

theorem Graph.PartOf.refl (graph : Graph) : graph.PartOf graph :=
  ⟨List.Subset.refl _, List.Subset.refl _, List.Subset.refl _, fun _ declared _ _ _ => declared⟩

/-! ### What is looked up -/

namespace Graph.PartOf

variable {graph whole : Graph} {options : Options} {id : DeclId} {decl : Declaration} {edge : CallEdge}
  (part : graph.PartOf whole)

include part

theorem decl? (declared : graph.Declares id) : whole.decl? id = graph.decl? id := by
  obtain ⟨decl, declared, rfl⟩ := declared
  rw [decl?_of_mem declared, decl?_of_mem (part.decls declared)]

theorem extension? {extension : ExtensionId} (known : graph.Extends extension) :
    whole.extension? extension = graph.extension? extension := by
  obtain ⟨found, listed, rfl⟩ := known
  rw [Draft.extension?, Draft.extension?,
    (find?_key_eq_some graph.wellFormed.extensions_distinct).mpr ⟨listed, rfl⟩,
    (find?_key_eq_some whole.wellFormed.extensions_distinct).mpr ⟨part.extensions listed, rfl⟩]

theorem edge? {call : EdgeId} (known : ∃ edge ∈ graph.edges, edge.id = call) :
    whole.edges.find? (·.id = call) = graph.edges.find? (·.id = call) := by
  obtain ⟨edge, listed, rfl⟩ := known
  rw [(find?_key_eq_some graph.wellFormed.edges_distinct).mpr ⟨listed, rfl⟩,
    (find?_key_eq_some whole.wellFormed.edges_distinct).mpr ⟨part.edges listed, rfl⟩]

theorem members (declared : graph.Declares id) : whole.members id = graph.members id := by
  have ascends (graph : Graph) : (graph.members id).Pairwise fun left right =>
      left.id.number < right.id.number := graph.decls_ascending.sublist List.filter_sublist
  have distinct (graph : Graph) : (graph.members id).Nodup :=
    (Declaration.ids_nodup (ascends graph)).of_map
  -- Both lists ascend, so it is enough that they have the same elements.
  refine List.Perm.eq_of_pairwise (fun left right _ _ less more => ?_) (ascends whole) (ascends graph)
    ((List.perm_ext_iff_of_nodup (distinct whole) (distinct graph)).mpr fun member => ?_)
  · omega
  · simp only [Graph.members, List.mem_filter, decide_eq_true_eq]
    refine and_congr_left fun inside => ⟨fun there => ?_, fun here => part.decls here⟩
    exact part.closed member there id inside declared

theorem storedFields (declared : graph.Declares id) :
    whole.storedFields id = graph.storedFields id := by
  rw [Graph.storedFields, Graph.storedFields, part.members declared]

theorem initializers (declared : graph.Declares id) :
    whole.initializers id = graph.initializers id := by
  rw [Graph.initializers, Graph.initializers, part.members declared]

theorem enclosing (declared : decl ∈ graph.decls) :
    decl.enclosing.bind whole.decl? = decl.enclosing.bind graph.decl? := by
  cases inside : decl.enclosing with
  | none => rfl
  | some parent => exact part.decl? (referred_declared declared (.enclosing inside))

theorem enclosingType? (declared : decl ∈ graph.decls) :
    whole.enclosingType? decl = graph.enclosingType? decl := by
  rw [Graph.enclosingType?, Graph.enclosingType?, part.enclosing declared]

theorem chain (declared : graph.Declares id) : whole.chain id = graph.chain id := by
  obtain ⟨decl, found⟩ := Option.isSome_iff_exists.mp (Draft.decl?_isSome.mpr declared)
  -- The way outward ends inside of the graph, so the larger graph has nothing to add to it.
  refine Draft.outward_extend graph.decls id (fun other decl found => ?_) ?_
    fun last ends => chain_ends ends
  · exact (part.decl? (declares_of_decl? found)).trans found
  · simp [Draft.outward_eq_cons found]

theorem binding? (declared : graph.Declares id) : whole.binding? id = graph.binding? id := by
  rw [Graph.binding?, Graph.binding?, part.chain declared]

theorem sameClosure (declared : graph.Declares id) : graph.SameClosure whole id where
  decls next reaches := part.decl? (Draft.decl?_isSome.mp
    ((graph.closureOf [] (Draft.decl?_isSome.mpr declared)).declared next reaches))
  extensions _ decl extension _ found scope := part.extension?
    (graph.wellFormed.extended decl (mem_of_decl? found) extension (.member scope))

theorem isolation (declared : graph.Declares id) :
    (whole.resolution options).get? id = (graph.resolution options).get? id :=
  get?_resolution_congr (part.sameClosure declared)

/-! ### Calls -/

variable (listed : edge ∈ graph.edges)

include listed

theorem transferred : Boundary.transferred whole edge = Boundary.transferred graph edge := by
  simp only [Boundary.transferred, Boundary.resultType?, Graph.nameOf,
    part.decl? (call_declares listed .callee)]

theorem crosses (source target : Domain) :
    whole.crosses edge source target = graph.crosses edge source target := by
  simp only [Graph.crosses, Graph.isAsync, Graph.isSameActorValue, Graph.calleeBinding?,
    part.decl? (call_declares listed .callee), part.binding? (call_declares listed .callee),
    part.binding? (call_declares listed .caller)]

theorem edgeViolation (source target : Domain) (category : Category) (value : Option ValueRef) :
    Boundary.edgeViolation whole options edge source target category value =
      Boundary.edgeViolation graph options edge source target category value := by
  simp only [Boundary.edgeViolation, Graph.spanOf?, part.decl? (call_declares listed .caller)]

end Graph.PartOf

/-! ### Analyses that stay within the graph -/

/-- The two analyses are the same, and all their questions are about declarations of the graph. -/
structure Analysis.Grounded (graph : Graph) {α : Type} (analysis other : Analysis α) : Prop where
  same : analysis = other
  asks : ∀ ledger, (StateT.run other ledger).AsksOnly graph.Declares

namespace Analysis.Grounded

variable {graph : Graph} {α β γ : Type} {analysis other : Analysis α}

theorem pure (value : α) : Grounded graph (Pure.pure value) (Pure.pure value) :=
  ⟨rfl, fun _ => trivial⟩

theorem bind {next following : α → Analysis β} (first : Grounded graph analysis other)
    (rest : ∀ value, Grounded graph (next value) (following value)) :
    Grounded graph (analysis >>= next) (other >>= following) where
  same := by
    rw [first.same]
    exact bind_congr fun value => (rest value).same
  asks ledger := by
    rw [StateT.run_bind]
    exact (first.asks ledger).bind fun result => (rest result.1).asks result.2

theorem domain {id : DeclId} (declared : graph.Declares id) :
    Grounded graph (Analysis.domain id) (Analysis.domain id) :=
  ⟨rfl, fun _ => ⟨declared, fun _ => trivial⟩⟩

theorem get : Grounded graph (MonadState.get : Analysis Ledger) MonadState.get :=
  ⟨rfl, fun _ => trivial⟩

theorem modify (change : Ledger → Ledger) :
    Grounded graph (modifyThe Ledger change : Analysis PUnit) (modifyThe Ledger change) :=
  ⟨rfl, fun _ => trivial⟩

theorem report (event : Event) : Grounded graph (Analysis.report event) (Analysis.report event) :=
  ⟨rfl, fun _ => trivial⟩

theorem audit (record : AuditRecord) :
    Grounded graph (Analysis.audit record) (Analysis.audit record) := by
  refine get.bind fun ledger => ?_
  split
  · exact .pure _
  · exact (report _).bind fun _ => ⟨rfl, fun _ => trivial⟩

theorem auditAll (records : List AuditRecord) :
    Grounded graph (Analysis.auditAll records) (Analysis.auditAll records) := by
  induction records with
  | nil => exact .pure ()
  | cons record rest ih => exact (audit record).bind fun _ => ih

theorem tracked (query : Query) (finding : α → Finding) (work : Grounded graph analysis other) :
    Grounded graph (Analysis.tracked query finding analysis) (Analysis.tracked query finding other) :=
  (report _).bind fun _ => work.bind fun value => (report _).bind fun _ => .pure value

theorem forEach {work task : γ → Analysis (List β)} {items : List γ}
    (each : ∀ item ∈ items, Grounded graph (work item) (task item)) :
    Grounded graph (Analysis.forEach work items) (Analysis.forEach task items) := by
  induction items with
  | nil => exact .pure []
  | cons item rest ih =>
    obtain ⟨first, others⟩ := List.forall_mem_cons.mp each
    exact first.bind fun _ => (ih others).bind fun _ => .pure _

end Analysis.Grounded

open Analysis (Grounded)

/-! ### The walk -/

def Graph.Spells (graph : Graph) (type : TypeRef) : Prop := ∀ id ∈ type.nominals, graph.Declares id

namespace Walk

variable {graph whole : Graph} {options : Options} {decl field : Declaration} {type : TypeRef}
  {visit enter : DeclId → Analysis Outcome}

theorem byRule_grounded (declared : decl ∈ graph.decls) : Grounded graph (byRule decl) (byRule decl) := by
  unfold byRule
  split
  · exact .pure _
  · exact .pure _
  · exact (Grounded.domain (Graph.declares_of_mem declared)).bind fun _ => .pure _

theorem uncheckedAssertions_grounded (part : graph.PartOf whole) (spelled : graph.Spells type) :
    Grounded graph (uncheckedAssertions whole type) (uncheckedAssertions graph type) := by
  have rests {id : DeclId} (declared : graph.Declares id) :
      Grounded graph (restsOnWord whole id) (restsOnWord graph id) := by
    unfold restsOnWord
    rw [part.decl? declared]
    split
    · exact .pure _
    · rename_i found
      exact (byRule_grounded (Graph.mem_of_decl? found)).bind fun _ => .pure _
  refine (Grounded.forEach fun id mentioned => ?_).bind fun _ => .pure _
  exact (rests (spelled id mentioned)).bind fun _ => .pure _

theorem isGuarded_grounded (kind : TypeKind) (declared : field ∈ graph.decls) :
    Grounded graph (isGuarded kind field) (isGuarded kind field) := by
  unfold isGuarded
  split
  · exact (Grounded.domain (Graph.declares_of_mem declared)).bind fun _ => .pure _
  · exact .pure _

theorem typeOutcome_grounded (spelled : graph.Spells type)
    (visits : ∀ id, graph.Declares id → Grounded graph (visit id) (enter id)) :
    Grounded graph (typeOutcome visit type) (typeOutcome enter type) := by
  have parts : ∀ parts : List TypeRef.Part, (∀ id, .nominal id ∈ parts → graph.Declares id) →
      Grounded graph (partsOutcome visit parts) (partsOutcome enter parts) := by
    intro parts
    induction parts with
    | nil => exact fun _ => .pure _
    | cons part rest ih =>
      intro declared
      have first : Grounded graph (partOutcome visit part) (partOutcome enter part) := by
        cases part with
        | plain verdict => exact .pure _
        | nominal id => exact visits id (declared id List.mem_cons_self)
      refine first.bind fun _ => (ih fun id mem => ?_).bind fun _ => .pure _
      exact declared id (List.mem_cons_of_mem _ mem)
  exact parts type.parts fun id mem => spelled id (((TypeRef.parts_list type).nominal id).mp mem)

theorem acceptByWord_grounded (part : graph.PartOf whole) (owner field : DeclId)
    (spelled : graph.Spells type) (outcome : Outcome) :
    Grounded graph (acceptByWord whole owner field type outcome)
      (acceptByWord graph owner field type outcome) := by
  unfold acceptByWord
  split
  · exact (uncheckedAssertions_grounded part spelled).bind fun _ => .pure _
  · exact .pure _

theorem fieldOutcome_grounded (part : graph.PartOf whole) (owner : DeclId) (kind : TypeKind)
    (declared : field ∈ graph.decls)
    (visits : ∀ id, graph.Declares id → Grounded graph (visit id) (enter id)) :
    Grounded graph (fieldOutcome whole visit owner kind field)
      (fieldOutcome graph enter owner kind field) := by
  unfold fieldOutcome
  refine (isGuarded_grounded kind declared).bind fun guarded => ?_
  split
  · exact .pure _
  · split
    · exact .pure _
    · cases typed : field.type with
      | none => exact .pure _
      | some type =>
        have spelled : graph.Spells type := fun id => Graph.nominal_declared declared typed
        refine (typeOutcome_grounded spelled visits).bind fun outcome => ?_
        exact (acceptByWord_grounded part owner field.id spelled outcome).bind fun _ => .pure _

theorem fieldsOutcome_grounded (part : graph.PartOf whole) (owner : DeclId) (kind : TypeKind)
    (visits : ∀ id, graph.Declares id → Grounded graph (visit id) (enter id))
    (fields : List Declaration) (declared : ∀ field ∈ fields, field ∈ graph.decls) (outcome : Outcome) :
    Grounded graph (fieldsOutcome whole visit owner kind fields outcome)
      (fieldsOutcome graph enter owner kind fields outcome) := by
  induction fields generalizing outcome with
  | nil => exact .pure _
  | cons field rest ih =>
    obtain ⟨first, others⟩ := List.forall_mem_cons.mp declared
    unfold fieldsOutcome
    refine (fieldOutcome_grounded part owner kind first visits).bind fun next => ?_
    cases next with
    | none => exact ih others outcome
    | some next =>
      dsimp only
      split
      · exact .pure _
      · exact ih others _

theorem declOutcome_grounded (part : graph.PartOf whole) (declared : decl ∈ graph.decls) (site : ModuleId)
    (visits : ∀ id, graph.Declares id → Grounded graph (visit id) (enter id)) :
    Grounded graph (declOutcome whole options visit decl site)
      (declOutcome graph options enter decl site) := by
  unfold declOutcome
  cases decl.typeKind? with
  | none => exact .pure _
  | some kind =>
    refine (byRule_grounded declared).bind fun ruled => ?_
    cases ruled with
    | some verdict => exact .pure _
    | none =>
      dsimp only
      split
      · exact .pure _
      · rw [part.storedFields (Graph.declares_of_mem declared)]
        exact fieldsOutcome_grounded part decl.id kind visits _ 
          (fun _ listed => (Graph.mem_storedFields.mp listed).declared) _

theorem conclude_grounded (depth : Nat) (key : UseSite) (outcome : Outcome) :
    Grounded graph (conclude depth key outcome) (conclude depth key outcome) := by
  unfold conclude
  split
  · refine (Grounded.modify _).bind fun _ => ?_
    split
    · exact (Grounded.auditAll _).bind fun _ => .pure _
    · exact .pure _
  · exact .pure _

theorem tracked_grounded (path : List UseSite) (key : UseSite) {work task : Analysis Outcome}
    (grounded : Grounded graph work task) :
    Grounded graph (tracked path key work) (tracked path key task) := by
  unfold tracked
  split
  · exact grounded.tracked _ _
  · exact grounded

theorem evaluate_eq {path : List UseSite} {key : UseSite}
    (inside : path ≠ [] → key.site ∈ homes graph options) (found : graph.decl? key.decl = some decl) :
    evaluate graph options path key inside = (do
      let ledger ← get
      match ledger.verdict? key, depthOf? key path with
      | some verdict, _ => return .settled verdict
      | none, some depth => return { verdict := .sendable, leansOn := some depth }
      | none, none =>
        tracked path key do
          let outcome ← declOutcome graph options
            (fun id => evaluate graph options (key :: path) ⟨id, options.moduleOf decl.id⟩
              fun _ => home_mem graph options found)
            decl key.site
          conclude path.length key outcome) := by
  rw [evaluate]
  refine bind_congr fun ledger => ?_
  -- The recursion needs the equation of the lookup, which is why it is split and not rewritten.
  cases ledger.verdict? key with
  | some verdict => rfl
  | none =>
    dsimp only
    split
    · rename_i depth fresh
      simp only [fresh]
    · rename_i fresh
      simp only [fresh]
      split
      · rename_i absent
        cases absent.symm.trans found
      · rename_i known
        cases known.symm.trans found
        rfl

theorem evaluate_grounded (part : graph.PartOf whole) (path : List UseSite) (key : UseSite)
    (inside : path ≠ [] → key.site ∈ homes graph options)
    (insideWhole : path ≠ [] → key.site ∈ homes whole options) (declared : graph.Declares key.decl) :
    Grounded graph (evaluate whole options path key insideWhole)
      (evaluate graph options path key inside) := by
  -- By induction on the room left in the smaller graph: the path stays within it.
  induction measure : roomFor graph options path using Nat.strongRecOn generalizing path key with
  | ind _ ih =>
    subst measure
    obtain ⟨decl, found⟩ := Option.isSome_iff_exists.mp (Draft.decl?_isSome.mpr declared)
    rw [evaluate_eq inside found, evaluate_eq insideWhole ((part.decl? declared).trans found)]
    refine Grounded.get.bind fun ledger => ?_
    cases ledger.verdict? key with
    | some verdict => exact .pure _
    | none =>
      cases fresh : depthOf? key path with
      | some depth => exact .pure _
      | none =>
        refine tracked_grounded path key ?_
        refine (declOutcome_grounded part (Graph.mem_of_decl? found) key.site fun id known => ?_).bind
          fun outcome => conclude_grounded _ _ outcome
        exact ih _ (roomFor_cons_lt graph options inside (depthOf?_eq_none fresh) found) (key :: path)
          ⟨id, options.moduleOf decl.id⟩ _ _ known rfl

end Walk

section

variable {graph whole : Graph} {options : Options} {decl : Declaration} {edge : CallEdge}
  (part : graph.PartOf whole)

include part

theorem sendabilityFrom_grounded {type : TypeRef} (spelled : graph.Spells type) (site : ModuleId) :
    Grounded graph (sendabilityFrom whole options type site) (sendabilityFrom graph options type site) :=
  (Walk.typeOutcome_grounded spelled fun id declared =>
    Walk.evaluate_grounded part [] ⟨id, site⟩ _ _ declared).bind fun _ => .pure _

/-! ### Assertions -/

theorem declIssues_grounded (declared : decl ∈ graph.decls) :
    Grounded graph (Conformance.declIssues whole options decl)
      (Conformance.declIssues graph options decl) := by
  have isolated (kind : TypeKind) : Grounded graph (Conformance.isIsolatedType kind decl)
      (Conformance.isIsolatedType kind decl) := by
    unfold Conformance.isIsolatedType
    split
    · exact .pure _
    · exact (Grounded.domain (Graph.declares_of_mem declared)).bind fun _ => .pure _
  have fields (kind : TypeKind) {field : Declaration} (stored : field ∈ graph.decls) :
      Grounded graph (Conformance.fieldIssues whole options decl.id kind field)
        (Conformance.fieldIssues graph options decl.id kind field) := by
    unfold Conformance.fieldIssues
    refine (Walk.isGuarded_grounded kind stored).bind fun guarded => ?_
    split
    · exact .pure _
    · refine Grounded.bind ?_ fun _ => .pure _
      unfold Conformance.fieldSendability
      cases typed : field.type with
      | none => exact .pure _
      | some type =>
        exact sendabilityFrom_grounded part (fun id => Graph.nominal_declared stored typed) _
  unfold Conformance.declIssues
  rw [part.storedFields (Graph.declares_of_mem declared)]
  split
  · refine (isolated _).bind fun isolated => ?_
    split
    · exact .pure _
    · refine Grounded.bind (.forEach fun field listed => ?_) fun _ => .pure _
      exact fields _ (Graph.mem_storedFields.mp listed).declared
  · exact .pure _

/-! ### Declarations and calls -/

open Boundary

theorem isShared_grounded (declared : decl ∈ graph.decls) :
    Grounded graph (isShared whole decl) (isShared graph decl) := by
  unfold isShared isIsolatedStorage
  rw [part.enclosingType? declared]
  split
  · exact .pure _
  · split
    · exact .pure _
    · rename_i owner inside
      split
      · exact .pure _
      · have known := Graph.declares_of_mem (Graph.enclosingType?_eq_some.mp inside).declared
        exact (Grounded.domain known).bind fun _ => .pure _

theorem mutableViolations_grounded (declared : decl ∈ graph.decls) :
    Grounded graph (mutableViolations whole options decl) (mutableViolations graph options decl) := by
  have state (domain : Domain) : Grounded graph (sharedStateViolations whole options decl domain)
      (sharedStateViolations graph options decl domain) := by
    unfold sharedStateViolations
    split
    · exact (Grounded.audit _).bind fun _ => .pure _
    · cases typed : decl.type with
      | none => exact .pure _
      | some type =>
        have spelled : graph.Spells type := fun id => Graph.nominal_declared declared typed
        refine (sendabilityFrom_grounded part spelled _).bind fun verdict => ?_
        cases verdict with
        | sendable => exact .pure _
        | notSendable => exact .pure _
        | uncheckedSendable =>
          refine (Walk.uncheckedAssertions_grounded part spelled).bind fun asserted => ?_
          exact (Grounded.auditAll _).bind fun _ => .pure _
  unfold mutableViolations
  split
  · refine (Grounded.domain (Graph.declares_of_mem declared)).bind fun domain => ?_
    split
    · exact .pure _
    · refine (isShared_grounded part declared).bind fun shared => ?_
      split
      · exact state domain
      · exact .pure _
  · exact .pure _

theorem isExempt_grounded (declared : decl ∈ graph.decls) (witness : Domain) :
    Grounded graph (isExempt whole decl witness) (isExempt graph decl witness) := by
  unfold isExempt
  rw [part.enclosing declared]
  split
  · exact .pure _
  · split
    · exact .pure _
    · rename_i container inside
      obtain ⟨parent, -, found⟩ := Option.bind_eq_some_iff.mp inside
      split
      · exact .pure _
      · exact (Grounded.domain (Graph.declares_of_mem (Graph.mem_of_decl? found))).bind
          fun _ => .pure _

theorem declContractViolations_grounded (declared : decl ∈ graph.decls) :
    Grounded graph (declContractViolations whole options decl)
      (declContractViolations graph options decl) := by
  have targets (witness : Domain) {id : DeclId} (known : graph.Declares id) :
      Grounded graph (targetViolations whole options decl witness id)
        (targetViolations graph options decl witness id) := by
    unfold targetViolations
    rw [part.decl? known]
    cases found : graph.decl? id with
    | none => exact .pure _
    | some target =>
      refine (Grounded.domain known).bind fun expected => ?_
      split
      · exact .pure _
      · refine (isExempt_grounded part (Graph.mem_of_decl? found) witness).bind fun exempt => ?_
        split
        · exact .pure _
        · exact .pure _
  unfold declContractViolations
  split
  · exact .pure _
  · refine (Grounded.domain (Graph.declares_of_mem declared)).bind fun witness => ?_
    split
    · refine .forEach fun id listed => targets witness ?_
      rcases List.mem_append.mp listed with required | overridden
      · exact Graph.referred_declared declared (.requirement required)
      · exact Graph.referred_declared declared (.overridden overridden)
    · exact .pure _

theorem initContexts_grounded (declared : decl ∈ graph.decls) :
    Grounded graph (initContexts whole decl) (initContexts graph decl) := by
  have own := Grounded.domain (Graph.declares_of_mem declared)
  unfold initContexts
  rw [part.initializers (Graph.declares_of_mem declared)]
  cases starts : graph.initializers decl.id with
  | nil =>
    refine (own.bind fun domain => ?_).bind fun _ => .pure _
    split
    · exact .pure _
    · exact .pure _
  | cons first rest =>
    refine (Grounded.forEach fun initializer listed => ?_).bind fun _ => .pure _
    rw [← starts] at listed
    have inside : initializer ∈ graph.decls := (List.mem_filter.mp (List.mem_filter.mp listed).1).1
    exact (Grounded.domain (Graph.declares_of_mem inside)).bind fun _ => .pure _

theorem declDefaultViolations_grounded (declared : decl ∈ graph.decls) :
    Grounded graph (declDefaultViolations whole options decl)
      (declDefaultViolations graph options decl) := by
  unfold declDefaultViolations
  rw [part.enclosingType? declared]
  split
  · split
    · rename_i value owner given inside
      have ownerDeclared := (Graph.enclosingType?_eq_some.mp inside).declared
      refine (initContexts_grounded part ownerDeclared).bind fun contexts => ?_
      refine .forEach fun reference listed => ?_
      have known := Graph.referred_declared declared (.defaultReference given listed)
      refine (Grounded.domain known).bind fun needed => ?_
      split
      · split
        · exact .pure _
        · exact .pure _
      · exact .pure _
    · exact .pure _
  · exact .pure _

theorem edgeViolations_grounded (listed : edge ∈ graph.edges) :
    Grounded graph (edgeViolations whole options edge) (edgeViolations graph options edge) := by
  have values (source target : Domain) {value : ValueRef} (handed : value ∈ transferred graph edge) :
      Grounded graph (valueViolations whole options edge source target value)
        (valueViolations graph options edge source target value) := by
    have spelled : graph.Spells value.type := fun id => Pass.transferred_declared listed handed
    refine (sendabilityFrom_grounded part spelled _).bind fun verdict => ?_
    cases verdict with
    | sendable => exact .pure _
    | notSendable =>
      rw [part.edgeViolation listed]
      exact .pure _
    | uncheckedSendable =>
      refine (Walk.uncheckedAssertions_grounded part spelled).bind fun asserted => ?_
      exact (Grounded.auditAll _).bind fun _ => .pure _
  refine Grounded.tracked _ _ ?_
  unfold crossingViolations
  refine (Grounded.domain (Graph.call_declares listed .caller)).bind fun source => ?_
  refine (Grounded.domain (Graph.call_declares listed .callee)).bind fun target => ?_
  rw [part.crosses listed, part.transferred listed, part.edgeViolation listed]
  split
  · refine (Grounded.forEach fun value handed => ?_).bind fun _ => .pure _
    exact values source target handed
  · exact .pure _

end

/-! ### The examination -/

open Boundary

def Pass.examinationIn (whole graph : Graph) (options : Options) :
    Analysis (List SendableIssue × List Violation) := do
  let issues ← (do
    let issues ← Analysis.forEach (Conformance.declIssues whole options) graph.decls
    return sorted issues)
  let violations ← (do
    let atDecls ← Analysis.tracked ⟨.declarationScan, graph.decls.length⟩ foundAny (do
      let shared ← Analysis.forEach (mutableViolations whole options) graph.decls
      let contracts ← Analysis.forEach (declContractViolations whole options) graph.decls
      let defaults ← Analysis.forEach (declDefaultViolations whole options) graph.decls
      return shared ++ contracts ++ defaults)
    let atEdges ← Analysis.forEach (edgeViolations whole options) graph.edges
    return Violation.sort (atDecls ++ atEdges))
  return (issues, violations)

theorem Pass.examination_grounded {graph whole : Graph} (part : graph.PartOf whole) (options : Options) :
    Grounded graph (examinationIn whole graph options) (examination graph options) := by
  refine Grounded.bind (.bind (.forEach fun decl declared => ?_) fun _ => .pure _) fun issues => ?_
  · exact declIssues_grounded part declared
  · refine Grounded.bind (.bind (.tracked _ _ ?_) fun atDecls => ?_) fun _ => .pure _
    · refine .bind (.forEach fun decl => mutableViolations_grounded part) fun shared => ?_
      refine .bind (.forEach fun decl => declContractViolations_grounded part) fun contracts => ?_
      exact .bind (.forEach fun decl => declDefaultViolations_grounded part) fun _ => .pure _
    · exact .bind (.forEach fun edge => edgeViolations_grounded part) fun _ => .pure _

end ActorIsolation
