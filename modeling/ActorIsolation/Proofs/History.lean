import ActorIsolation.Checker
import ActorIsolation.Proofs.Composition
import ActorIsolation.Proofs.Resolver
import ActorIsolation.Proofs.Walk

/-! Verdicts do not depend on what was asked before. Whatever calls an analyzer has answered, its
ledger holds right verdicts only, so the next verdict is the one that the acceptable use sites give.
-/

set_option autoImplicit false

namespace ActorIsolation

/-- What an analyzer can be asked for. Call edges need not be those of the graph. -/
inductive AnalyzerCall where
  | sendability (type : TypeRef) (site : ModuleId)
  | declSendability (decl : DeclId) (site : ModuleId)
  | uncheckedAssertions (type : TypeRef)
  | audit (record : AuditRecord)
  | conformances
  | sharedMutable
  | contracts
  | defaults
  | scan
  | callEdge (edge : CallEdge)
  | violations

namespace AnalyzerCall

variable (graph : Graph) (options : Options)

def analysis : AnalyzerCall → Analysis Unit
  | .sendability type site => discard (sendabilityFrom graph options type site)
  | .declSendability decl site => discard (sendabilityFrom graph options (.nominal decl) site)
  | .uncheckedAssertions type => discard (Walk.uncheckedAssertions graph type)
  | .audit record => Analysis.audit record
  | .conformances => discard (conformanceIssues graph options)
  | .sharedMutable => discard (Boundary.sharedMutableViolations graph options)
  | .contracts => discard (Boundary.contractViolations graph options)
  | .defaults => discard (Boundary.defaultViolations graph options)
  | .scan => discard (Boundary.scan graph options)
  | .callEdge edge => discard (Boundary.edgeViolations graph options edge)
  | .violations => discard (Boundary.violations graph options)

def asks : AnalyzerCall → List (TypeRef × ModuleId)
  | .sendability type site => [(type, site)]
  | .declSendability decl site => [(.nominal decl, site)]
  | .conformances => graph.decls.flatMap fun decl => (graph.storedFields decl.id).flatMap fun field =>
      field.type.toList.map (·, options.moduleOf decl.id)
  | .sharedMutable => declared
  | .scan => declared
  | .callEdge edge => handedOver edge
  | .violations => declared ++ graph.edges.flatMap handedOver
  | .uncheckedAssertions _ => []
  | .audit _ => []
  | .contracts => []
  | .defaults => []
where
  declared : List (TypeRef × ModuleId) :=
    graph.decls.flatMap fun decl => decl.type.toList.map (·, options.moduleOf decl.id)
  handedOver (edge : CallEdge) : List (TypeRef × ModuleId) :=
    (Boundary.transferred graph edge).map fun value => (value.type, options.moduleOf edge.caller)

def perform (session : Session) (call : AnalyzerCall) : Session :=
  (session.run graph options (call.analysis graph options)).2

end AnalyzerCall

theorem Composable.call {graph : Graph} {options : Options}
    {holds : (α : Type) → Analysis α → Prop} (composable : Composable holds) (call : AnalyzerCall)
    (verdicts : ∀ asked ∈ call.asks graph options,
      holds _ (sendabilityFrom graph options asked.1 asked.2)) :
    holds _ (call.analysis graph options) := by
  have discard {α : Type} {analysis : Analysis α} (whole : holds α analysis) :
      holds Unit (discard analysis) :=
    composable.bind whole fun _ => composable.pure ()
  have scan (asked : AnalyzerCall.asks.declared graph options ⊆ call.asks graph options) :
      ∀ decl ∈ graph.decls, ∀ type, decl.type = some type →
        holds _ (sendabilityFrom graph options type (options.moduleOf decl.id)) := by
    intro decl declared type typed
    refine verdicts (type, options.moduleOf decl.id) (asked (List.mem_flatMap.mpr ⟨decl, declared, ?_⟩))
    simp [typed]
  have edges {edge : CallEdge}
      (asked : AnalyzerCall.asks.handedOver graph options edge ⊆ call.asks graph options) :
      holds _ (Boundary.edgeViolations graph options edge) :=
    composable.callEdge fun value handed =>
      verdicts (value.type, options.moduleOf edge.caller) (asked (List.mem_map.mpr ⟨value, handed, rfl⟩))
  cases call with
  | sendability type site => exact discard (verdicts (type, site) (List.mem_singleton_self _))
  | declSendability decl site =>
    exact discard (verdicts (.nominal decl, site) (List.mem_singleton_self _))
  | uncheckedAssertions type => exact discard (composable.uncheckedAssertions type)
  | audit record => exact composable.audit record
  | conformances =>
    refine discard (composable.conformances fun decl declared field listed type typed => ?_)
    refine verdicts (type, options.moduleOf decl.id) (List.mem_flatMap.mpr ⟨decl, declared, ?_⟩)
    exact List.mem_flatMap.mpr ⟨field, listed, by simp [typed]⟩
  | sharedMutable => exact discard (composable.sharedMutable (scan (List.Subset.refl _)))
  | contracts => exact discard composable.contracts
  | defaults => exact discard composable.defaults
  | scan => exact discard (composable.scan (scan (List.Subset.refl _)))
  | callEdge edge => exact discard (edges (List.Subset.refl _))
  | violations =>
    refine discard (composable.bind (composable.scan (scan (List.subset_append_left _ _))) fun _ => ?_)
    refine composable.bind (composable.forEach fun edge listed => edges ?_) fun _ => composable.pure _
    exact List.subset_append_of_subset_right _ fun asked mem => List.mem_flatMap.mpr ⟨edge, listed, mem⟩

/-! ### Every call keeps the ledger honest -/

section

variable {graph : Graph} {options : Options} {answers : DeclId → Isolation} {α : Type}

def KeepsHonest (graph : Graph) (options : Options) (answers : DeclId → Isolation)
    (analysis : Analysis α) : Prop :=
  Analysis.Yields answers (Walk.Honest graph options answers) (fun _ => True) analysis

namespace KeepsHonest

open Analysis (Yields)

theorem composable : Composable fun α analysis => @KeepsHonest α graph options answers analysis where
  pure _ := Yields.pure True.intro
  bind first rest := Yields.bind first fun value _ => rest value
  domain id := (Yields.domain id).trivial
  report event := Yields.report event
  audit record := Yields.audit (fun _ record honest => honest.enter record) record

theorem sendability (type : TypeRef) (site : ModuleId) :
    KeepsHonest graph options answers (sendabilityFrom graph options type site) :=
  (Walk.sendabilityFrom_yields type site).trivial

theorem analysis (call : AnalyzerCall) :
    KeepsHonest graph options answers (call.analysis graph options) :=
  composable.call call fun _ _ => sendability _ _

end KeepsHonest

end

/-! ### Sessions -/

namespace IsolationSource

variable (graph : Graph) (options : Options)

/-- A source of this kind gives these answers, and is of this kind after each. -/
def Gives (answers : DeclId → Isolation) (kept : IsolationSource → Prop) : Prop :=
  ∀ id source log, kept source → (respond graph options id (source, log)).1 = answers id ∧
    kept (respond graph options id (source, log)).2.1

/-- The source has these answers: a table has its own, and a resolver at work has those of the table
that it would end with. -/
inductive Serves : IsolationSource → (DeclId → Isolation) → Prop where
  | table (resolution : Resolution) : Serves (.table resolution) resolution.isolation
  | onDemand {resolver : Resolver} : resolver.Progress graph options →
      Serves (.onDemand resolver) (Resolver.byLevels graph options).snapshot.isolation

theorem gives_table (resolution : Resolution) :
    Gives graph options resolution.isolation (· = .table resolution) := by
  rintro id _ log rfl
  exact ⟨rfl, rfl⟩

theorem gives_served (answers : DeclId → Isolation) :
    Gives graph options answers (Serves graph options · answers) := by
  rintro id _ log (resolution | progress)
  · exact ⟨rfl, .table resolution⟩
  · obtain ⟨answer, follows⟩ := Resolver.query_follows progress id
    obtain ⟨distinct, listed, settled, issues⟩ := follows.progress
    rw [← Resolver.byLevels_snapshot] at answer
    exact ⟨answer, .onDemand ⟨distinct, listed, settled, issues⟩⟩

end IsolationSource

namespace Session

variable {α : Type} (graph : Graph) (options : Options)

/-- Under fixed answers, an analysis comes to its value under these. What holds of the events written
down so far and of the source with its log goes on to hold. -/
theorem run_keeps {answers : DeclId → Isolation} {kept : List Event → IsolationSource × List Event → Prop}
    (answered : ∀ id notes state, kept notes state →
      (IsolationSource.respond graph options id state).1 = answers id ∧
        kept notes (IsolationSource.respond graph options id state).2)
    (recorded : ∀ event notes state, kept notes state →
      kept (notes ++ [event]) (IsolationSource.record event state))
    (analysis : Analysis α) (session : Session) (start : kept [] (session.source, session.log)) :
    let after := (session.run graph options analysis).2
    (session.run graph options analysis).1 = (analysis.against answers session.ledger).1 ∧
      after.ledger = (analysis.against answers session.ledger).2 ∧
      kept (analysis.notes answers session.ledger) (after.source, after.log) := by
  obtain ⟨value, state⟩ := Inquiry.run_against answers answered recorded
    (StateT.run analysis session.ledger) [] (session.source, session.log) start
  exact ⟨congrArg Prod.fst value, congrArg Prod.snd value, state⟩

theorem run_gives {answers : DeclId → Isolation} {kept : IsolationSource → Prop}
    (gives : IsolationSource.Gives graph options answers kept) (analysis : Analysis α)
    (session : Session) (start : kept session.source) :
    (session.run graph options analysis).1 = (analysis.against answers session.ledger).1 ∧
      (session.run graph options analysis).2.ledger = (analysis.against answers session.ledger).2 ∧
      kept (session.run graph options analysis).2.source :=
  @run_keeps _ graph options answers (fun _ state => kept state.1)
    (fun id _ state => gives id state.1 state.2) (fun _ _ _ same => same) analysis session start

theorem honest_gives {answers : DeclId → Isolation} {kept : IsolationSource → Prop}
    (gives : IsolationSource.Gives graph options answers kept) (history : List AnalyzerCall)
    (session : Session) (start : kept session.source)
    (honest : Walk.Honest graph options answers session.ledger) :
    let after := history.foldl (AnalyzerCall.perform graph options) session
    kept after.source ∧ Walk.Honest graph options answers after.ledger := by
  induction history generalizing session with
  | nil => exact ⟨start, honest⟩
  | cons call rest ih =>
    obtain ⟨-, ledger, source⟩ := run_gives graph options gives (call.analysis graph options)
      session start
    refine ih _ source ?_
    rw [AnalyzerCall.perform, ledger]
    exact (KeepsHonest.analysis call session.ledger honest).2

variable (resolution : Resolution)

theorem run_table (analysis : Analysis α) (session : Session)
    (table : session.source = .table resolution) :
    (session.run graph options analysis).1 =
        (analysis.against resolution.isolation session.ledger).1 ∧
      (session.run graph options analysis).2.ledger =
        (analysis.against resolution.isolation session.ledger).2 ∧
      (session.run graph options analysis).2.source = .table resolution :=
  run_gives graph options (IsolationSource.gives_table graph options resolution) analysis session table

theorem honest_after (history : List AnalyzerCall) (session : Session)
    (table : session.source = .table resolution)
    (honest : Walk.Honest graph options resolution.isolation session.ledger) :
    let after := history.foldl (AnalyzerCall.perform graph options) session
    after.source = .table resolution ∧
      Walk.Honest graph options resolution.isolation after.ledger :=
  honest_gives graph options (IsolationSource.gives_table graph options resolution) history session
    table honest

end Session

open UseSite in
/-- After any calls whatever, an analyzer over an isolation table gives each type the verdict that
the largest acceptable set of use sites gives it. In particular it refuses a type exactly when the
type holds a function that is not Sendable or leads to a bad use site. -/
theorem sendability_after_any_history (graph : Graph) (options : Options) (resolution : Resolution)
    (history : List AnalyzerCall) (type : TypeRef) (site : ModuleId) :
    let session := history.foldl (AnalyzerCall.perform graph options) { source := .table resolution }
    let verdict := (session.run graph options (sendabilityFrom graph options type site)).1
    verdict = verdictOn graph options resolution.isolation type site ∧
      (verdict = .notSendable ↔ type.holdsPlainFunction ∨ ∃ id ∈ type.nominals, ∃ other,
        Relation.ReflTransGen (PointsTo graph options resolution.isolation) ⟨id, site⟩ other ∧
          Bad graph options resolution.isolation other) := by
  intro session verdict
  obtain ⟨table, honest⟩ := Session.honest_after graph options resolution history
    { source := .table resolution } rfl (by simp [Walk.Honest])
  have value : verdict = verdictOn graph options resolution.isolation type site := by
    have run := (Session.run_table graph options resolution
      (sendabilityFrom graph options type site) session table).1
    exact run.trans (Walk.sendabilityFrom_yields type site session.ledger honest).1.eq_verdictOn
  refine ⟨value, ?_⟩
  rw [value, verdictOn_eq_notSendable]
  simp only [mem_acceptable_iff, not_forall, not_not, exists_prop]

end ActorIsolation
