import ActorIsolation.Proofs.History
import ActorIsolation.Proofs.Laziness
import ActorIsolation.Proofs.Settling
import Mathlib.Data.Finset.Card

/-! The questions of an analyzer. Every call asks for verdicts on certain types, which hang on the graph
and on the answers to isolation questions alone. Over any calls, what these types mention is settled, and
no more looks at types are counted than there are such use sites.
-/

set_option autoImplicit false

namespace ActorIsolation

variable {graph : Graph} {options : Options} {answers : DeclId → Isolation} {α : Type}

/-! ### Calls -/

namespace AnalyzerCall

section

variable (graph : Graph) (options : Options) (answers : DeclId → Isolation)

def assertedTypes (decl : Declaration) : List (TypeRef × ModuleId) :=
  match decl.sendable, decl.typeKind? with
  | .checked, some kind =>
    if kind = .protocol || kind = .actor || (answers decl.id).domain.isGlobalActor then []
    else (graph.storedFields decl.id).flatMap fun field =>
      if Walk.guarded answers kind field then []
      else field.type.toList.map (·, options.moduleOf decl.id)
  | _, _ => []

def isReachable (decl : Declaration) : Bool :=
  decl.isTopLevel || decl.isStatic || (graph.enclosingType? decl).any fun owner =>
    owner.typeKind? = some .actor || (answers owner.id).domain.isGlobalActor

def sharedTypes (decl : Declaration) : List (TypeRef × ModuleId) :=
  if decl.kind = .storedProperty ∧ decl.isMutable ∧ ¬ (answers decl.id).domain.isIsolated ∧
      isReachable graph answers decl ∧ ¬ decl.isNonisolatedUnsafe then
    decl.type.toList.map (·, options.moduleOf decl.id)
  else []

def handedOver (edge : CallEdge) : List (TypeRef × ModuleId) :=
  if graph.crosses edge (answers edge.caller).domain (answers edge.callee).domain then
    (Boundary.transferred graph edge).map fun value => (value.type, options.moduleOf edge.caller)
  else []

/-- The types on which a call asks for verdicts when isolation questions have these answers, each with
the module it is used from. -/
def queries : AnalyzerCall → List (TypeRef × ModuleId)
  | .sendability type site => [(type, site)]
  | .declSendability decl site => [(.nominal decl, site)]
  | .conformances => graph.decls.flatMap (assertedTypes graph options answers)
  | .sharedMutable => graph.decls.flatMap (sharedTypes graph options answers)
  | .scan => graph.decls.flatMap (sharedTypes graph options answers)
  | .callEdge edge => handedOver graph options answers edge
  | .violations => graph.decls.flatMap (sharedTypes graph options answers) ++
      graph.edges.flatMap (handedOver graph options answers)
  | .uncheckedAssertions _ => []
  | .audit _ => []
  | .contracts => []
  | .defaults => []

end

open Analysis (Settles Silent Yields)

theorem fieldIssues_settles (owner : DeclId) (kind : TypeKind) (field : Declaration) :
    Settles answers graph []
      (if Walk.guarded answers kind field then [] else field.type.toList.map (·, options.moduleOf owner))
      (Conformance.fieldIssues graph options owner kind field) := by
  have judged : Settles answers graph [] (field.type.toList.map (·, options.moduleOf owner))
      (Conformance.fieldSendability graph options (options.moduleOf owner) field) := by
    unfold Conformance.fieldSendability
    cases field.type with
    | none => exact .pure _
    | some type => exact Walk.sendabilityFrom_settles type _
  refine .after (Silent.sequential.isGuarded kind field) (Walk.isGuarded_yields field) ?_
  rintro _ rfl
  split
  · exact .pure _
  · exact judged.andThen fun _ => .pure _

theorem isIsolatedType_yields (kind : TypeKind) (decl : Declaration) :
    Yields answers (fun _ => True) (· = (kind = .actor || (answers decl.id).domain.isGlobalActor))
      (Conformance.isIsolatedType kind decl) := by
  unfold Conformance.isIsolatedType
  split
  · rename_i actor
    exact .pure (by simp [actor])
  · rename_i other
    exact (Yields.domain decl.id).bind fun domain same => .pure (by simp [other, same])

theorem declIssues_settles (decl : Declaration) :
    Settles answers graph [] (assertedTypes graph options answers decl)
      (Conformance.declIssues graph options decl) := by
  unfold Conformance.declIssues assertedTypes
  cases decl.sendable with
  | absent => exact .pure _
  | unchecked => exact .pure _
  | checked =>
    cases decl.typeKind? with
    | none => exact .pure _
    | some kind =>
      dsimp only
      refine .after (Silent.sequential.isIsolatedType kind decl) (isIsolatedType_yields kind decl) ?_
      rintro _ rfl
      rw [Bool.or_assoc]
      split
      · exact .pure _
      · refine Settles.andThen ?_ fun _ => .pure _
        exact .forEach fun field _ => fieldIssues_settles decl.id kind field

open Boundary

theorem isShared_yields (decl : Declaration) :
    Yields answers (fun _ => True) (· = isReachable graph answers decl) (isShared graph decl) := by
  unfold isShared isReachable
  split
  · rename_i outside
    exact .pure (by simp [outside])
  · rename_i instanceMember
    rw [Bool.not_eq_true] at instanceMember
    rw [instanceMember, Bool.false_or]
    unfold isIsolatedStorage
    cases graph.enclosingType? decl with
    | none => exact .pure rfl
    | some owner =>
      dsimp only
      split
      · rename_i actor
        exact .pure (by simp [actor])
      · rename_i other
        exact (Yields.domain owner.id).bind fun domain same => .pure (by simp [other, same])

theorem judged_settles {type : TypeRef} {reason : AuditReason} {violation : Violation}
    {next : Sendability → Analysis (List Violation)}
    (sendable : next .sendable = pure []) (refused : next .notSendable = pure [violation])
    (byWord : next .uncheckedSendable = (do
      let asserted ← Walk.uncheckedAssertions graph type
      Analysis.auditAll (asserted.map (⟨·, reason⟩))
      return [])) (site : ModuleId) :
    Settles answers graph [] [(type, site)] (sendabilityFrom graph options type site >>= next) := by
  refine (Walk.sendabilityFrom_settles type site).andThen fun verdict => ?_
  cases verdict with
  | sendable =>
    rw [sendable]
    exact .pure _
  | notSendable =>
    rw [refused]
    exact .pure _
  | uncheckedSendable =>
    rw [byWord]
    refine (Settles.of_silent (Silent.sequential.uncheckedAssertions type)).bind fun asserted => ?_
    exact (Settles.auditAll _).bind fun _ => .pure _

theorem mutableViolations_settles (decl : Declaration) :
    Settles answers graph [] (sharedTypes graph options answers decl)
      (mutableViolations graph options decl) := by
  have nothing (unshared : ¬ (decl.kind = .storedProperty ∧ decl.isMutable ∧
      ¬ (answers decl.id).domain.isIsolated ∧ isReachable graph answers decl ∧
      ¬ decl.isNonisolatedUnsafe)) : sharedTypes graph options answers decl = [] := if_neg unshared
  unfold mutableViolations
  split
  · rename_i stored
    rw [Bool.and_eq_true, decide_eq_true_eq] at stored
    refine .after (Silent.sequential.domain _) (Yields.domain _) ?_
    rintro _ rfl
    split
    · rename_i isolated
      rw [nothing (by simp [isolated])]
      exact .pure _
    · rename_i unisolated
      refine .after (Silent.sequential.isShared decl) (isShared_yields decl) ?_
      rintro _ rfl
      split
      · rename_i reachable
        unfold sharedStateViolations
        split
        · rename_i vouched
          rw [nothing (by simp [vouched])]
          exact (Settles.audit _).bind fun _ => .pure _
        · rename_i unvouched
          rw [sharedTypes, if_pos ⟨stored.1, stored.2, unisolated, reachable, unvouched⟩]
          cases decl.type with
          | none => exact .pure _
          | some type => exact judged_settles rfl rfl rfl _
      · rename_i unreachable
        rw [nothing (by simp [unreachable])]
        exact .pure _
  · rename_i other
    rw [nothing fun holds => other (by simp [holds.1, holds.2.1])]
    exact .pure _

theorem edgeViolations_settles (edge : CallEdge) :
    Settles answers graph [] (handedOver graph options answers edge)
      (edgeViolations graph options edge) := by
  apply Settles.tracked (by simp)
  unfold crossingViolations handedOver
  refine .after (Silent.sequential.domain _) (Yields.domain _) ?_
  rintro _ rfl
  refine .after (Silent.sequential.domain _) (Yields.domain _) ?_
  rintro _ rfl
  split
  · refine Settles.andThen ?_ fun _ => .pure _
    rw [List.map_eq_flatMap]
    exact .forEach fun value _ => judged_settles rfl rfl rfl _
  · exact .pure _

/-- Every call asks its questions, whatever the ledger holds. -/
theorem analysis_settles (call : AnalyzerCall) :
    Settles answers graph [] (call.queries graph options answers) (call.analysis graph options) := by
  have discard {γ : Type} {asked : List (TypeRef × ModuleId)} {analysis : Analysis γ}
      (whole : Settles answers graph [] asked analysis) :
      Settles answers graph [] asked (discard analysis) := whole.andThen fun _ => .pure ()
  have shared : Settles answers graph [] (graph.decls.flatMap (sharedTypes graph options answers))
      (sharedMutableViolations graph options) :=
    .forEach fun decl _ => mutableViolations_settles decl
  have contracts : Settles answers graph [] [] (contractViolations graph options) :=
    .of_silent Silent.sequential.contracts
  have defaults : Settles answers graph [] [] (defaultViolations graph options) :=
    .of_silent Silent.sequential.defaults
  have scan : Settles answers graph [] (graph.decls.flatMap (sharedTypes graph options answers))
      (Boundary.scan graph options) := by
    apply Settles.tracked (by simp)
    exact shared.andThen fun _ => contracts.bind fun _ => defaults.bind fun _ => .pure _
  cases call with
  | sendability type site => exact discard (Walk.sendabilityFrom_settles type site)
  | declSendability decl site => exact discard (Walk.sendabilityFrom_settles (.nominal decl) site)
  | uncheckedAssertions type =>
    exact discard (.of_silent (Silent.sequential.uncheckedAssertions type))
  | audit record => exact .audit record
  | conformances =>
    refine discard (Settles.andThen ?_ fun _ => .pure _)
    exact .forEach fun decl _ => declIssues_settles decl
  | sharedMutable => exact discard shared
  | contracts => exact discard contracts
  | defaults => exact discard defaults
  | scan => exact discard scan
  | callEdge edge => exact discard (edgeViolations_settles edge)
  | violations =>
    have edges : Settles answers graph [] (graph.edges.flatMap (handedOver graph options answers))
        (Analysis.forEach (edgeViolations graph options) graph.edges) :=
      .forEach fun edge _ => edgeViolations_settles edge
    exact discard (scan.bind fun _ => edges.andThen fun _ => .pure _)

end AnalyzerCall

/-! ### Sessions -/

namespace IsolationSource

/-- A table, or a resolver all of whose work so far has been reported. It has these answers. -/
inductive Ready (graph : Graph) (options : Options) : IsolationSource → (DeclId → Isolation) → Prop where
  | table (resolution : Resolution) : Ready graph options (.table resolution) resolution.isolation
  | onDemand {resolver : Resolver} : resolver.Progress graph options → resolver.log = [] →
      Ready graph options (.onDemand resolver) (Resolver.byLevels graph options).snapshot.isolation

variable {source : IsolationSource}

theorem Ready.respond (ready : source.Ready graph options answers) (id : DeclId) (log : List Event) :
    let answer := IsolationSource.respond graph options id (source, log)
    answer.1 = answers id ∧ answer.2.1.Ready graph options answers ∧
      finishedIn .sendable answer.2.2 = finishedIn .sendable log := by
  cases ready with
  | table resolution => exact ⟨rfl, .table resolution, rfl⟩
  | @onDemand resolver progress reported =>
    obtain ⟨answer, follows⟩ := Resolver.query_follows progress id
    obtain ⟨distinct, listed, settled, issues⟩ := follows.progress
    obtain ⟨order, done, written⟩ := follows.more
    rw [← Resolver.byLevels_snapshot] at answer
    have bound : ∀ index ∈ order, index < graph.plan.size := by
      intro index mem
      apply listed index
      rw [done]
      exact List.mem_append_left _ (List.mem_reverse.mpr mem)
    -- What was reported is taken off the log of the resolver, so nothing is counted twice.
    refine ⟨answer, .onDemand ⟨distinct, listed, settled, issues⟩ rfl, ?_⟩
    simp [IsolationSource.respond, written, reported, finishedIn_workOf bound]

end IsolationSource

namespace Session

variable {session : Session}

theorem run_ready (ready : session.source.Ready graph options answers) (analysis : Analysis α) :
    let after := (session.run graph options analysis).2
    after.ledger = (analysis.against answers session.ledger).2 ∧
      after.source.Ready graph options answers ∧
      finishedIn .sendable after.log = finishedIn .sendable session.log ++
        finishedIn .sendable (analysis.notes answers session.ledger) := by
  -- The source works on while it answers, and reports that among the notes. None of it is a look at a
  -- type.
  let kept (notes : List Event) (state : IsolationSource × List Event) : Prop :=
    state.1.Ready graph options answers ∧
      finishedIn .sendable state.2 = finishedIn .sendable session.log ++ finishedIn .sendable notes
  have answered : ∀ id notes state, kept notes state →
      (IsolationSource.respond graph options id state).1 = answers id ∧
        kept notes (IsolationSource.respond graph options id state).2 := by
    rintro id notes ⟨source, log⟩ ⟨still, told⟩
    obtain ⟨answer, after, same⟩ := still.respond id log
    exact ⟨answer, after, same.trans told⟩
  have recorded : ∀ event notes state, kept notes state →
      kept (notes ++ [event]) (IsolationSource.record event state) := by
    rintro event notes ⟨source, log⟩ ⟨still, told⟩
    refine ⟨still, ?_⟩
    rw [IsolationSource.record, finishedIn_append, told, finishedIn_append, List.append_assoc]
  obtain ⟨-, ledger, after, told⟩ := run_keeps graph options answered recorded analysis session
    ⟨ready, by simp⟩
  exact ⟨ledger, after, told⟩

/-- Whatever calls follow, they ask their questions, and what is counted is what these lead to. -/
theorem foldl_settles (ready : session.source.Ready graph options answers)
    (distinct : session.ledger.Distinct) (calls : List AnalyzerCall) :
    let after := calls.foldl (AnalyzerCall.perform graph options) session
    after.source.Ready graph options answers ∧ ∃ notes,
      Settlement graph [] (calls.flatMap (AnalyzerCall.queries graph options answers)) session.ledger
        after.ledger notes ∧
      finishedIn .sendable after.log = finishedIn .sendable session.log ++
        finishedIn .sendable notes := by
  induction calls generalizing session with
  | nil => exact ⟨ready, [], .quiet rfl rfl distinct (by simp), by simp⟩
  | cons call rest ih =>
    obtain ⟨ledger, still, told⟩ := run_ready ready (call.analysis graph options)
    have first := @AnalyzerCall.analysis_settles graph options answers call session.ledger distinct
      (by simp)
    rw [← ledger] at first
    obtain ⟨final, notes, others, toldOthers⟩ := ih still first.distinct
    refine ⟨final, _, first.trans others, toldOthers.trans ?_⟩
    rw [told, finishedIn_append, List.append_assoc]

theorem finishedIn_ownLog (session : Session) :
    finishedIn .sendable session.ownLog = finishedIn .sendable session.log := by
  rw [finishedIn, finishedIn, ownLog, List.filterMap_filter]
  congr 1
  funext event
  cases event with
  | closed query finding =>
    by_cases solved : query.kind = .resolveComponent <;> simp [Event.subject?, solved]
  | began | opened | remarked | finished => rfl

end Session

/-- Whatever an analyzer has been asked, no use site has two verdicts, and a verdict that is settled
stays as it is whatever is asked next. A look at a declared type that no other waits for leaves a verdict
on it, and so every declared type is settled that some type of a question mentions. The looks that are
counted are about such use sites, each at most once. -/
theorem verdicts_settled_once (graph : Graph) (options : Options) {source : IsolationSource}
    {answers : DeclId → Isolation} (ready : source.Ready graph options answers)
    (history : List AnalyzerCall) :
    let session := history.foldl (AnalyzerCall.perform graph options) { source }
    let mentioned := mentionedSites graph
      (history.flatMap (AnalyzerCall.queries graph options answers))
    (∀ key inside, (graph.decl? key.decl).isSome →
        ((session.run graph options (Walk.evaluate graph options [] key inside)).2.ledger.verdict?
          key).isSome) ∧
      (∀ key ∈ mentioned, (session.ledger.verdict? key).isSome) ∧
      (session.ledger.verdicts.map (·.1)).Nodup ∧
      (∀ (later : List AnalyzerCall) key verdict, session.ledger.verdict? key = some verdict →
        (later.foldl (AnalyzerCall.perform graph options) session).ledger.verdict? key =
          some verdict) ∧
      (∃ sites : List UseSite, sites.Nodup ∧ sites ⊆ mentioned ∧
        finishedIn .sendable session.ownLog = sites.map (·.decl.number)) ∧
      (Statistics.count {} session.ownLog).totalOf .sendable ≤ mentioned.toFinset.card := by
  intro session mentioned
  have fresh : Ledger.Distinct {} := List.nodup_nil
  obtain ⟨still, notes, step, told⟩ :=
    @Session.foldl_settles graph options answers { source } ready fresh history
  obtain ⟨sites, once, asked, -, counted⟩ := step.counted
  have looked : finishedIn .sendable session.ownLog = sites.map (·.decl.number) := by
    rw [Session.finishedIn_ownLog, told, counted]
    rfl
  refine ⟨fun key inside declared => ?_, step.settled, step.distinct, fun later key verdict known => ?_,
    ⟨sites, once, asked, looked⟩, ?_⟩
  · have settles := @Walk.evaluate_outermost graph options answers key inside session.ledger
      step.distinct (by simp)
    rw [(Session.run_ready still _).1]
    apply settles.settled
    rw [Walk.mentionedSites_nominal, if_pos declared]
    exact List.mem_singleton_self key
  · obtain ⟨-, _, further, -⟩ := Session.foldl_settles still step.distinct later
    exact Ledger.verdict?_grows further.grows further.distinct known
  · rw [Statistics.totalOf_count, looked, List.length_map, ← List.toFinset_card_of_nodup once]
    apply Finset.card_le_card
    intro key mem
    exact List.mem_toFinset.mpr (asked (List.mem_toFinset.mp mem))

def linkedNodes : Graph where
  decls :=
    [{ id := ⟨1⟩, name := "Node", kind := .type .struct },
      { id := ⟨2⟩, name := "next", kind := .storedProperty, enclosing := some ⟨1⟩,
        type := some (.optional (.nominal ⟨1⟩)) }]
  plan := _
  plan_eq := rfl
  decls_ascending := by decide
  extensions_ascending := Graph.noExtensions_ascending
  edges_ascending := Graph.noCalls_ascending
  sound := by decide +kernel

/-- Asked for four times from two modules, nodes are looked at no more than twice. -/
theorem linkedNodes_settled_once :
    let asked : List AnalyzerCall := [.sendability (.nominal ⟨1⟩) .here, .declSendability ⟨1⟩ .here,
      .declSendability ⟨1⟩ ⟨7⟩, .sendability (.tuple [.nominal ⟨1⟩, .nominal ⟨3⟩]) ⟨7⟩]
    let session := asked.foldl (AnalyzerCall.perform linkedNodes {}) { source := .onDemand .start }
    IsolationSource.Ready linkedNodes {} (.onDemand .start)
        (Resolver.byLevels linkedNodes {}).snapshot.isolation ∧
      (session.ledger.verdict? ⟨⟨1⟩, .here⟩).isSome ∧ (session.ledger.verdict? ⟨⟨1⟩, ⟨7⟩⟩).isSome ∧
      (Statistics.count {} session.ownLog).totalOf .sendable ≤ 2 := by
  intro asked session
  have ready : IsolationSource.Ready linkedNodes {} (.onDemand .start)
      (Resolver.byLevels linkedNodes {}).snapshot.isolation :=
    .onDemand (Resolver.progress_start linkedNodes {}) rfl
  obtain ⟨-, settled, -, -, -, total⟩ := verdicts_settled_once linkedNodes {} ready asked
  exact ⟨ready, settled _ (by decide), settled _ (by decide), total.trans (by decide)⟩

end ActorIsolation
