import ActorIsolation.Boundary.Scan
import ActorIsolation.Sendability.Conformance

/-! Properties of analyses that pass from the parts to the whole. The analyses of a graph are put together
from questions about isolation, verdicts on types, records and notes. What holds of these and is kept
when analyses are put in sequence holds of all of them, so only the verdicts need a proof of their own.
-/

set_option autoImplicit false

namespace ActorIsolation

/-- A property of analyses that holds of questions about isolation and passes from an analysis and its
continuations to their sequence. -/
structure Sequential (holds : (α : Type) → Analysis α → Prop) : Prop where
  pure {α : Type} (value : α) : holds α (Pure.pure value)
  bind {α β : Type} {analysis : Analysis α} {next : α → Analysis β} : holds α analysis →
    (∀ value, holds β (next value)) → holds β (analysis >>= next)
  domain (id : DeclId) : holds Domain (Analysis.domain id)

/-- It holds of records and notes as well, so of all that is simple, verdicts apart. -/
structure Composable (holds : (α : Type) → Analysis α → Prop) : Prop extends Sequential holds where
  report (event : Event) : holds Unit (Analysis.report event)
  audit (record : AuditRecord) : holds Unit (Analysis.audit record)

/-! ### Questions about isolation -/

namespace Sequential

variable {holds : (α : Type) → Analysis α → Prop} (sequential : Sequential holds)

include sequential

theorem forEach {α β : Type} {work : α → Analysis (List β)} {items : List α}
    (each : ∀ item ∈ items, holds _ (work item)) : holds _ (Analysis.forEach work items) := by
  induction items with
  | nil => exact sequential.pure []
  | cons item rest ih =>
    obtain ⟨first, others⟩ := List.forall_mem_cons.mp each
    refine sequential.bind first fun _ => ?_
    exact sequential.bind (ih others) fun _ => sequential.pure _

variable {graph : Graph} {options : Options}

theorem byRule (decl : Declaration) : holds _ (Walk.byRule decl) := by
  unfold Walk.byRule
  split
  · exact sequential.pure _
  · exact sequential.pure _
  · exact sequential.bind (sequential.domain _) fun _ => sequential.pure _

theorem uncheckedAssertions (type : TypeRef) : holds _ (Walk.uncheckedAssertions graph type) := by
  have rests (id : DeclId) : holds _ (Walk.restsOnWord graph id) := by
    unfold Walk.restsOnWord
    split
    · exact sequential.pure _
    · exact sequential.bind (sequential.byRule _) fun _ => sequential.pure _
  refine sequential.bind (sequential.forEach fun id _ => ?_) fun _ => sequential.pure _
  exact sequential.bind (rests id) fun _ => sequential.pure _

theorem isGuarded (kind : TypeKind) (field : Declaration) : holds _ (Walk.isGuarded kind field) := by
  unfold Walk.isGuarded
  split
  · exact sequential.bind (sequential.domain _) fun _ => sequential.pure _
  · exact sequential.pure _

theorem isIsolatedType (kind : TypeKind) (decl : Declaration) :
    holds _ (Conformance.isIsolatedType kind decl) := by
  unfold Conformance.isIsolatedType
  split
  · exact sequential.pure _
  · exact sequential.bind (sequential.domain _) fun _ => sequential.pure _

open Boundary

theorem isShared (decl : Declaration) : holds _ (isShared graph decl) := by
  unfold Boundary.isShared isIsolatedStorage
  split
  · exact sequential.pure _
  · split
    · exact sequential.pure _
    · split
      · exact sequential.pure _
      · exact sequential.bind (sequential.domain _) fun _ => sequential.pure _

theorem contracts : holds _ (contractViolations graph options) := by
  have exempt (target : Declaration) (witness : Domain) : holds _ (isExempt graph target witness) := by
    unfold isExempt
    split
    · exact sequential.pure _
    · split
      · exact sequential.pure _
      · split
        · exact sequential.pure _
        · exact sequential.bind (sequential.domain _) fun _ => sequential.pure _
  refine sequential.forEach fun decl _ => ?_
  unfold declContractViolations
  split
  · exact sequential.pure _
  · refine sequential.bind (sequential.domain _) fun witness => ?_
    split
    · refine sequential.forEach fun id _ => ?_
      unfold targetViolations
      split
      · exact sequential.pure _
      · refine sequential.bind (sequential.domain _) fun expected => ?_
        split
        · exact sequential.pure _
        · refine sequential.bind (exempt _ _) fun isExempt => ?_
          split
          · exact sequential.pure _
          · exact sequential.pure _
    · exact sequential.pure _

theorem defaults : holds _ (defaultViolations graph options) := by
  have contexts (owner : Declaration) : holds _ (initContexts graph owner) := by
    unfold initContexts
    split
    · refine sequential.bind (sequential.bind (sequential.domain _) fun domain => ?_)
        fun _ => sequential.pure _
      split
      · exact sequential.pure _
      · exact sequential.pure _
    · refine sequential.bind (sequential.forEach fun initializer _ => ?_) fun _ => sequential.pure _
      exact sequential.bind (sequential.domain _) fun _ => sequential.pure _
  refine sequential.forEach fun decl _ => ?_
  unfold declDefaultViolations
  split
  · split
    · refine sequential.bind (contexts _) fun domains => sequential.forEach fun id _ => ?_
      refine sequential.bind (sequential.domain _) fun needed => ?_
      split
      · split
        · exact sequential.pure _
        · exact sequential.pure _
      · exact sequential.pure _
    · exact sequential.pure _
  · exact sequential.pure _

/-! ### The walk -/

section

variable {visit : DeclId → Analysis Outcome}

theorem partsOutcome (visited : ∀ id, holds _ (visit id)) (parts : List TypeRef.Part) :
    holds _ (Walk.partsOutcome visit parts) := by
  induction parts with
  | nil => exact sequential.pure _
  | cons part rest ih =>
    have first : holds _ (Walk.partOutcome visit part) := by
      cases part with
      | plain verdict => exact sequential.pure _
      | nominal id => exact visited id
    exact sequential.bind first fun _ => sequential.bind ih fun _ => sequential.pure _

theorem fieldOutcome (visited : ∀ id, holds _ (visit id)) (owner : DeclId) (kind : TypeKind)
    (field : Declaration) : holds _ (Walk.fieldOutcome graph visit owner kind field) := by
  have accepted (type : TypeRef) (outcome : Outcome) :
      holds _ (Walk.acceptByWord graph owner field.id type outcome) := by
    unfold Walk.acceptByWord
    split
    · exact sequential.bind (sequential.uncheckedAssertions type) fun _ => sequential.pure _
    · exact sequential.pure _
  refine sequential.bind (sequential.isGuarded kind field) fun guarded => ?_
  split
  · exact sequential.pure _
  · split
    · exact sequential.pure _
    · split
      · exact sequential.pure _
      · rename_i type typed
        refine sequential.bind (sequential.partsOutcome visited type.parts) fun outcome => ?_
        exact sequential.bind (accepted type outcome) fun _ => sequential.pure _

theorem fieldsOutcome (visited : ∀ id, holds _ (visit id)) (owner : DeclId) (kind : TypeKind)
    (fields : List Declaration) (outcome : Outcome) :
    holds _ (Walk.fieldsOutcome graph visit owner kind fields outcome) := by
  induction fields generalizing outcome with
  | nil => exact sequential.pure _
  | cons field rest ih =>
    refine sequential.bind (sequential.fieldOutcome visited owner kind field) fun next => ?_
    cases next with
    | none => exact ih outcome
    | some next =>
      dsimp only
      split
      · exact sequential.pure _
      · exact ih _

theorem declOutcome (visited : ∀ id, holds _ (visit id)) (decl : Declaration) (site : ModuleId) :
    holds _ (Walk.declOutcome graph options visit decl site) := by
  unfold Walk.declOutcome
  split
  · exact sequential.pure _
  · refine sequential.bind (sequential.byRule decl) fun ruled => ?_
    cases ruled with
    | some verdict => exact sequential.pure _
    | none =>
      dsimp only
      split
      · exact sequential.pure _
      · exact sequential.fieldsOutcome visited decl.id _ _ _

end

end Sequential

/-! ### Records and notes -/

namespace Composable

variable {holds : (α : Type) → Analysis α → Prop} (composable : Composable holds)

include composable

theorem tracked {α : Type} {analysis : Analysis α} (query : Query) (finding : α → Finding)
    (work : holds α analysis) : holds α (Analysis.tracked query finding analysis) := by
  refine composable.bind (composable.report _) fun _ => composable.bind work fun value => ?_
  exact composable.bind (composable.report _) fun _ => composable.pure value

theorem auditAll (records : List AuditRecord) : holds Unit (Analysis.auditAll records) := by
  induction records with
  | nil => exact composable.pure ()
  | cons record rest ih => exact composable.bind (composable.audit record) fun _ => ih

variable {graph : Graph} {options : Options}

theorem conformances (verdicts : ∀ decl ∈ graph.decls, ∀ field ∈ graph.storedFields decl.id, ∀ type,
      field.type = some type →
        holds _ (sendabilityFrom graph options type (options.moduleOf decl.id))) :
    holds _ (conformanceIssues graph options) := by
  refine composable.bind (composable.forEach fun decl declared => ?_) fun _ => composable.pure _
  unfold Conformance.declIssues
  split
  · refine composable.bind (composable.isIsolatedType _ decl) fun isolated => ?_
    split
    · exact composable.pure _
    · refine composable.bind (composable.forEach fun field listed => ?_) fun _ => composable.pure _
      refine composable.bind (composable.isGuarded _ field) fun guarded => ?_
      split
      · exact composable.pure _
      · refine composable.bind ?_ fun _ => composable.pure _
        unfold Conformance.fieldSendability
        split
        · exact composable.pure _
        · rename_i type typed
          exact verdicts decl declared field listed type typed
  · exact composable.pure _

open Boundary

theorem judged {type : TypeRef} {site : ModuleId} {reason : AuditReason} {violation : Violation}
    {next : Sendability → Analysis (List Violation)}
    (verdict : holds _ (sendabilityFrom graph options type site))
    (sendable : next .sendable = Pure.pure []) (refused : next .notSendable = Pure.pure [violation])
    (byWord : next .uncheckedSendable = (do
      let asserted ← Walk.uncheckedAssertions graph type
      Analysis.auditAll (asserted.map (⟨·, reason⟩))
      return [])) :
    holds _ (sendabilityFrom graph options type site >>= next) := by
  refine composable.bind verdict fun verdict => ?_
  cases verdict with
  | sendable =>
    rw [sendable]
    exact composable.pure _
  | notSendable =>
    rw [refused]
    exact composable.pure _
  | uncheckedSendable =>
    rw [byWord]
    refine composable.bind (composable.uncheckedAssertions type) fun asserted => ?_
    exact composable.bind (composable.auditAll _) fun _ => composable.pure _

theorem sharedMutable (verdicts : ∀ decl ∈ graph.decls, ∀ type, decl.type = some type →
      holds _ (sendabilityFrom graph options type (options.moduleOf decl.id))) :
    holds _ (sharedMutableViolations graph options) := by
  refine composable.forEach fun decl declared => ?_
  unfold mutableViolations
  split
  · refine composable.bind (composable.domain _) fun domain => ?_
    split
    · exact composable.pure _
    · refine composable.bind (composable.isShared decl) fun shared => ?_
      split
      · unfold sharedStateViolations
        split
        · exact composable.bind (composable.audit _) fun _ => composable.pure _
        · split
          · exact composable.pure _
          · rename_i type typed
            exact composable.judged (verdicts decl declared type typed) rfl rfl rfl
      · exact composable.pure _
  · exact composable.pure _

theorem scan (verdicts : ∀ decl ∈ graph.decls, ∀ type, decl.type = some type →
      holds _ (sendabilityFrom graph options type (options.moduleOf decl.id))) :
    holds _ (scan graph options) := by
  refine composable.tracked _ _ (composable.bind (composable.sharedMutable verdicts) fun _ => ?_)
  refine composable.bind composable.contracts fun _ => ?_
  exact composable.bind composable.defaults fun _ => composable.pure _

theorem callEdge {edge : CallEdge} (verdicts : ∀ value ∈ transferred graph edge,
      holds _ (sendabilityFrom graph options value.type (options.moduleOf edge.caller))) :
    holds _ (edgeViolations graph options edge) := by
  refine composable.tracked _ _ (composable.bind (composable.domain _) fun source => ?_)
  refine composable.bind (composable.domain _) fun target => ?_
  split
  · refine composable.bind (composable.forEach fun value handed => ?_) fun _ => composable.pure _
    exact composable.judged (verdicts value handed) rfl rfl rfl
  · exact composable.pure _

end Composable

end ActorIsolation
