import ActorIsolation.Checker
import ActorIsolation.Proofs.Accounting
import ActorIsolation.Proofs.Crossing
import ActorIsolation.Proofs.Scan

/-! The examination of a graph, call by call and declaration by declaration: which violations the rules
demand there, and which words have to be on record afterwards. The examination finds the violations
that are demanded, puts the words on record, and puts nothing on record without a reason.
-/

set_option autoImplicit false

namespace ActorIsolation

namespace UseSite

variable (graph : Graph) (options : Options) (answers : DeclId → Isolation)

def LeadsToBad (type : TypeRef) (site : ModuleId) : Prop :=
  type.holdsPlainFunction ∨ ∃ id ∈ type.nominals, ∃ other,
    Relation.ReflTransGen (PointsTo graph options answers) ⟨id, site⟩ other ∧
      Bad graph options answers other

variable {graph options answers}

theorem leadsToBad_iff {type : TypeRef} {site : ModuleId} :
    LeadsToBad graph options answers type site ↔
      verdictOn graph options answers type site = .notSendable := by
  rw [verdictOn_eq_notSendable, LeadsToBad]
  simp only [mem_acceptable_iff, not_forall, not_not, exists_prop]

theorem verdictOn_of_word {type : TypeRef} {site : ModuleId} {id : DeclId}
    (mentioned : id ∈ type.nominals) (word : RestsOnWord graph answers id) :
    verdictOn graph options answers type site ≠ .sendable := by
  unfold verdictOn
  split
  · simp
  · rw [if_pos ⟨id, mentioned, word⟩]
    simp

variable {id : DeclId} {decl : Declaration} {site : ModuleId}

/-- A type that is judged by its fields has no better place of use than its home. -/
theorem acceptable_at_home (found : graph.decl? id = some decl) (isType : decl.isType)
    (unaccepted : ¬ AcceptedAtSight answers decl)
    (accepted : ⟨id, site⟩ ∈ acceptable graph options answers) :
    ⟨id, options.moduleOf decl.id⟩ ∈ acceptable graph options answers := by
  have unrefused : ¬ RefusedAtSight graph options answers decl site :=
    fun refused => not_acceptable_of_bad (.refused found isType unaccepted refused) accepted
  -- What is refused at home is refused everywhere: only a foreign use depends on the place.
  have unrefusedHome :
      ¬ RefusedAtSight graph options answers decl (options.moduleOf decl.id) := by
    intro refused
    cases refused with
    | unassertedClass absent isClass => exact unrefused (.unassertedClass absent isClass)
    | unassertedProtocol absent isProtocol => exact unrefused (.unassertedProtocol absent isProtocol)
    | subclassable checked isClass extensible =>
      exact unrefused (.subclassable checked isClass extensible)
    | foreignValue _ _ _ foreign => exact foreign rfl
    | mutableField checked isClass final listed changes =>
      exact unrefused (.mutableField checked isClass final listed changes)
    | functionField listed typed function => exact unrefused (.functionField listed typed function)
  rw [← tenable_empty]
  apply Tenable.discharge
  · rintro (absent | ⟨present, untyped⟩ | ⟨present, -, -, refused⟩)
    · simp [found] at absent
    · cases found.symm.trans present
      simp [isType] at untyped
    · cases found.symm.trans present
      exact unrefusedHome refused
  · rintro next ⟨present, -, -, -, listed, typed, mentioned⟩
    cases found.symm.trans present
    have inside := acceptable_of_pointsTo accepted
      (.field found isType unaccepted unrefused listed typed mentioned)
    exact (tenable_empty.mpr inside).mono (Set.empty_subset _)

theorem verdictOn_at_home (found : graph.decl? id = some decl) (isType : decl.isType)
    (unaccepted : ¬ AcceptedAtSight answers decl)
    (accepted : ⟨id, site⟩ ∈ acceptable graph options answers) :
    verdictOn graph options answers (.nominal id) (options.moduleOf decl.id) = .sendable := by
  have home := acceptable_at_home found isType unaccepted accepted
  have noWord : ¬ RestsOnWord graph answers id := by
    rintro ⟨other, present, -, -, -, word⟩
    cases found.symm.trans present
    exact unaccepted (.unchecked word)
  simp [verdictOn, TypeRef.holdsPlainFunction, TypeRef.nominals, home, noWord]

end UseSite

namespace Boundary

open UseSite
open Analysis (Accounts Yields)
open Walk (Audited)

/-! ### What a call hands over -/

/-- What a call gives back: the declared result, or else the value of the stored property it reads. -/
inductive Returns (graph : Graph) (edge : CallEdge) : TypeRef → Prop where
  | declared {type : TypeRef} : edge.result = some type → Returns graph edge type
  | stored {type : TypeRef} {callee : Declaration} : edge.result = none →
      graph.decl? edge.callee = some callee → callee.kind = .storedProperty →
      callee.type = some type → Returns graph edge type

/-- The values that a call hands over, one after another: its arguments, what it captures, and what it gives
back if it gives anything back. -/
inductive HandsOver (graph : Graph) (edge : CallEdge) : List ValueRef → Prop where
  | giving {type : TypeRef} {callee : Declaration} : Returns graph edge type →
      graph.decl? edge.callee = some callee →
      HandsOver graph edge (edge.arguments.map (fun given => ⟨.argument, given.name, given.type⟩) ++
        edge.captures.map (fun kept => ⟨.capture, kept.name, kept.type⟩) ++
          [⟨.result, callee.name, type⟩])
  | silent : (∀ type, ¬ Returns graph edge type) →
      HandsOver graph edge (edge.arguments.map (fun given => ⟨.argument, given.name, given.type⟩) ++
        edge.captures.map (fun kept => ⟨.capture, kept.name, kept.type⟩))

/-! ### What has to be on record, and what may be -/

/-- Mutable state without isolation that several domains can reach. -/
structure Shared (graph : Graph) (answers : DeclId → Isolation) (decl : Declaration) : Prop where
  declared : decl ∈ graph.decls
  stored : decl.kind = .storedProperty
  changes : decl.isMutable
  unisolated : (answers decl.id).domain = .nonisolated
  reachable : Reachable graph answers decl

/-- The log holds the words that a value of the type relies on when it is used from this module: those
for the type itself, with this reason, and those that types take for their fields. -/
structure OnRecord (graph : Graph) (options : Options) (answers : DeclId → Isolation)
    (log : List AuditRecord) (type : TypeRef) (site : ModuleId) (reason : AuditReason) : Prop where
  own : ∀ asserted ∈ type.nominals, RestsOnWord graph answers asserted → ⟨asserted, reason⟩ ∈ log
  fields : ∀ id ∈ type.nominals, ∀ here,
    Relation.ReflTransGen (PointsTo graph options answers) ⟨id, site⟩ here →
      ∀ record, Due graph answers here record → record ∈ log

/-- A reason for each kind of record, when types get these verdicts. -/
inductive Justified (graph : Graph) (options : Options) (answers : DeclId → Isolation)
    (verdict : TypeRef → ModuleId → Sendability) : AuditRecord → Prop where
  | field {owner field : Declaration} {type : TypeRef} {asserted : DeclId} :
      graph.decl? owner.id = some owner → owner.isType → ¬ AcceptedAtSight answers owner →
      verdict (.nominal owner.id) (options.moduleOf owner.id) = .sendable →
      Counts graph answers owner field → field.type = some type →
      asserted ∈ type.nominals → RestsOnWord graph answers asserted →
      Justified graph options answers verdict ⟨asserted, .field owner.id field.id⟩
  | transfer {edge : CallEdge} {values : List ValueRef} {value : ValueRef} {asserted : DeclId} :
      edge ∈ graph.edges → graph.Crosses answers edge → HandsOver graph edge values → value ∈ values →
      verdict value.type (options.moduleOf edge.caller) = .uncheckedSendable →
      asserted ∈ value.type.nominals → RestsOnWord graph answers asserted →
      Justified graph options answers verdict ⟨asserted, .transfer edge.id value.kind value.name⟩
  | sharedMutable {decl : Declaration} {type : TypeRef} {asserted : DeclId} :
      Shared graph answers decl → .nonisolatedUnsafe ∉ decl.annotations → decl.type = some type →
      verdict type (options.moduleOf decl.id) = .uncheckedSendable →
      asserted ∈ type.nominals → RestsOnWord graph answers asserted →
      Justified graph options answers verdict ⟨asserted, .sharedMutable decl.id⟩
  | nonisolatedUnsafe {decl : Declaration} :
      Shared graph answers decl → .nonisolatedUnsafe ∈ decl.annotations →
      Justified graph options answers verdict ⟨decl.id, .nonisolatedUnsafe decl.id⟩

abbrev InOrder (graph : Graph) (options : Options) (answers : DeclId → Isolation) : Ledger → Prop :=
  Audited graph options answers (Justified graph options answers (verdictOn graph options answers))

variable {graph : Graph} {options : Options} {answers : DeclId → Isolation} {ledger : Ledger}

theorem OnRecord.mono {log longer : List AuditRecord} {type : TypeRef} {site : ModuleId}
    {reason : AuditReason} (recorded : OnRecord graph options answers log type site reason)
    (grows : log ⊆ longer) : OnRecord graph options answers longer type site reason where
  own asserted mentioned word := grows (recorded.own asserted mentioned word)
  fields id mentioned here leads record due :=
    grows (recorded.fields id mentioned here leads record due)

theorem Justified.of_warranted (record : AuditRecord)
    (warranted : Warranted graph options answers ∅ record) :
    Justified graph options answers (verdictOn graph options answers) record := by
  obtain ⟨here, ⟨found, isType, unaccepted, listed, ⟨typed, mentioned, word⟩⟩, tenable⟩ := warranted
  obtain rfl := Graph.id_of_decl? found
  have verdict := verdictOn_at_home found isType unaccepted (tenable_empty.mp tenable)
  exact .field found isType unaccepted verdict listed typed mentioned word

/-! ### Transferred values -/

theorem resultType?_eq_some {edge : CallEdge} {type : TypeRef} :
    resultType? graph edge = some type ↔ Returns graph edge type := by
  unfold resultType?
  cases declared : edge.result with
  | some result =>
    rw [Option.some_or]
    constructor
    · exact fun same => .declared (declared.trans same)
    · intro returns
      cases returns with
      | declared known => exact declared.symm.trans known
      | stored absent => simp [declared] at absent
  | none =>
    rw [Option.none_or]
    constructor
    · intro known
      split at known
      · rename_i found
        exact .stored declared found rfl known
      · cases known
    · intro returns
      cases returns with
      | declared known => simp [declared] at known
      | @stored callee _ found kind typed =>
        obtain ⟨id, name, calleeKind⟩ := callee
        cases kind
        simpa [found] using typed

theorem HandsOver.eq_transferred {edge : CallEdge} {values : List ValueRef}
    (hands : HandsOver graph edge values) : values = transferred graph edge := by
  cases hands with
  | giving returns found =>
    rw [transferred, resultType?_eq_some.mpr returns, Graph.nameOf, found]
    rfl
  | silent nothing =>
    have none : resultType? graph edge = none :=
      Option.eq_none_iff_forall_not_mem.mpr fun type mem => nothing type (resultType?_eq_some.mp mem)
    rw [transferred, none]
    exact (List.append_nil _).symm

theorem handsOver_transferred {edge : CallEdge} (listed : edge ∈ graph.edges) :
    HandsOver graph edge (transferred graph edge) := by
  obtain ⟨callee, found⟩ := Option.isSome_iff_exists.mp (Graph.callee_declared listed)
  cases known : resultType? graph edge with
  | some type =>
    have hands := HandsOver.giving (resultType?_eq_some.mp known) found
    exact hands.eq_transferred ▸ hands
  | none =>
    have hands : HandsOver graph edge _ :=
      .silent fun type returns => by simp [resultType?_eq_some.mpr returns] at known
    exact hands.eq_transferred ▸ hands

/-! ### Values -/

theorem judged_accounts {type : TypeRef} {site : ModuleId} {reason : AuditReason}
    {violation : Violation} {next : Sendability → Analysis (List Violation)}
    (sendable : next .sendable = pure []) (refused : next .notSendable = pure [violation])
    (byWord : next .uncheckedSendable = (do
      let asserted ← Walk.uncheckedAssertions graph type
      Analysis.auditAll (asserted.map (⟨·, reason⟩))
      return []))
    (justified : verdictOn graph options answers type site = .uncheckedSendable →
      ∀ asserted ∈ type.nominals, RestsOnWord graph answers asserted →
        Justified graph options answers (verdictOn graph options answers) ⟨asserted, reason⟩)
    (audited : InOrder graph options answers ledger) :
    Accounts answers (InOrder graph options answers) ledger
      (fun found after =>
        (verdictOn graph options answers type site = .notSendable → found = [violation]) ∧
        (verdictOn graph options answers type site ≠ .notSendable → found = [] ∧
          OnRecord graph options answers after.audit type site reason))
      (sendabilityFrom graph options type site >>= next) := by
  refine (Walk.sendabilityFrom_accounts Justified.of_warranted type site audited).bind ?_
  rintro verdict middle auditedMiddle - ⟨rfl, upheld⟩
  have fields (accepted : verdictOn graph options answers type site ≠ .notSendable) :
      ∀ id ∈ type.nominals, ∀ here,
        Relation.ReflTransGen (PointsTo graph options answers) ⟨id, site⟩ here →
          ∀ record, Due graph answers here record → record ∈ middle.audit :=
    fun id mentioned here leads record due => (upheld accepted id mentioned).reached leads record due
  cases verdict : verdictOn graph options answers type site with
  | sendable =>
    rw [sendable]
    refine .pure auditedMiddle ⟨by simp, fun _ => ⟨rfl, fun asserted mentioned word => ?_, ?_⟩⟩
    · exact absurd verdict (verdictOn_of_word mentioned word)
    · exact fields (by simp [verdict])
  | notSendable =>
    rw [refused]
    exact .pure auditedMiddle ⟨by simp, fun accepted => absurd rfl accepted⟩
  | uncheckedSendable =>
    -- The words for the type itself come on top of those that the walk has put on record.
    rw [byWord]
    refine (Accounts.of_yields (fun _ => Walk.uncheckedAssertions_yields type) auditedMiddle).bind ?_
    rintro asserted _ - - ⟨words, rfl⟩
    have allJustified : ∀ record ∈ asserted.map (⟨·, reason⟩),
        Justified graph options answers (verdictOn graph options answers) record := by
      intro record mem
      obtain ⟨id, listed, rfl⟩ := List.mem_map.mp mem
      obtain ⟨mentioned, word⟩ := (words id).mp listed
      exact justified verdict id mentioned word
    refine (auditedMiddle.auditAll allJustified).bind fun _ last auditedLast grows entered => ?_
    refine .pure auditedLast ⟨by simp, fun _ => ⟨rfl, fun id mentioned word => ?_, ?_⟩⟩
    · exact entered _ (List.mem_map.mpr ⟨id, (words id).mpr ⟨mentioned, word⟩, rfl⟩)
    · intro id mentioned here leads record due
      exact grows (fields (by simp [verdict]) id mentioned here leads record due)

/-! ### Calls -/

def violationAt (graph : Graph) (options : Options) (answers : DeclId → Isolation) (edge : CallEdge)
    (category : Category) (value : Option ValueRef) : Violation where
  category
  subject := .edge edge.id
  decl := edge.caller
  related := some edge.callee
  value
  source := (answers edge.caller).domain
  target := (answers edge.callee).domain
  span := edge.span.or (graph.spanOf? edge.caller)
  severity := options.mode.severity

open Classical in
noncomputable def demandedFor (graph : Graph) (options : Options) (answers : DeclId → Isolation)
    (edge : CallEdge) (value : ValueRef) : List Violation :=
  if LeadsToBad graph options answers value.type (options.moduleOf edge.caller) then
    [violationAt graph options answers edge .concurrentAccess (some value)]
  else []

open Classical in
/-- The violations that the rules demand at a call edge that hands over these values. A call that leaves
the caller's domain has to be one that the caller does not wait for in place. -/
noncomputable def demanded (graph : Graph) (options : Options) (answers : DeclId → Isolation)
    (edge : CallEdge) (values : List ValueRef) : List Violation :=
  if graph.Crosses answers edge then
    (if edge.suspends ∨ edge.kind = .spawn then []
      else [violationAt graph options answers edge .missingSuspension none]) ++
      values.flatMap (demandedFor graph options answers edge)
  else []

theorem subject_of_demanded {edge : CallEdge} {values : List ValueRef} {violation : Violation}
    (mem : violation ∈ demanded graph options answers edge values) :
    violation.subject = .edge edge.id := by
  unfold demanded at mem
  split at mem
  · rcases List.mem_append.mp mem with mem | mem
    · split at mem
      · cases mem
      · rw [List.mem_singleton.mp mem]
        rfl
    · obtain ⟨value, -, mem⟩ := List.mem_flatMap.mp mem
      unfold demandedFor at mem
      split at mem
      · rw [List.mem_singleton.mp mem]
        rfl
      · cases mem
  · cases mem

def EdgeOnRecord (graph : Graph) (options : Options) (answers : DeclId → Isolation)
    (verdict : TypeRef → ModuleId → Sendability) (log : List AuditRecord) (edge : CallEdge) : Prop :=
  graph.Crosses answers edge → ∀ values, HandsOver graph edge values → ∀ value ∈ values,
    verdict value.type (options.moduleOf edge.caller) ≠ .notSendable →
      OnRecord graph options answers log value.type (options.moduleOf edge.caller)
        (.transfer edge.id value.kind value.name)

theorem valueViolations_accounts {edge : CallEdge} {value : ValueRef} (listed : edge ∈ graph.edges)
    (crosses : graph.Crosses answers edge) (handed : value ∈ transferred graph edge)
    (audited : InOrder graph options answers ledger) :
    Accounts answers (InOrder graph options answers) ledger
      (fun found after => found = demandedFor graph options answers edge value ∧
        (verdictOn graph options answers value.type (options.moduleOf edge.caller) ≠ .notSendable →
          OnRecord graph options answers after.audit value.type (options.moduleOf edge.caller)
            (.transfer edge.id value.kind value.name)))
      (valueViolations graph options edge (answers edge.caller).domain (answers edge.callee).domain
        value) := by
  refine Accounts.imp (judged_accounts rfl rfl rfl
    (fun verdict _ mentioned word => .transfer listed crosses (handsOver_transferred listed) handed verdict
      mentioned word) audited) ?_
  rintro found after - - ⟨refused, accepted⟩
  refine ⟨?_, fun sends => (accepted sends).2⟩
  unfold demandedFor
  split
  · rename_i bad
    exact refused (leadsToBad_iff.mp bad)
  · rename_i clean
    exact (accepted (mt leadsToBad_iff.mpr clean)).1

theorem edgeViolations_accounts {edge : CallEdge} (listed : edge ∈ graph.edges)
    (audited : InOrder graph options answers ledger) :
    Accounts answers (InOrder graph options answers) ledger
      (fun found after => found = demanded graph options answers edge (transferred graph edge) ∧
        EdgeOnRecord graph options answers (verdictOn graph options answers) after.audit edge)
      (edgeViolations graph options edge) := by
  refine Accounts.tracked _ _ ?_
  refine (Accounts.of_yields (fun _ => Yields.domain edge.caller) audited).bind ?_
  rintro _ _ - - ⟨rfl, rfl⟩
  refine (Accounts.of_yields (fun _ => Yields.domain edge.callee) audited).bind ?_
  rintro _ _ - - ⟨rfl, rfl⟩
  split
  · rename_i leaves
    have crosses := Graph.crosses_iff.mp leaves
    have values := Accounts.forEach_exact (fun grows recorded accepted => (recorded accepted).mono grows)
      (fun value handed ledger audited => valueViolations_accounts listed crosses handed audited) audited
    refine values.bind ?_
    rintro _ after auditedAfter - ⟨rfl, recorded⟩
    have onRecord : EdgeOnRecord graph options answers (verdictOn graph options answers) after.audit
        edge := by
      intro _ values hands
      rw [hands.eq_transferred]
      exact recorded
    refine .pure auditedAfter ⟨?_, onRecord⟩
    rw [demanded, if_pos crosses]
    simp only [CallEdge.isAsynchronous, Bool.or_eq_true, decide_eq_true_eq]
    rfl
  · rename_i stays
    have stays := mt Graph.crosses_iff.mpr stays
    exact .pure audited ⟨by rw [demanded, if_neg stays], fun crosses => absurd crosses stays⟩

/-! ### Declarations -/

open Classical in
/-- Shared state must not have a type that leads to something bad, unless its author vouches for it. -/
noncomputable def demandedAt (graph : Graph) (options : Options) (answers : DeclId → Isolation)
    (decl : Declaration) : List Violation :=
  if Shared graph answers decl ∧ .nonisolatedUnsafe ∉ decl.annotations ∧ ∃ type,
      decl.type = some type ∧ LeadsToBad graph options answers type (options.moduleOf decl.id) then
    [declViolation options decl .unsafeSharedMutable none .nonisolated .nonisolated decl.span]
  else []

/-- The words that shared state relies on are on record: its author's, or those for its type. -/
structure DeclOnRecord (graph : Graph) (options : Options) (answers : DeclId → Isolation)
    (verdict : TypeRef → ModuleId → Sendability) (log : List AuditRecord) (decl : Declaration) :
    Prop where
  vouched : Shared graph answers decl → .nonisolatedUnsafe ∈ decl.annotations →
    ⟨decl.id, .nonisolatedUnsafe decl.id⟩ ∈ log
  typed : Shared graph answers decl → .nonisolatedUnsafe ∉ decl.annotations → ∀ type,
    decl.type = some type → verdict type (options.moduleOf decl.id) ≠ .notSendable →
      OnRecord graph options answers log type (options.moduleOf decl.id) (.sharedMutable decl.id)

theorem DeclOnRecord.mono {verdict : TypeRef → ModuleId → Sendability}
    {log longer : List AuditRecord} {decl : Declaration}
    (recorded : DeclOnRecord graph options answers verdict log decl) (grows : log ⊆ longer) :
    DeclOnRecord graph options answers verdict longer decl where
  vouched shared annotated := grows (recorded.vouched shared annotated)
  typed shared unannotated type known accepted :=
    (recorded.typed shared unannotated type known accepted).mono grows

theorem unshared_accounts {decl : Declaration} (unshared : ¬ Shared graph answers decl)
    (audited : InOrder graph options answers ledger) :
    Accounts answers (InOrder graph options answers) ledger
      (fun found after => found = demandedAt graph options answers decl ∧
        DeclOnRecord graph options answers (verdictOn graph options answers) after.audit decl)
      (pure []) := by
  refine .pure audited ⟨?_, fun shared => absurd shared unshared, fun shared => absurd shared unshared⟩
  rw [demandedAt, if_neg fun demand => unshared demand.1]

theorem sharedStateViolations_accounts {decl : Declaration} (shared : Shared graph answers decl)
    (audited : InOrder graph options answers ledger) :
    Accounts answers (InOrder graph options answers) ledger
      (fun found after => found = demandedAt graph options answers decl ∧
        DeclOnRecord graph options answers (verdictOn graph options answers) after.audit decl)
      (sharedStateViolations graph options decl .nonisolated) := by
  have annotated_iff : decl.isNonisolatedUnsafe = true ↔ .nonisolatedUnsafe ∈ decl.annotations := by
    simp [Declaration.isNonisolatedUnsafe]
  unfold sharedStateViolations
  split
  · rename_i vouched
    have annotated := annotated_iff.mp vouched
    refine (audited.audit (.nonisolatedUnsafe shared annotated)).bind
      fun _ after auditedAfter _ entered => ?_
    refine .pure auditedAfter ⟨?_, fun _ _ => entered, fun _ other => absurd annotated other⟩
    rw [demandedAt, if_neg fun demand => demand.2.1 annotated]
  · rename_i unvouched
    have unannotated := mt annotated_iff.mpr unvouched
    split
    · rename_i untyped
      refine .pure audited ⟨?_, fun _ other => absurd other unannotated, ?_⟩
      · rw [demandedAt, if_neg]
        rintro ⟨-, -, type, typed, -⟩
        simp [untyped] at typed
      · intro _ _ type typed
        simp [untyped] at typed
    · rename_i type typed
      refine Accounts.imp (judged_accounts rfl rfl rfl (fun verdict _ mentioned word =>
        .sharedMutable shared unannotated typed verdict mentioned word) audited) ?_
      rintro found after - - ⟨refused, accepted⟩
      refine ⟨?_, fun _ other => absurd other unannotated, ?_⟩
      · unfold demandedAt
        split
        · rename_i demand
          obtain ⟨-, -, other, otherTyped, bad⟩ := demand
          cases typed.symm.trans otherTyped
          exact refused (leadsToBad_iff.mp bad)
        · rename_i noDemand
          have clean : ¬ LeadsToBad graph options answers type (options.moduleOf decl.id) :=
            fun bad => noDemand ⟨shared, unannotated, type, typed, bad⟩
          exact (accepted (mt leadsToBad_iff.mpr clean)).1
      · intro _ _ other otherTyped sends
        cases typed.symm.trans otherTyped
        exact (accepted sends).2

theorem mutableViolations_accounts {decl : Declaration} (declared : decl ∈ graph.decls)
    (audited : InOrder graph options answers ledger) :
    Accounts answers (InOrder graph options answers) ledger
      (fun found after => found = demandedAt graph options answers decl ∧
        DeclOnRecord graph options answers (verdictOn graph options answers) after.audit decl)
      (mutableViolations graph options decl) := by
  unfold mutableViolations
  split
  · rename_i storage
    simp only [Bool.and_eq_true, decide_eq_true_eq] at storage
    refine (Accounts.of_yields (fun _ => Yields.domain decl.id) audited).bind ?_
    rintro _ _ - - ⟨rfl, rfl⟩
    split
    · rename_i isolated
      refine unshared_accounts (fun shared => ?_) audited
      simp [shared.unisolated, Domain.isIsolated] at isolated
    · rename_i free
      have unisolated : (answers decl.id).domain = .nonisolated := by
        cases domain : (answers decl.id).domain <;> simp [domain, Domain.isIsolated] at free ⊢
      refine (Accounts.of_yields (fun _ => isShared_yields decl) audited).bind ?_
      rintro isShared _ - - ⟨reachable, rfl⟩
      split
      · rename_i shared
        rw [unisolated]
        exact sharedStateViolations_accounts
          ⟨declared, storage.1, storage.2, unisolated, reachable.mp shared⟩ audited
      · rename_i unshared
        exact unshared_accounts (fun shared => unshared (reachable.mpr shared.reachable)) audited
  · rename_i other
    refine unshared_accounts (fun shared => other ?_) audited
    simp [shared.stored, shared.changes]

theorem atDecl_of_demandedAt {decl : Declaration} {violation : Violation}
    (mem : violation ∈ demandedAt graph options answers decl) : AtDecl violation := by
  unfold demandedAt at mem
  split at mem
  · rw [List.mem_singleton.mp mem]
    exact atDecl_declViolation
  · cases mem

/-! ### The whole graph -/

structure AllOnRecord (graph : Graph) (options : Options) (answers : DeclId → Isolation)
    (verdict : TypeRef → ModuleId → Sendability) (log : List AuditRecord) : Prop where
  decls : ∀ decl ∈ graph.decls, DeclOnRecord graph options answers verdict log decl
  edges : ∀ edge ∈ graph.edges, EdgeOnRecord graph options answers verdict log edge

theorem scan_accounts (audited : InOrder graph options answers ledger) :
    Accounts answers (InOrder graph options answers) ledger
      (fun found after => (∀ violation ∈ found, AtDecl violation) ∧ ∀ decl ∈ graph.decls,
        DeclOnRecord graph options answers (verdictOn graph options answers) after.audit decl)
      (scan graph options) := by
  have shared : Accounts answers (InOrder graph options answers) ledger _
      (sharedMutableViolations graph options) :=
    .forEach_exact (fun grows recorded => recorded.mono grows)
      (fun decl declared ledger audited => mutableViolations_accounts declared audited) audited
  refine Accounts.tracked _ _ (shared.bind ?_)
  rintro _ middle auditedMiddle - ⟨rfl, recorded⟩
  refine (Accounts.of_yields (fun _ => contractViolations_yields) auditedMiddle).bind ?_
  rintro contracts _ - - ⟨atContracts, rfl⟩
  refine (Accounts.of_yields (fun _ => defaultViolations_yields) auditedMiddle).bind ?_
  rintro defaults _ - - ⟨atDefaults, rfl⟩
  refine .pure auditedMiddle ⟨fun violation mem => ?_, recorded⟩
  rcases List.mem_append.mp mem with mem | mem
  · rcases List.mem_append.mp mem with mem | mem
    · obtain ⟨decl, -, demand⟩ := List.mem_flatMap.mp mem
      exact atDecl_of_demandedAt demand
    · exact atContracts violation mem
  · exact atDefaults violation mem

theorem violations_accounts (audited : InOrder graph options answers ledger) :
    Accounts answers (InOrder graph options answers) ledger
      (fun found after => (∃ atDecls, (∀ violation ∈ atDecls, AtDecl violation) ∧
          found = Violation.sort (atDecls ++ graph.edges.flatMap fun edge =>
            demanded graph options answers edge (transferred graph edge))) ∧
        AllOnRecord graph options answers (verdictOn graph options answers) after.audit)
      (violations graph options) := by
  refine (scan_accounts audited).bind ?_
  rintro atDecls middle auditedMiddle - ⟨declared, declsRecorded⟩
  have edges : Accounts answers (InOrder graph options answers) middle _
      (Analysis.forEach (edgeViolations graph options) graph.edges) :=
    .forEach_exact (fun grows recorded crosses values hands value handed accepted =>
        (recorded crosses values hands value handed accepted).mono grows)
      (fun edge listed ledger audited => edgeViolations_accounts listed audited) auditedMiddle
  refine edges.bind ?_
  rintro _ last auditedLast grows ⟨rfl, edgesRecorded⟩
  refine .pure auditedLast ⟨⟨atDecls, declared, rfl⟩, ?_, edgesRecorded⟩
  exact fun decl mem => (declsRecorded decl mem).mono grows

end Boundary

open Boundary in
theorem Pass.examination_accounts {graph : Graph} {options : Options} {answers : DeclId → Isolation}
    {ledger : Ledger} (audited : InOrder graph options answers ledger) :
    Analysis.Accounts answers (InOrder graph options answers) ledger
      (fun found after => (∃ atDecls, (∀ violation ∈ atDecls, AtDecl violation) ∧
          found.2 = Violation.sort (atDecls ++ graph.edges.flatMap fun edge =>
            demanded graph options answers edge (transferred graph edge))) ∧
        AllOnRecord graph options answers (UseSite.verdictOn graph options answers) after.audit)
      (examination graph options) := by
  -- The check of assertions asks for verdicts only, which keep the ledger in order.
  have verdicts (type : TypeRef) (site : ModuleId) : Analysis.Yields answers
      (fun after => InOrder graph options answers after ∧ ledger.audit ⊆ after.audit)
      (fun _ => True) (sendabilityFrom graph options type site) := by
    rintro start ⟨inOrder, grown⟩
    have accounts := Walk.sendabilityFrom_accounts Justified.of_warranted type site inOrder
    exact ⟨True.intro, accounts.kept, List.Subset.trans grown accounts.grows⟩
  refine (Analysis.Accounts.of_growing (conformanceIssues_yields verdicts) audited).bind
    fun issues middle auditedMiddle _ _ => ?_
  refine (violations_accounts auditedMiddle).bind fun found last auditedLast _ result => ?_
  exact .pure auditedLast result

end ActorIsolation
