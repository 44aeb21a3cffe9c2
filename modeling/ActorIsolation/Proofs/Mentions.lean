import ActorIsolation.Proofs.Acceptance
import ActorIsolation.Proofs.Declarations
import ActorIsolation.Proofs.Issues
import ActorIsolation.Proofs.Provenance
import ActorIsolation.Proofs.Vouching

/-! What a report mentions is there. Ids come into a report from annotations, extensions, options, types,
default values and calls. All of these are checked when the graph or the options are accepted, and what
the analyses do with them brings in no others.
-/

set_option autoImplicit false

namespace ActorIsolation

/-! ### What a report mentions -/

def Domain.actors : Domain → List DeclId
  | .nonisolated => []
  | .actorInstance actor | .globalActor actor => [actor]

def ResolutionIssueKind.candidates : ResolutionIssueKind → List DeclId
  | .cycle | .conflictingAnnotations => []
  | .ambiguousInference candidates => candidates

def SendableIssueKind.fields : SendableIssueKind → List DeclId
  | .subclassable => []
  | .nonSendableField field | .mutableField field => [field]

def AuditReason.mentioned : AuditReason → List DeclId
  | .transfer _ _ _ => []
  | .field owner stored => [owner, stored]
  | .sharedMutable decl | .nonisolatedUnsafe decl => [decl]

def AuditReason.calls : AuditReason → List EdgeId
  | .transfer edge _ _ => [edge]
  | .field _ _ | .sharedMutable _ | .nonisolatedUnsafe _ => []

def Subject.decls : Subject → List DeclId
  | .decl id => [id]
  | .edge _ => []

def Subject.calls : Subject → List EdgeId
  | .decl _ => []
  | .edge id => [id]

def Violation.mentioned (violation : Violation) : List DeclId :=
  violation.decl :: violation.subject.decls ++ violation.related.toList ++ violation.source.actors ++
    violation.target.actors ++ violation.value.toList.flatMap (·.type.nominals)

theorem Violation.mem_mentioned {violation : Violation} {id : DeclId} : id ∈ violation.mentioned ↔
    id = violation.decl ∨ id ∈ violation.subject.decls ∨ id ∈ violation.related ∨
      id ∈ violation.source.actors ∨ id ∈ violation.target.actors ∨
        ∃ value ∈ violation.value, id ∈ value.type.nominals := by
  simp only [mentioned, List.cons_append, List.mem_cons, List.mem_append, List.mem_flatMap,
    Option.mem_toList, Option.mem_def, or_assoc]

def ResolutionIssue.mentioned (issue : ResolutionIssue) : List DeclId :=
  issue.decl :: issue.kind.candidates

def SendableIssue.mentioned (issue : SendableIssue) : List DeclId := issue.type :: issue.kind.fields

def AuditRecord.mentioned (record : AuditRecord) : List DeclId :=
  record.asserted :: record.reason.mentioned

def Findings.mentioned (findings : Findings) : List DeclId :=
  findings.violations.flatMap (·.mentioned) ++ findings.resolutionIssues.flatMap (·.mentioned) ++
    findings.sendableIssues.flatMap (·.mentioned) ++ findings.audit.flatMap (·.mentioned)

def Findings.calls (findings : Findings) : List EdgeId :=
  findings.violations.flatMap (·.subject.calls) ++ findings.audit.flatMap (·.reason.calls)

def Resolution.mentioned (resolution : Resolution) : List DeclId :=
  resolution.entries.flatMap fun entry => entry.1 :: entry.2.domain.actors

def Report.mentioned (report : Report) : List DeclId :=
  report.resolution.mentioned ++ report.toFindings.mentioned

/-! ### Candidates -/

/-- The candidates among which a ruling cannot choose are global actors that it was told of. -/
def Ruling.Backed (answers : DeclId → Isolation) (ruling : Ruling) : Prop :=
  ∀ kind ∈ ruling.complaint, ∀ actor ∈ kind.candidates,
    ∃ next, (answers next).domain = .globalActor actor

namespace Rule

variable {graph : Graph} {options : Options} {answers : DeclId → Isolation} {decl : Declaration}

def Backed (answers : DeclId → Isolation) (rule : Rule) : Prop :=
  ∀ ruling ∈ rule.against answers, ruling.Backed answers

theorem skip_backed : Backed answers skip := by
  rintro ruling ⟨⟩

theorem decide_backed (domain : Domain) (origin : Origin) : Backed answers (decide domain origin) := by
  rintro ruling ⟨⟩ kind ⟨⟩

theorem electFrom_backed (origin : Origin) (ids : List DeclId) :
    Backed answers (electFrom origin ids) := by
  intro ruling elected kind complained actor mem
  simp only [electFrom, Inquiry.against_bind, Inquiry.pure_eq, Inquiry.against_done] at elected
  unfold Ruling.elect at elected
  split at elected
  · cases elected
  · cases elected
    cases complained
  · cases elected
    cases complained
    obtain ⟨next, -, domain⟩ := (mem_globalActors answers ids actor).mp (mem_of_mem_ascending mem)
    exact ⟨next, domain⟩

theorem explicit_backed : Backed answers (explicit decl) := by
  rcases explicit_cases decl with silent | ⟨mark, decided⟩ | conflict
  · rw [silent]
    exact skip_backed
  · rw [decided]
    exact decide_backed _ _
  · rw [conflict]
    rintro ruling ⟨⟩ kind ⟨⟩ actor mem
    cases mem

theorem closureContext_backed (inherits : Bool) : Backed answers (closureContext decl inherits) := by
  unfold closureContext
  split
  · rintro ruling ⟨⟩ kind ⟨⟩
  · exact skip_backed

theorem enclosingType_backed : Backed answers (enclosingType graph decl) := by
  unfold enclosingType
  split
  · exact skip_backed
  · intro ruling decided
    rw [Inquiry.against_bind] at decided
    split at decided
    · split at decided
      · exact decide_backed _ _ ruling decided
      · exact skip_backed ruling decided
    · exact skip_backed ruling decided

theorem rules_backed : ∀ rule ∈ rules graph options decl, Backed answers rule := by
  have actorType : Backed answers (actorType decl) := by
    unfold Rule.actorType
    split
    · exact decide_backed _ _
    · exact skip_backed
  have actorMember : Backed answers (actorMember graph decl) := by
    unfold Rule.actorMember
    split
    · split
      · exact decide_backed _ _
      · exact skip_backed
    · exact skip_backed
  have entryPoint : Backed answers (entryPoint options decl) := by
    unfold Rule.entryPoint
    split
    · split
      · exact decide_backed _ _
      · exact skip_backed
    · exact skip_backed
  have extensionAttribute : Backed answers (extensionAttribute graph decl) := by
    unfold Rule.extensionAttribute
    split
    · exact skip_backed
    · split
      · exact decide_backed _ _
      · exact skip_backed
  unfold rules
  refine List.forall_mem_cons.mpr ⟨explicit_backed, ?_⟩
  split
  · simp only [List.forall_mem_cons, List.not_mem_nil, false_imp_iff, implies_true, and_true]
    exact ⟨actorType, electFrom_backed _ _, electFrom_backed _ _⟩
  · exact List.forall_mem_singleton.mpr (closureContext_backed _)
  all_goals
    simp only [List.forall_mem_cons, List.not_mem_nil, false_imp_iff, implies_true, and_true]
    exact ⟨actorMember, entryPoint, extensionAttribute, enclosingType_backed, electFrom_backed _ _,
      electFrom_backed _ _⟩

theorem firstOf_backed {rules : List Rule} (each : ∀ rule ∈ rules, Backed answers rule) :
    ((firstOf rules).against answers).Backed answers := by
  induction rules with
  | nil => rintro kind ⟨⟩
  | cons rule rest ih =>
    obtain ⟨first, others⟩ := List.forall_mem_cons.mp each
    cases said : rule.against answers with
    | none => simpa [firstOf, said] using ih others
    | some ruling => simpa [firstOf, said] using first ruling said

end Rule

section

variable {graph : Graph} {options : Options} {settled : IsolationTable} {path : List DeclId}
  {id actor : DeclId} {state : Solving}

def Solving.Backed (settled : IsolationTable) (state : Solving) : Prop :=
  ∀ issue ∈ state.issues, ∀ actor ∈ issue.kind.candidates,
    ∃ entry ∈ state.found ++ settled, entry.2.domain = .globalActor actor

theorem lookUp_backed (backed : state.Backed settled) :
    (lookUp graph options settled path id state).2.Backed settled := by
  refine @lookUp_keeps graph options settled path id state (·.Backed settled) []
    (fun _ _ backed => backed) (fun _ _ backed => backed) ?_ (List.nil_subset _) backed
  intro path id decl state _ _ found _ _ attempted after issue mem actor candidate
  obtain ⟨isolation, -, entries, -⟩ := attempted.2.conclude_spec id attempted.1
  rw [entries, List.cons_append]
  rw [(attempted.2.conclude_complaints id attempted.1).1] at mem
  rcases List.mem_append.mp mem with before | mem
  · obtain ⟨entry, known, domain⟩ := after issue before actor candidate
    exact ⟨entry, List.mem_cons_of_mem _ known, domain⟩
  · obtain ⟨kind, complained, rfl⟩ := List.mem_map.mp mem
    rcases List.mem_append.mp complained with complained | cyclic
    · -- The ruling is that of the rules when nothing but what is known has an answer.
      obtain ⟨ruling, ended, complaint⟩ := Option.bind_eq_some_iff.mp (Option.mem_toList.mp complained)
      let answers (other : DeclId) : Isolation := (attempted.2.known? settled other).getD .fallback
      have agrees : attempted.2.Agrees settled answers := by
        intro other isolation known
        simp only [answers, known, Option.getD_some]
      have declared : ∀ other ∈ decl.dependencies, (graph.decl? other).isSome :=
        fun other => Graph.dependency_declared (Graph.mem_of_decl? found)
      have ruled := consult_against (ruling_asksOnly graph options decl) declared ended agrees
      have backed : ruling.Backed answers := ruled ▸ Rule.firstOf_backed Rule.rules_backed
      obtain ⟨next, domain⟩ := backed kind complaint actor candidate
      cases known : attempted.2.known? settled next with
      | none => simp [answers, known, Isolation.fallback, Isolation.nonisolated] at domain
      | some before =>
        simp only [answers, known, Option.getD_some] at domain
        exact ⟨(next, before), List.mem_cons_of_mem _ (Solving.mem_of_known known), domain⟩
    · split at cyclic
      · rw [List.mem_singleton.mp cyclic] at candidate
        cases candidate
      · cases cyclic

theorem solution_backed (graph : Graph) (options : Options) (index : Nat) :
    (solution graph options index).Backed (settledBelow graph options index) := by
  unfold solution solveAt
  split
  · exact solveComponent_keeps (fun _ _ _ => lookUp_backed) (fun _ _ backed => backed)
      (by simp [Solving.Backed])
  · simp [Solving.Backed]

theorem candidate_resolved {issue : ResolutionIssue} (mem : issue ∈ (graph.resolution options).issues)
    (candidate : actor ∈ issue.kind.candidates) :
    ∃ next, ((graph.resolution options).isolation next).domain = .globalActor actor := by
  rw [Graph.resolution, mem_ascending Rank.delimited_issue.injective, List.mem_flatMap] at mem
  obtain ⟨index, bound, mem⟩ := mem
  obtain ⟨entry, known, domain⟩ := solution_backed graph options index issue mem actor candidate
  refine ⟨entry.1, ?_⟩
  -- What a component can see are its own entries and those of the components before it.
  have listed : entry ∈ (graph.resolution options).entries := by
    rw [(entries_perm graph options).mem_iff]
    rw [settledBelow_eq] at known
    have below : index < graph.plan.size := List.mem_range.mp bound
    rcases List.mem_append.mp known with here | before
    · exact List.mem_flatMap.mpr ⟨index, bound, here⟩
    · obtain ⟨earlier, less, there⟩ := List.mem_flatMap.mp before
      have less : earlier < index := by simpa using less
      exact List.mem_flatMap.mpr ⟨earlier, List.mem_range.mpr (by omega), there⟩
  rw [isolation_of_mem listed, domain]

end

/-! ### Actors -/

section

variable {graph : Graph} {options : Options} {id actor : DeclId} {decl : Declaration}

theorem Graph.declares_of_mem (declared : decl ∈ graph.decls) : graph.Declares decl.id :=
  ⟨decl, declared, rfl⟩

theorem Graph.declares_of_decl? (found : graph.decl? id = some decl) : graph.Declares id :=
  ⟨decl, mem_of_decl? found, id_of_decl? found⟩

theorem Graph.referred_declared (declared : decl ∈ graph.decls) {role : Role}
    (refers : decl.RefersTo role id) : graph.Declares id :=
  graph.wellFormed.resolves _ role id (.decl declared refers)

theorem Graph.call_declares {edge : CallEdge} (listed : edge ∈ graph.edges) {role : Role}
    (refers : edge.RefersTo role id) : graph.Declares id :=
  graph.wellFormed.resolves _ role id (.edge listed refers)

theorem Graph.nominal_declared (declared : decl ∈ graph.decls) {type : TypeRef}
    (typed : decl.type = some type) (mentioned : id ∈ type.nominals) : graph.Declares id :=
  referred_declared declared (.type typed (TypeRef.mem_nominals.mp mentioned))

theorem Options.entryPoint_declared (accepted : options.validate graph = .ok ())
    (configured : options.entryPointActor = some actor) : graph.Declares actor := by
  unfold Options.validate at accepted
  rw [configured] at accepted
  dsimp only at accepted
  split at accepted
  · cases accepted
  · rename_i decl found
    exact Graph.declares_of_decl? found

theorem Declaration.Rooted.declared {isolation : Isolation} (accepted : options.validate graph = .ok ())
    (declared : decl ∈ graph.decls) (rooted : decl.Rooted graph options isolation)
    (mem : actor ∈ isolation.domain.actors) : graph.Declares actor := by
  cases rooted with
  | named written =>
    cases List.mem_singleton.mp mem
    exact Graph.referred_declared declared (.globalActor written)
  | parameter written =>
    cases List.mem_singleton.mp mem
    exact Graph.referred_declared declared (.isolatedParameter written)
  | globalActor | actor =>
    cases List.mem_singleton.mp mem
    exact Graph.declares_of_mem declared
  | storage inside | member inside =>
    cases List.mem_singleton.mp mem
    exact Graph.declares_of_mem inside.declared
  | extension _ listed named =>
    cases List.mem_singleton.mp mem
    exact graph.wellFormed.resolves _ _ _ (.extension listed (.actor named))
  | entryPoint _ configured =>
    cases List.mem_singleton.mp mem
    exact Options.entryPoint_declared accepted configured

/-- The actor of a chain is declared, since its end names it. -/
theorem Traced.declared {entries : IsolationTable} {domain : Domain} {chain : List Declaration}
    (accepted : options.validate graph = .ok ()) (traced : Traced graph options entries domain chain)
    (mem : actor ∈ domain.actors) : graph.Declares actor := by
  induction traced with
  | root declared _ same rooted => exact rooted.declared accepted declared (same ▸ mem)
  | step _ _ _ _ _ ih => exact ih

theorem resolution_actor_declared (accepted : options.validate graph = .ok ())
    (mem : actor ∈ ((graph.resolution options).isolation id).domain.actors) : graph.Declares actor := by
  unfold Resolution.isolation at mem
  cases found : (graph.resolution options).get? id with
  | none =>
    -- The fallback is nonisolated and names no actor.
    rw [found] at mem
    cases mem
  | some isolation =>
    rw [found, Option.getD_some] at mem
    have isolated : isolation.domain.isIsolated := by
      cases domain : isolation.domain with
      | nonisolated =>
        rw [domain] at mem
        cases mem
      | actorInstance | globalActor => rfl
    obtain ⟨decl, rest, -, traced⟩ := resolution_traced graph options _ (mem_of_lookup found) isolated
    exact traced.declared accepted mem

end

/-! ### Findings -/

namespace Pass

open Boundary UseSite

variable {graph : Graph} {options : Options} {id : DeclId} {violation : Violation}

theorem context_declared (accepted : options.validate graph = .ok ()) {owner : Declaration}
    {context : Domain} (evaluated : context ∈ contextsOf graph (graph.resolution options).isolation owner)
    (mem : id ∈ context.actors) : graph.Declares id := by
  unfold contextsOf at evaluated
  split at evaluated
  · rw [List.mem_singleton] at evaluated
    cases domain : ((graph.resolution options).isolation owner.id).domain with
    | globalActor actor =>
      rw [evaluated, domain] at mem
      exact resolution_actor_declared accepted (by rw [domain]; exact mem)
    | nonisolated | actorInstance =>
      rw [evaluated, domain] at mem
      cases mem
  · obtain ⟨initializer, -, rfl⟩ := List.mem_map.mp (mem_of_mem_ascending evaluated)
    exact resolution_actor_declared accepted mem

theorem transferred_declared {edge : CallEdge} (listed : edge ∈ graph.edges) {value : ValueRef}
    (handed : value ∈ transferred graph edge) (mem : id ∈ value.type.nominals) : graph.Declares id := by
  have mentions := TypeRef.mem_nominals.mp mem
  simp only [transferred, List.mem_append, List.mem_map, Option.mem_toList] at handed
  rcases handed with (⟨transfer, given, rfl⟩ | ⟨transfer, given, rfl⟩) | ⟨type, returned, rfl⟩
  · exact Graph.call_declares listed (.argument given mentions)
  · exact Graph.call_declares listed (.capture given mentions)
  · cases resultType?_eq_some.mp returned with
    | declared result => exact Graph.call_declares listed (.result result mentions)
    | stored _ found _ typed => exact Graph.nominal_declared (Graph.mem_of_decl? found) typed mem

inductive Occurs (graph : Graph) (options : Options) (answers : DeclId → Isolation) : Violation → Prop
  | shared {decl : Declaration} (declared : decl ∈ graph.decls) :
    Occurs graph options answers
      (declViolation options decl .unsafeSharedMutable none .nonisolated .nonisolated decl.span)
  | contract {decl : Declaration} {target : DeclId} (declared : decl ∈ graph.decls)
      (named : target ∈ decl.satisfies ++ decl.overrides) :
    Occurs graph options answers (mismatchWith options answers decl target)
  | evaluation {decl owner : Declaration} {value : DefaultValue} {reference : DeclId} {context : Domain}
      (declared : decl ∈ graph.decls) (given : decl.defaultValue = some value)
      (listed : reference ∈ value.references) (evaluated : context ∈ contextsOf graph answers owner) :
    Occurs graph options answers
      (unsafeDefault options answers decl (value.span.or decl.span) reference context)
  | call {edge : CallEdge} (listed : edge ∈ graph.edges) :
    Occurs graph options answers
      (violationAt graph options answers edge .missingSuspension none)
  | transfer {edge : CallEdge} {value : ValueRef} (listed : edge ∈ graph.edges)
      (handed : value ∈ transferred graph edge) :
    Occurs graph options answers
      (violationAt graph options answers edge .concurrentAccess (some value))

theorem violation_occurs (found : violation ∈ (findings graph options).violations) :
    Occurs graph options (graph.resolution options).isolation violation := by
  rw [(violations_perm graph options).mem_iff] at found
  simp only [List.mem_append, List.mem_flatMap] at found
  rcases found with ((⟨decl, declared, found⟩ | ⟨decl, declared, found⟩) | ⟨decl, declared, found⟩) |
    ⟨edge, listed, found⟩
  · rw [demandedAt_of_mem found]
    exact .shared declared
  · obtain ⟨target, named, -, rfl⟩ := mismatch_of_mem found
    exact .contract declared named
  · obtain ⟨value, owner, given, -, reference, listed, context, evaluated, rfl⟩ :=
      unsafeDefault_of_mem found
    exact .evaluation declared given listed evaluated
  · obtain ⟨category, value, ⟨rfl, rfl⟩ | ⟨rfl, handed, given, rfl⟩, rfl⟩ := demanded_of_mem found
    · exact .call listed
    · exact .transfer listed given

theorem violation_declared (accepted : options.validate graph = .ok ())
    (found : violation ∈ (findings graph options).violations) (mem : id ∈ violation.mentioned) :
    graph.Declares id := by
  have isolated {next : DeclId} := @resolution_actor_declared graph options next id accepted
  rw [Violation.mem_mentioned] at mem
  cases violation_occurs found with
  | shared declared =>
    rcases mem with rfl | subject | ⟨⟨⟩⟩ | ⟨⟨⟩⟩ | ⟨⟨⟩⟩ | ⟨_, ⟨⟩, _⟩
    · exact Graph.declares_of_mem declared
    · rw [List.mem_singleton.mp subject]
      exact Graph.declares_of_mem declared
  | contract declared named =>
    rcases mem with rfl | subject | ⟨⟨⟩⟩ | expected | witness | ⟨_, ⟨⟩, _⟩
    · exact Graph.declares_of_mem declared
    · rw [List.mem_singleton.mp subject]
      exact Graph.declares_of_mem declared
    · refine (List.mem_append.mp named).elim (fun required => ?_) fun overridden => ?_
      · exact Graph.referred_declared declared (.requirement required)
      · exact Graph.referred_declared declared (.overridden overridden)
    · exact isolated expected
    · exact isolated witness
  | evaluation declared given listed evaluated =>
    rcases mem with rfl | subject | ⟨⟨⟩⟩ | evaluating | needed | ⟨_, ⟨⟩, _⟩
    · exact Graph.declares_of_mem declared
    · rw [List.mem_singleton.mp subject]
      exact Graph.declares_of_mem declared
    · exact Graph.referred_declared declared (.defaultReference given listed)
    · exact context_declared accepted evaluated evaluating
    · exact isolated needed
  | call listed =>
    rcases mem with rfl | ⟨⟨⟩⟩ | ⟨⟨⟩⟩ | caller | callee | ⟨_, ⟨⟩, _⟩
    · exact Graph.call_declares listed .caller
    · exact Graph.call_declares listed .callee
    · exact isolated caller
    · exact isolated callee
  | transfer listed handed =>
    rcases mem with rfl | ⟨⟨⟩⟩ | ⟨⟨⟩⟩ | caller | callee | ⟨_, ⟨⟩, mentioned⟩
    · exact Graph.call_declares listed .caller
    · exact Graph.call_declares listed .callee
    · exact isolated caller
    · exact isolated callee
    · exact transferred_declared listed handed mentioned

theorem issue_mentioned_declared (accepted : options.validate graph = .ok ()) {issue : ResolutionIssue}
    (found : issue ∈ (graph.resolution options).issues) (mem : id ∈ issue.mentioned) :
    graph.Declares id := by
  rcases List.mem_cons.mp mem with rfl | candidate
  · exact Draft.decl?_isSome.mp (issue_declared found)
  · obtain ⟨next, domain⟩ := candidate_resolved found candidate
    refine @resolution_actor_declared graph options next id accepted ?_
    rw [domain]
    exact List.mem_singleton_self _

theorem sendableIssue_declared {issue : SendableIssue}
    (found : issue ∈ (findings graph options).sendableIssues) (mem : id ∈ issue.mentioned) :
    graph.Declares id := by
  obtain ⟨listed, sorted, enumerates⟩ := sendableIssues_sorted graph options
  rw [sorted, ActorIsolation.sorted, (sortOn_perm rank listed).mem_iff, enumerates.mem_iff] at found
  obtain ⟨decl, declared, type, -, -, -, fails⟩ := found
  rcases List.mem_cons.mp mem with rfl | field
  · exact type ▸ Graph.declares_of_mem declared
  · cases kind : issue.kind with
    | subclassable =>
      rw [kind] at field
      cases field
    | nonSendableField | mutableField =>
      rw [kind] at fails field
      obtain rfl := List.mem_singleton.mp field
      cases fails with
      | field counted fault =>
        cases fault
        exact Graph.declares_of_mem counted.listed.declared

theorem record_declared {record : AuditRecord} (found : record ∈ (findings graph options).audit)
    (mem : id ∈ record.mentioned) : graph.Declares id := by
  have asserts {asserted : DeclId} {answers : DeclId → Isolation}
      (word : RestsOnWord graph answers asserted) : graph.Declares asserted := by
    obtain ⟨decl, found, -⟩ := word
    exact Graph.declares_of_decl? found
  obtain ⟨-, -, justified, -⟩ := findings_spec graph options
  cases justified record found with
  | field owner _ _ _ counted _ _ word =>
    simp only [AuditRecord.mentioned, AuditReason.mentioned, List.mem_cons, List.not_mem_nil,
      or_false] at mem
    rcases mem with rfl | rfl | rfl
    · exact asserts word
    · exact Graph.declares_of_decl? owner
    · exact Graph.declares_of_mem counted.listed.declared
  | transfer _ _ _ _ _ _ word =>
    obtain rfl := List.mem_singleton.mp mem
    exact asserts word
  | sharedMutable shared _ _ _ _ word =>
    rcases List.mem_cons.mp mem with rfl | mem
    · exact asserts word
    · rw [List.mem_singleton.mp mem]
      exact Graph.declares_of_mem shared.declared
  | nonisolatedUnsafe shared =>
    rcases List.mem_cons.mp mem with rfl | mem
    · exact Graph.declares_of_mem shared.declared
    · rw [List.mem_singleton.mp mem]
      exact Graph.declares_of_mem shared.declared

theorem findings_declared (accepted : options.validate graph = .ok ())
    (mem : id ∈ (findings graph options).mentioned) : graph.Declares id := by
  simp only [Findings.mentioned, List.mem_append, List.mem_flatMap] at mem
  rcases mem with ((⟨violation, found, mem⟩ | ⟨issue, found, mem⟩) | ⟨issue, found, mem⟩) |
    ⟨record, found, mem⟩
  · exact violation_declared accepted found mem
  · exact issue_mentioned_declared accepted found mem
  · exact sendableIssue_declared found mem
  · exact record_declared found mem

theorem calls_listed {call : EdgeId} (mem : call ∈ (findings graph options).calls) :
    ∃ edge ∈ graph.edges, edge.id = call := by
  simp only [Findings.calls, List.mem_append, List.mem_flatMap] at mem
  rcases mem with ⟨violation, found, mem⟩ | ⟨record, found, mem⟩
  · cases violation_occurs found with
    | shared | contract | evaluation => cases mem
    | call listed | transfer listed => exact ⟨_, listed, (List.mem_singleton.mp mem).symm⟩
  · obtain ⟨-, -, justified, -⟩ := findings_spec graph options
    cases justified record found with
    | transfer listed => exact ⟨_, listed, (List.mem_singleton.mp mem).symm⟩
    | field | sharedMutable | nonisolatedUnsafe => cases mem

end Pass

theorem Resolution.mentioned_declared {graph : Graph} {options : Options} {id : DeclId}
    (accepted : options.validate graph = .ok ())
    (mem : id ∈ (graph.resolution options).mentioned) : graph.Declares id := by
  obtain ⟨entry, listed, mem⟩ := List.mem_flatMap.mp mem
  rcases List.mem_cons.mp mem with rfl | actor
  · exact Draft.decl?_isSome.mp (mem_keys_resolution.mp (List.mem_map.mpr ⟨entry, listed, rfl⟩))
  · refine @resolution_actor_declared graph options entry.1 id accepted ?_
    rwa [isolation_of_mem listed]

end ActorIsolation
