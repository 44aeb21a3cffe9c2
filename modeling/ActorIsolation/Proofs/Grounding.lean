import ActorIsolation.Proofs.Surroundings

/-! Reports stay within their graph. All that a report mentions is declared, every question on the way to
it is answered from the resolution, and the diagnostics look up what the report mentions and nothing else.
What is said of an id that is not declared never matters.
-/

set_option autoImplicit false

namespace ActorIsolation

/-! ### Diagnostics -/

namespace Rendering

variable {graph other : Graph} {options : Options} {id : DeclId}

theorem nameOf_congr (same : other.decl? id = graph.decl? id) : nameOf other id = nameOf graph id := by
  simp only [nameOf, Graph.nameOf, same]

theorem spanOf_congr (same : other.decl? id = graph.decl? id) : spanOf other id = spanOf graph id := by
  simp only [spanOf, Graph.spanOf?, same]

theorem labelAt_congr (same : other.decl? id = graph.decl? id) : labelAt other id = labelAt graph id := by
  funext message
  simp only [labelAt, Graph.spanOf?, same]

theorem domain_congr {domain : Domain}
    (same : ∀ actor ∈ domain.actors, other.decl? actor = graph.decl? actor) :
    Rendering.domain other domain = Rendering.domain graph domain := by
  cases domain with
  | nonisolated => rfl
  | actorInstance actor =>
    exact congrArg (fun name => s!"isolated to an instance of {name}")
      (nameOf_congr (same actor List.mem_cons_self))
  | globalActor actor =>
    exact congrArg (fun name => s!"isolated to global actor {name}")
      (nameOf_congr (same actor List.mem_cons_self))

theorem ofViolation_congr {violation : Violation}
    (same : ∀ id ∈ violation.mentioned, other.decl? id = graph.decl? id) :
    ofViolation other violation = ofViolation graph violation := by
  have source : Rendering.domain other violation.source = Rendering.domain graph violation.source :=
    domain_congr fun actor mem => same actor (by simp [Violation.mem_mentioned, mem])
  have target : Rendering.domain other violation.target = Rendering.domain graph violation.target :=
    domain_congr fun actor mem => same actor (by simp [Violation.mem_mentioned, mem])
  have subject := nameOf_congr (same violation.decl (by simp [Violation.mem_mentioned]))
  have names : related other violation = related graph violation := by
    unfold related
    cases named : violation.related with
    | none => rfl
    | some id => exact nameOf_congr (same id (by simp [Violation.mem_mentioned, named]))
  have labels : relatedLabels other violation = relatedLabels graph violation := by
    unfold relatedLabels
    cases named : violation.related with
    | none => cases relatedRole? violation.category <;> rfl
    | some id =>
      have known := same id (by simp [Violation.mem_mentioned, named])
      cases relatedRole? violation.category with
      | none => rfl
      | some role => simp only [nameOf_congr known, labelAt_congr known]
  have message : violationMessage other violation = violationMessage graph violation := by
    simp only [violationMessage, source, target, subject, names]
  simp only [ofViolation, message, labels]

theorem ofResolutionIssue_congr (severity : Severity) {issue : ResolutionIssue}
    (same : ∀ id ∈ issue.mentioned, other.decl? id = graph.decl? id) :
    ofResolutionIssue other severity issue = ofResolutionIssue graph severity issue := by
  have about := same issue.decl List.mem_cons_self
  unfold ofResolutionIssue
  rw [nameOf_congr about, spanOf_congr about]
  cases kind : issue.kind with
  | cycle | conflictingAnnotations => rfl
  | ambiguousInference candidates =>
    have known : ∀ actor ∈ candidates, other.decl? actor = graph.decl? actor := fun actor mem =>
      same actor (List.mem_cons_of_mem _ (by simpa [kind, ResolutionIssueKind.candidates] using mem))
    have names : candidates.map (nameOf other) = candidates.map (nameOf graph) :=
      List.map_congr_left fun actor mem => nameOf_congr (known actor mem)
    have labels : candidates.flatMap (labelAt other · "candidate global actor") =
        candidates.flatMap (labelAt graph · "candidate global actor") :=
      List.flatMap_congr fun actor mem => congrFun (labelAt_congr (known actor mem)) _
    simp only [names, labels]

theorem ofSendableIssue_congr (severity : Severity) {issue : SendableIssue}
    (same : ∀ id ∈ issue.mentioned, other.decl? id = graph.decl? id) :
    ofSendableIssue other severity issue = ofSendableIssue graph severity issue := by
  have about := same issue.type List.mem_cons_self
  unfold ofSendableIssue
  rw [nameOf_congr about, spanOf_congr about]
  cases kind : issue.kind with
  | subclassable => rfl
  | nonSendableField field | mutableField field =>
    have known := same field (List.mem_cons_of_mem _ (by simp [kind, SendableIssueKind.fields]))
    simp only [nameOf_congr known, labelAt_congr known]

theorem ofAudit_congr {record : AuditRecord}
    (same : ∀ id ∈ record.mentioned, other.decl? id = graph.decl? id)
    (calls : ∀ call ∈ record.reason.calls,
      other.edges.find? (·.id = call) = graph.edges.find? (·.id = call)) :
    ofAudit other record = ofAudit graph record := by
  have asserted := same record.asserted List.mem_cons_self
  unfold ofAudit
  rw [nameOf_congr asserted, labelAt_congr asserted]
  cases reason : record.reason with
  | transfer edge value name =>
    have call := calls edge (by simp [reason, AuditReason.calls])
    simp only [edgeSpan, call]
  | field owner field =>
    have own := same owner (List.mem_cons_of_mem _ (by simp [reason, AuditReason.mentioned]))
    have stored := same field (List.mem_cons_of_mem _ (by simp [reason, AuditReason.mentioned]))
    simp only [nameOf_congr own, nameOf_congr stored, spanOf_congr stored]
  | sharedMutable decl | nonisolatedUnsafe decl =>
    have known := same decl (List.mem_cons_of_mem _ (by simp [reason, AuditReason.mentioned]))
    simp only [nameOf_congr known, spanOf_congr known]

end Rendering

/-- Diagnostics look up what the findings mention, and nothing else. -/
theorem Findings.diagnostics_congr {findings : Findings} {graph other : Graph} (options : Options)
    (decls : ∀ id ∈ findings.mentioned, other.decl? id = graph.decl? id)
    (calls : ∀ call ∈ findings.calls,
      other.edges.find? (·.id = call) = graph.edges.find? (·.id = call)) :
    findings.diagnostics other options = findings.diagnostics graph options := by
  simp only [mentioned, List.mem_append, List.mem_flatMap] at decls
  simp only [Findings.calls, List.mem_append, List.mem_flatMap] at calls
  have violations : (findings.violations.filter (!options.isSuppressed ·.category)).map
      (Rendering.ofViolation other) = (findings.violations.filter (!options.isSuppressed ·.category)).map
        (Rendering.ofViolation graph) := by
    refine List.map_congr_left fun violation mem => Rendering.ofViolation_congr fun id mentioned => ?_
    exact decls id (.inl (.inl (.inl ⟨violation, (List.mem_filter.mp mem).1, mentioned⟩)))
  have issues (severity : Severity) :
      findings.resolutionIssues.map (Rendering.ofResolutionIssue other severity) =
        findings.resolutionIssues.map (Rendering.ofResolutionIssue graph severity) := by
    refine List.map_congr_left fun issue mem => Rendering.ofResolutionIssue_congr severity ?_
    exact fun id mentioned => decls id (.inl (.inl (.inr ⟨issue, mem, mentioned⟩)))
  have sendable (severity : Severity) :
      findings.sendableIssues.map (Rendering.ofSendableIssue other severity) =
        findings.sendableIssues.map (Rendering.ofSendableIssue graph severity) := by
    refine List.map_congr_left fun issue mem => Rendering.ofSendableIssue_congr severity ?_
    exact fun id mentioned => decls id (.inl (.inr ⟨issue, mem, mentioned⟩))
  have records : findings.audit.map (Rendering.ofAudit other) =
      findings.audit.map (Rendering.ofAudit graph) := by
    refine List.map_congr_left fun record mem => Rendering.ofAudit_congr ?_ ?_
    · exact fun id mentioned => decls id (.inr ⟨record, mem, mentioned⟩)
    · exact fun call named => calls call (.inr ⟨record, mem, named⟩)
  simp only [diagnostics, violations, issues, sendable, records]

/-! ### Reports -/

/-- The graph itself accounts for all that the report mentions, for all that was asked about isolation and
for all the types that were looked at. -/
structure Report.Closed (graph : Graph) (options : Options) (report : Report) : Prop where
  named : ∀ id ∈ report.mentioned, ∃ decl ∈ graph.decls, decl.id = id ∧ graph.nameOf id = decl.name
  calls : ∀ id ∈ report.toFindings.calls, ∃ edge ∈ graph.edges, edge.id = id
  ruled : ∀ decl ∈ graph.decls,
    (decl.ruling graph options).AsksOnly fun id => (report.resolution.get? id).isSome
  examined : ∀ ledger, (StateT.run (Pass.examination graph options) ledger).AsksOnly
    fun id => (report.resolution.get? id).isSome
  typed : ∀ decl ∈ graph.decls, ∀ type ∈ decl.type, graph.Spells type
  handedOver : ∀ edge ∈ graph.edges, ∀ values, Boundary.HandsOver graph edge values →
    ∀ value ∈ values, graph.Spells value.type

/-- In a larger graph, whatever is declared there, the declarations of this one are resolved as reported,
the examination of its declarations and calls finds what is reported, and this is put into the same words. -/
structure Report.SameWithin (graph whole : Graph) (options : Options) (report : Report) : Prop where
  resolved : ∀ id, graph.Declares id →
    (Resolver.byLevels whole options).snapshot.get? id = report.resolution.get? id
  complained : ∀ issue, graph.Declares issue.decl →
    (issue ∈ (Resolver.byLevels whole options).snapshot.issues ↔ issue ∈ report.resolutionIssues)
  found : ∃ ledger, (Pass.examinationIn whole graph options).against
      (Resolver.byLevels whole options).snapshot.isolation {} =
        ((report.sendableIssues, report.violations), ledger) ∧ ledger.audit = report.audit
  rendered : report.toFindings.diagnostics whole options = report.toFindings.diagnostics graph options

section

variable {graph whole : Graph} {options : Options} {report : Report}

theorem resolution_answers : ∀ id, graph.Declares id → ((graph.resolution options).get? id).isSome := by
  intro id declared
  rw [Resolution.get?, lookup_isSome, mem_keys_resolution]
  exact Draft.decl?_isSome.mpr declared

theorem report_closed (accepted : options.validate graph = .ok ())
    (findings : report.toFindings = Pass.findings graph options)
    (resolution : report.resolution = graph.resolution options) : report.Closed graph options where
  named id mem := by
    have declared : graph.Declares id := by
      rw [Report.mentioned, findings, resolution] at mem
      exact (List.mem_append.mp mem).elim (Resolution.mentioned_declared accepted)
        (Pass.findings_declared accepted)
    obtain ⟨decl, declared, rfl⟩ := declared
    exact ⟨decl, declared, rfl, by simp only [Graph.nameOf, Graph.decl?_of_mem declared]⟩
  calls call mem := by
    rw [findings] at mem
    exact Pass.calls_listed mem
  ruled decl declared := by
    rw [resolution]
    refine (ruling_asksOnly graph options decl).imp fun id dependency => resolution_answers id ?_
    exact Draft.decl?_isSome.mp (Graph.dependency_declared declared dependency)
  examined ledger := by
    rw [resolution]
    exact ((Pass.examination_grounded (.refl graph) options).asks ledger).imp resolution_answers
  typed decl declared type given id := Graph.nominal_declared declared given
  handedOver edge listed values hands value handed id :=
    Pass.transferred_declared listed (hands.eq_transferred ▸ handed)

theorem report_sameWithin (closed : report.Closed graph options)
    (findings : report.toFindings = Pass.findings graph options)
    (resolution : report.resolution = graph.resolution options) (part : graph.PartOf whole) :
    report.SameWithin graph whole options := by
  have isolation : ∀ id, graph.Declares id →
      (graph.resolution options).isolation id = (whole.resolution options).isolation id := by
    intro id declared
    rw [Resolution.isolation, Resolution.isolation, part.isolation declared]
  have grounded := Pass.examination_grounded part options
  refine
    { resolved := fun id declared => ?_
      complained := fun issue declared => ?_
      found := ⟨((Pass.inquest graph options).against (graph.resolution options).isolation).2, ?_, ?_⟩
      rendered := ?_ }
  · rw [Resolver.byLevels_snapshot, resolution]
    exact part.isolation declared
  · rw [Resolver.byLevels_snapshot, findings]
    exact mem_issues_congr (part.sameClosure declared) rfl
  · -- The resolutions agree on all that is asked.
    rw [Resolver.byLevels_snapshot, grounded.same, findings]
    exact ((grounded.asks {}).against_congr _ isolation).symm
  · rw [findings]
    rfl
  · refine Findings.diagnostics_congr options (fun id mem => ?_) fun call mem => ?_
    · obtain ⟨decl, declared, rfl, -⟩ := closed.named id (List.mem_append_right _ mem)
      exact part.decl? (Graph.declares_of_mem declared)
    · exact part.edge? (closed.calls call mem)

end

/-- Nothing outside of the graph reaches a report. Whatever it mentions is declared, and whatever was asked
on the way to it could be answered. So it makes no difference what is taken for an id that the graph does
not declare: a larger graph, in which such ids are declared, leads to the same. -/
theorem reports_within_graph {graph : Graph} {options : Options} {checker : Checker}
    (created : Checker.create graph options = .ok checker) (requests : List Checker.Request)
    {report : Report} (reported : report ∈ checker.reports requests) :
    report.Closed graph options ∧
      ∀ whole, graph.PartOf whole → report.SameWithin graph whole options := by
  have accepted := Checker.validate_of_create created
  obtain ⟨findings, resolution⟩ := Checker.findings_of_mem created reported
  have closed := report_closed accepted findings resolution
  exact ⟨closed, fun whole part => report_sameWithin closed findings resolution part⟩

/-- The cache again, in a program that has a pool of caches and another way to store an entry. -/
def pooledCache : Graph where
  decls := vouchedCache.decls ++
    [{ id := ⟨8⟩, name := "Pool", kind := .type .classType, annotations := [.globalActor ⟨0⟩] },
      { id := ⟨9⟩, name := "newest", kind := .storedProperty, enclosing := some ⟨8⟩,
        type := some (.nominal ⟨1⟩) },
      { id := ⟨10⟩, name := "keep", kind := .function, enclosing := some ⟨8⟩ }]
  extensions := vouchedCache.extensions
  edges := vouchedCache.edges ++
    [{ id := ⟨1⟩, caller := ⟨10⟩, callee := ⟨6⟩, arguments := [⟨"entry", .nominal ⟨2⟩⟩] }]
  plan := _
  plan_eq := rfl
  decls_ascending := by decide
  extensions_ascending := by decide
  edges_ascending := by decide
  sound := by decide +kernel

theorem vouchedCache_reports_within_graph :
    ∃ checker report, Checker.create vouchedCache mainFirst = .ok checker ∧
      report ∈ checker.reports [.check] ∧ ⟨⟨1⟩, .field ⟨2⟩ ⟨3⟩⟩ ∈ report.audit ∧
      vouchedCache.PartOf pooledCache ∧ report.Closed vouchedCache mainFirst ∧
      report.SameWithin vouchedCache pooledCache mainFirst := by
  have part : vouchedCache.PartOf pooledCache := by
    -- What is new is at the top or inside of the pool, which is new as well.
    refine ⟨List.subset_append_left _ _, List.Subset.refl _, List.subset_append_left _ _, ?_⟩
    intro decl declared parent inside known
    have outside : ∀ decl ∈ pooledCache.decls, decl ∈ vouchedCache.decls ∨
        decl.enclosing = none ∨ decl.enclosing = some ⟨8⟩ := by decide
    have unknown : ∀ decl ∈ vouchedCache.decls, decl.id ≠ ⟨8⟩ := by decide
    rcases outside decl declared with here | top | pool
    · exact here
    · rw [top] at inside
      cases inside
    · obtain rfl : ⟨8⟩ = parent := Option.some.inj (pool.symm.trans inside)
      obtain ⟨other, declared, same⟩ := known
      exact absurd same (unknown other declared)
  obtain ⟨report, reported⟩ := vouchedCache_reported
  obtain ⟨closed, within⟩ := reports_within_graph vouchedCache_created [.check] reported
  have audit : report.audit = [⟨⟨1⟩, .field ⟨2⟩ ⟨3⟩⟩, ⟨⟨1⟩, .sharedMutable ⟨7⟩⟩] := by
    rw [(Checker.findings_of_mem vouchedCache_created reported).1]
    decide +kernel
  refine ⟨_, report, vouchedCache_created, reported, ?_, part, closed, within pooledCache part⟩
  rw [audit]
  exact List.mem_cons_self

end ActorIsolation
