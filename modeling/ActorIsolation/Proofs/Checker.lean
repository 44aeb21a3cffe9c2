import ActorIsolation.Checker
import ActorIsolation.Proofs.Resolver
import ActorIsolation.Proofs.Statistics

/-! Passes and reports. Whatever the strategy, a pass finds what its analyses come to under the
resolution of the graph, and it does the same work, if not in the same order.
-/

set_option autoImplicit false

namespace ActorIsolation

variable (graph : Graph) (options : Options)

namespace IsolationSource

/-- A source that answers as the resolution does. The log holds these notes and the work on the
components that are done, in any order. -/
def Keeps (notes : List Event) : IsolationSource × List Event → Prop
  | (.table held, log) => held = graph.resolution options ∧
      log.Perm (notes ++ workOf graph options (List.range graph.plan.size))
  | (.onDemand resolver, log) => resolver.Progress graph options ∧ resolver.log = [] ∧
      log.Perm (notes ++ workOf graph options resolver.done)

variable {graph options} {notes log : List Event}

theorem work_append (left right : List Nat) : workOf graph options (left ++ right) =
    workOf graph options left ++ workOf graph options right :=
  List.flatMap_append

theorem work_perm {left right : List Nat} (perm : left.Perm right) :
    (workOf graph options left).Perm (workOf graph options right) :=
  perm.flatMap_right _

theorem log_perm {done order : List Nat} (before : log.Perm (notes ++ workOf graph options done)) :
    (log ++ workOf graph options order).Perm
      (notes ++ workOf graph options (order.reverse ++ done)) := by
  have work : (workOf graph options done ++ workOf graph options order).Perm
      (workOf graph options (order.reverse ++ done)) := by
    rw [← work_append]
    exact work_perm (List.perm_append_comm.trans ((List.reverse_perm order).symm.append_right done))
  have after := before.append_right (workOf graph options order)
  rw [List.append_assoc] at after
  exact after.trans (work.append_left notes)

theorem respond_keeps (id : DeclId) (state : IsolationSource × List Event)
    (keeps : Keeps graph options notes state) :
    (respond graph options id state).1 = (graph.resolution options).isolation id ∧
      Keeps graph options notes (respond graph options id state).2 := by
  obtain ⟨source, log⟩ := state
  cases source with
  | table held =>
    obtain ⟨rfl, perm⟩ := keeps
    exact ⟨rfl, rfl, perm⟩
  | onDemand resolver =>
    obtain ⟨progress, empty, perm⟩ := keeps
    obtain ⟨answer, follows⟩ := Resolver.query_follows progress id
    obtain ⟨order, done, written⟩ := follows.more
    obtain ⟨distinct, listed, settled, issues⟩ := follows.progress
    -- What the resolver wrote while it answered moves from its log to that of the pass.
    have after : (log ++ (resolver.query graph options id).2.log).Perm
        (notes ++ workOf graph options (resolver.query graph options id).2.done) := by
      rw [written, done, empty, List.nil_append]
      exact log_perm perm
    exact ⟨answer, ⟨distinct, listed, settled, issues⟩, rfl, after⟩

theorem record_keeps (event : Event) (state : IsolationSource × List Event)
    (keeps : Keeps graph options notes state) :
    Keeps graph options (notes ++ [event]) (record event state) := by
  have noted : ∀ {log work : List Event}, log.Perm (notes ++ work) →
      (log ++ [event]).Perm (notes ++ [event] ++ work) := by
    intro log work perm
    have after := perm.append_right [event]
    rw [List.append_assoc] at after ⊢
    exact after.trans (List.perm_append_comm.append_left notes)
  obtain ⟨source, log⟩ := state
  cases source with
  | table held => exact ⟨keeps.1, noted keeps.2⟩
  | onDemand resolver => exact ⟨keeps.1, keeps.2.1, noted keeps.2.2⟩

theorem finish_keeps (source : IsolationSource) (keeps : Keeps graph options notes (source, log)) :
    (source.finish graph options).1 = graph.resolution options ∧
      (log ++ (source.finish graph options).2).Perm
        (notes ++ workOf graph options (List.range graph.plan.size)) := by
  cases source with
  | table held =>
    obtain ⟨rfl, perm⟩ := keeps
    exact ⟨rfl, by simpa [finish] using perm⟩
  | onDemand resolver =>
    obtain ⟨progress, empty, perm⟩ := keeps
    have ensures := Resolver.complete_ensures progress
    obtain ⟨order, done, written⟩ := ensures.more
    refine ⟨Resolver.complete_snapshot progress, ?_⟩
    rw [empty, List.nil_append] at written
    have all := ensures.progress.done_perm fun index bound =>
      ensures.reached index (List.mem_range.mpr bound) bound
    rw [done] at all
    simp only [finish, written]
    exact (log_perm perm).trans ((work_perm all).append_left notes)

end IsolationSource

/-! ### Passes -/

namespace Pass

def inquest : Inquiry ((List SendableIssue × List Violation) × Ledger) :=
  StateT.run (examination graph options) {}

def findings : Findings :=
  let ((sendableIssues, violations), ledger) :=
    (inquest graph options).against (graph.resolution options).isolation
  { violations, resolutionIssues := (graph.resolution options).issues, sendableIssues,
    audit := ledger.audit }

/-- What a pass writes down, whatever the strategy, when it works in the plainest order. -/
def work : List Event :=
  (inquest graph options).notes (graph.resolution options).isolation ++
    workOf graph options (List.range graph.plan.size) ++
    [.finished (findings graph options).violations.length
      (findings graph options).resolutionIssues.length (findings graph options).audit.length]

variable {graph options}

theorem within_eq {notes : List Event} {session : Session} (empty : session.ledger = {})
    (keeps : IsolationSource.Keeps graph options notes (session.source, session.log)) :
    (within graph options session).toFindings = findings graph options ∧
      (within graph options session).resolution = graph.resolution options ∧
      (within graph options session).log.Perm (notes ++ work graph options) := by
  have answered : ∀ id notes state, IsolationSource.Keeps graph options notes state →
      (IsolationSource.respond graph options id state).1 = (graph.resolution options).isolation id ∧
        IsolationSource.Keeps graph options notes (IsolationSource.respond graph options id state).2 :=
    fun id _ => IsolationSource.respond_keeps id
  have recorded : ∀ event notes state, IsolationSource.Keeps graph options notes state →
      IsolationSource.Keeps graph options (notes ++ [event]) (IsolationSource.record event state) :=
    fun event _ => IsolationSource.record_keeps event
  -- The invariant is `Keeps`: every question is answered from the resolution of the graph.
  obtain ⟨value, after⟩ := Inquiry.run_against _ answered recorded
    (inquest graph options) notes (session.source, session.log) keeps
  unfold within Session.run
  rw [empty, ← inquest]
  revert value after
  generalize (inquest graph options).run _ _ (session.source, session.log) = outcome
  intro value after
  obtain ⟨⟨⟨sendableIssues, violations⟩, ledger⟩, source, log⟩ := outcome
  obtain ⟨finished, written⟩ := IsolationSource.finish_keeps source after
  have found : findings graph options =
      ⟨violations, (source.finish graph options).1.issues, sendableIssues, ledger.audit⟩ := by
    rw [findings, ← value, finished]
  refine ⟨found.symm, finished, ?_⟩
  rw [work, ← List.append_assoc, ← List.append_assoc, found]
  exact written.append_right _

/-- The strategies differ in the order of the work only. -/
theorem run_eq (graph : Graph) (options : Options) (strategy : Strategy) :
    (run graph options strategy).toFindings = findings graph options ∧
      (run graph options strategy).resolution = graph.resolution options ∧
      (run graph options strategy).log.Perm (began graph strategy :: work graph options) := by
  cases strategy with
  | sequential =>
    have keeps : IsolationSource.Keeps graph options [began graph .sequential]
        (.onDemand .start, [began graph .sequential]) :=
      ⟨Resolver.progress_start graph options, rfl, .refl _⟩
    exact @within_eq graph options _ { source := _, log := _ } rfl keeps
  | parallel =>
    obtain ⟨⟨progress, order, done, written⟩, -⟩ := Resolver.byLevels_follows graph options
    -- All components are done before the first question.
    have all := progress.done_perm fun index => Resolver.byLevels_complete graph options
    rw [done] at all
    have log : (Resolver.byLevels graph options).log.Perm
        (workOf graph options (List.range graph.plan.size)) := by
      rw [written]
      refine IsolationSource.work_perm (.trans ?_ all)
      simp [Resolver.start]
    have keeps : IsolationSource.Keeps graph options [began graph .parallel]
        (.table (Resolver.byLevels graph options).snapshot,
          began graph .parallel :: (Resolver.byLevels graph options).log) :=
      ⟨Resolver.byLevels_snapshot graph options, log.cons _⟩
    exact @within_eq graph options _ { source := _, log := _ } rfl keeps

theorem run_closes (graph : Graph) (options : Options) (strategy : Strategy) (kind : QueryKind) :
    (run graph options strategy).log.countP (Event.closes kind) =
      (work graph options).countP (Event.closes kind) := by
  rw [(run_eq graph options strategy).2.2.countP_eq]
  rfl

end Pass

/-! ### Reports -/

namespace Checker

inductive Request where
  | check
  | sequential
  | parallel

def serve (checker : Checker) : Request → Report × Checker
  | .check => checker.check
  | .sequential => checker.run .sequential
  | .parallel => checker.run .parallel

def reports : Checker → List Request → List Report
  | _, [] => []
  | checker, request :: rest =>
    let (report, checker) := checker.serve request
    report :: checker.reports rest

theorem serve_eq (checker : Checker) (request : Request) :
    ∃ strategy, checker.serve request = checker.run strategy := by
  cases request with
  | check => exact ⟨checker.options.strategy, rfl⟩
  | sequential => exact ⟨.sequential, rfl⟩
  | parallel => exact ⟨.parallel, rfl⟩

def figuresAfter (passes : Nat) : List (QueryKind × Nat × Nat × Nat) :=
  QueryKind.all.filterMap (Statistics.missed fun kind =>
    passes * (Pass.work graph options).countP (Event.closes kind))

theorem figuresAfter_mul (passes : Nat) :
    figuresAfter graph options (passes + 1) = (figuresAfter graph options 1).map
      fun (kind, total, _, _) => (kind, (passes + 1) * total, 0, (passes + 1) * total) := by
  rw [figuresAfter, figuresAfter, List.map_filterMap]
  congr 1
  funext kind
  by_cases unmet : (Pass.work graph options).countP (Event.closes kind) = 0
  · simp [Statistics.missed, unmet]
  · have met : (passes + 1) * (Pass.work graph options).countP (Event.closes kind) ≠ 0 :=
      Nat.mul_ne_zero (Nat.succ_ne_zero passes) unmet
    simp only [Statistics.missed, if_neg unmet, if_neg met, Option.map_some, Nat.one_mul]

theorem run_statistics (checker : Checker) (strategy : Strategy) {passes : Nat}
    (before : checker.statistics.figures = figuresAfter checker.graph checker.options passes) :
    (checker.run strategy).1.statistics.figures =
      figuresAfter checker.graph checker.options (passes + 1) := by
  have counted := Statistics.count_figures checker.statistics
    (Pass.run checker.graph checker.options strategy).log before
  simp only [Pass.run_closes] at counted
  simp only [figuresAfter, Nat.add_one_mul]
  exact counted

theorem reports_spec (checker : Checker) (requests : List Request) {passes : Nat}
    (before : checker.statistics.figures = figuresAfter checker.graph checker.options passes)
    {k : Nat} {report : Report} (found : (checker.reports requests)[k]? = some report) :
    report.toFindings = Pass.findings checker.graph checker.options ∧
      report.resolution = checker.graph.resolution checker.options ∧
      report.statistics.figures =
        figuresAfter checker.graph checker.options (passes + k + 1) := by
  induction requests generalizing checker passes k with
  | nil => simp [reports] at found
  | cons request rest ih =>
    obtain ⟨strategy, served⟩ := checker.serve_eq request
    simp only [reports, served] at found
    -- Between reports only the statistics change, and by the work of one pass.
    have counted := checker.run_statistics strategy before
    cases k with
    | zero =>
      obtain rfl : (checker.run strategy).1 = report := by simpa using found
      obtain ⟨findings, resolved, -⟩ := Pass.run_eq checker.graph checker.options strategy
      exact ⟨findings, resolved, counted⟩
    | succ k =>
      have later := ih (checker.run strategy).2 counted (by simpa using found)
      rwa [show passes + (k + 1) + 1 = passes + 1 + k + 1 by omega]

theorem length_reports (checker : Checker) (requests : List Request) :
    (checker.reports requests).length = requests.length := by
  induction requests generalizing checker with
  | nil => rfl
  | cons request rest ih => simp only [reports, List.length_cons, ih]

variable {graph options}

theorem validate_of_create {checker : Checker} (created : create graph options = .ok checker) :
    options.validate graph = .ok () := by
  unfold create at created
  cases accepted : options.validate graph with
  | error fault =>
    rw [accepted] at created
    cases created
  | ok => rfl

theorem create_of_validate (accepted : options.validate graph = .ok ()) :
    create graph options = .ok { graph, options, statistics := {} } := by
  unfold create
  rw [accepted]
  rfl

theorem eq_of_create {checker : Checker} (created : create graph options = .ok checker) :
    checker = { graph, options, statistics := {} } :=
  Except.ok.inj (created.symm.trans (create_of_validate (validate_of_create created)))

theorem report_of_created {checker : Checker} (created : create graph options = .ok checker)
    {requests : List Request} {k : Nat} {report : Report}
    (found : (checker.reports requests)[k]? = some report) :
    report.toFindings = Pass.findings graph options ∧
      report.resolution = graph.resolution options ∧
      report.statistics.figures = figuresAfter graph options (k + 1) := by
  obtain rfl := eq_of_create created
  have fresh : Statistics.figures {} = figuresAfter graph options 0 := by
    simp [figuresAfter, Statistics.missed, Statistics.figures, Statistics.publish]
  simpa only [Nat.zero_add] using reports_spec _ requests fresh found

theorem findings_of_mem {checker : Checker} (created : create graph options = .ok checker)
    {requests : List Request} {report : Report} (reported : report ∈ checker.reports requests) :
    report.toFindings = Pass.findings graph options ∧
      report.resolution = graph.resolution options := by
  obtain ⟨k, found⟩ := List.mem_iff_getElem?.mp reported
  obtain ⟨findings, resolved, -⟩ := report_of_created created found
  exact ⟨findings, resolved⟩

end Checker

/-- However often a checker is asked and in whatever ways, it reports the same, and the work of each
kind that it has counted is that of the first report as many times as it has been asked. -/
theorem repeated_checks_agree {checker : Checker} (created : Checker.create graph options = .ok checker)
    (requests : List Checker.Request) :
    (checker.reports requests).length = requests.length ∧
      ∀ k first report, (checker.reports requests)[0]? = some first →
        (checker.reports requests)[k]? = some report →
          report.resolution.entries = first.resolution.entries ∧
          report.violations = first.violations ∧
          report.resolutionIssues = first.resolutionIssues ∧
          report.sendableIssues = first.sendableIssues ∧
          report.audit = first.audit ∧
          report.diagnostics graph options = first.diagnostics graph options ∧
          report.statistics.figures = first.statistics.figures.map
            fun (kind, total, _, _) => (kind, (k + 1) * total, 0, (k + 1) * total) := by
  refine ⟨checker.length_reports requests, fun k first report begins found => ?_⟩
  obtain ⟨firstFindings, firstResolution, once⟩ := Checker.report_of_created created begins
  obtain ⟨findings, resolved, counted⟩ := Checker.report_of_created created found
  simp only [findings, firstFindings, resolved, firstResolution, counted, once, Nat.zero_add,
    Checker.figuresAfter_mul graph options k, and_self]

/-- Two classes that inherit from each other, one of which the entry point hands over to a function
that runs elsewhere. -/
def mutualHeirs : Graph where
  decls :=
    [{ id := ⟨0⟩, name := "Left", kind := .type .classType, supertypes := [⟨1⟩] },
      { id := ⟨1⟩, name := "Right", kind := .type .classType, supertypes := [⟨0⟩] },
      { id := ⟨2⟩, name := "Main", kind := .type .actor, isGlobalActor := true },
      { id := ⟨3⟩, name := "main", kind := .function, isEntryPoint := true },
      { id := ⟨4⟩, name := "send", kind := .function, isAsync := true }]
  edges :=
    [{ id := ⟨0⟩, caller := ⟨3⟩, callee := ⟨4⟩, suspends := true,
       arguments := [⟨"left", .nominal ⟨0⟩⟩] }]
  plan := _
  plan_eq := rfl
  decls_ascending := by decide
  extensions_ascending := .nil
  edges_ascending := by decide
  sound := by decide +kernel

theorem mutualHeirs_checked_thrice :
    let options : Options := { entryPointActor := some ⟨2⟩ }
    ∃ checker first second third, Checker.create mutualHeirs options = .ok checker ∧
      checker.reports [.check, .parallel, .sequential] = [first, second, third] ∧
      third.violations = first.violations ∧
      third.diagnostics mutualHeirs options = first.diagnostics mutualHeirs options ∧
      third.statistics.figures = first.statistics.figures.map
        fun (kind, total, _, _) => (kind, 3 * total, 0, 3 * total) := by
  intro options
  have created : Checker.create mutualHeirs options = .ok ⟨mutualHeirs, options, {}⟩ := rfl
  obtain ⟨-, agree⟩ :=
    repeated_checks_agree mutualHeirs options created [.check, .parallel, .sequential]
  obtain ⟨-, violations, -, -, -, diagnostics, figures⟩ := agree 2 _ _ rfl rfl
  exact ⟨_, _, _, _, created, rfl, violations, diagnostics, figures⟩

end ActorIsolation
