import ActorIsolation.Boundary.Scan
import ActorIsolation.Diagnostic.Rendering
import ActorIsolation.Sendability.Conformance
import ActorIsolation.Session

/-! The checker: everything there is to find in a graph, in one pass. -/

set_option autoImplicit false

namespace ActorIsolation

inductive Strategy where
  /-- On demand, while the analyses go on. -/
  | sequential
  /-- Level by level, before the analyses begin. -/
  | parallel
  deriving DecidableEq, Repr, Inhabited

def Options.strategy (options : Options) : Strategy :=
  if options.parallel then .parallel else .sequential

structure Pass extends Findings where
  resolution : Resolution
  log : List Event
  deriving DecidableEq, Repr, Inhabited

namespace Pass

variable (graph : Graph) (options : Options)

def examination : Analysis (List SendableIssue × List Violation) := do
  let issues ← conformanceIssues graph options
  let violations ← Boundary.violations graph options
  return (issues, violations)

def within (start : Session) : Pass :=
  let ((sendableIssues, violations), session) := start.run graph options (examination graph options)
  let (resolution, rest) := session.source.finish graph options
  let audit := session.ledger.audit
  { violations
    resolutionIssues := resolution.issues
    sendableIssues
    audit
    resolution
    log := session.log ++ rest ++
      [.finished violations.length resolution.issues.length audit.length] }

def began (strategy : Strategy) : Event :=
  .began graph.decls.length graph.edges.length (strategy = .parallel)

/-- Works isolation out on demand, and the rest of it at the end. -/
def sequential : Pass :=
  within graph options { source := .onDemand .start, log := [began graph .sequential] }

/-- Works isolation out level by level, then examines the graph. -/
def parallel : Pass :=
  let resolver := Resolver.byLevels graph options
  within graph options
    { source := .table resolver.snapshot, log := began graph .parallel :: resolver.log }

def run : Strategy → Pass
  | .sequential => sequential graph options
  | .parallel => parallel graph options

end Pass

/-- A pass together with the statistics of all passes so far. -/
structure Report extends Pass where
  statistics : Statistics
  deriving Repr, Inhabited

def Report.violationsOf (report : Report) (category : Category) : List Violation :=
  report.violations.filter (·.category = category)

structure Checker where
  graph : Graph
  options : Options
  statistics : Statistics

namespace Checker

def create (graph : Graph) (options : Options) : Except OptionsError Checker := do
  options.validate graph
  return { graph, options, statistics := {} }

def run (checker : Checker) (strategy : Strategy) : Report × Checker :=
  let pass := Pass.run checker.graph checker.options strategy
  let statistics := checker.statistics.count pass.log
  ({ toPass := pass, statistics }, { checker with statistics })

def check (checker : Checker) : Report × Checker := checker.run checker.options.strategy

end Checker

end ActorIsolation
