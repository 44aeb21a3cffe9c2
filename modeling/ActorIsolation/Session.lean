import ActorIsolation.Activity.Statistics
import ActorIsolation.Analysis
import ActorIsolation.Isolation.Resolver

/-! Sessions: analyses that share a ledger, an isolation source and a log. -/

set_option autoImplicit false

namespace ActorIsolation

inductive IsolationSource where
  | table (resolution : Resolution)
  /-- Components are solved when they are first asked for. -/
  | onDemand (resolver : Resolver)
  deriving DecidableEq, Repr, Inhabited

namespace IsolationSource

variable (graph : Graph) (options : Options)

def respond (id : DeclId) : IsolationSource × List Event → Isolation × (IsolationSource × List Event)
  | (.table resolution, log) => (resolution.isolation id, (.table resolution, log))
  | (.onDemand resolver, log) =>
    let (isolation, after) := resolver.query graph options id
    (isolation, (.onDemand { after with log := [] }, log ++ after.log))

def record (event : Event) : IsolationSource × List Event → IsolationSource × List Event
  | (source, log) => (source, log ++ [event])

def finish : IsolationSource → Resolution × List Event
  | .table resolution => (resolution, [])
  | .onDemand resolver =>
    let resolver := resolver.complete graph options
    (resolver.snapshot, resolver.log)

end IsolationSource

structure Session where
  source : IsolationSource
  ledger : Ledger := {}
  log : List Event := []
  deriving DecidableEq, Repr, Inhabited

namespace Session

def run {α : Type} (graph : Graph) (options : Options) (analysis : Analysis α)
    (session : Session) : α × Session :=
  let ((value, ledger), (source, log)) :=
    (StateT.run analysis session.ledger).run (IsolationSource.respond graph options)
      IsolationSource.record (session.source, session.log)
  (value, { source, ledger, log })

def ownLog (session : Session) : List Event :=
  session.log.filter fun
    | .closed query _ => query.kind ≠ .resolveComponent
    | _ => true

end Session

end ActorIsolation
