import ActorIsolation.Interchange.Report
import ActorIsolation.Json.Printer
import ActorIsolation.Proofs.Analysis
import ActorIsolation.Proofs.Graph
import ActorIsolation.Proofs.Sendability
import ActorIsolation.Proofs.Walk
import ActorIsolation.Proofs.Reliance
import ActorIsolation.Proofs.Accounting
import ActorIsolation.Proofs.Scan
import ActorIsolation.Proofs.Outward
import ActorIsolation.Proofs.Crossing
import ActorIsolation.Proofs.Boundary
import ActorIsolation.Proofs.Components
import ActorIsolation.Proofs.Decomposition
import ActorIsolation.Proofs.Composition
import ActorIsolation.Proofs.History
import ActorIsolation.Proofs.Levels
import ActorIsolation.Proofs.Rules
import ActorIsolation.Proofs.Solving
import ActorIsolation.Proofs.Solution
import ActorIsolation.Proofs.Resolver
import ActorIsolation.Proofs.Resolution
import ActorIsolation.Proofs.Checker
import ActorIsolation.Proofs.Report
import ActorIsolation.Proofs.LookUp
import ActorIsolation.Proofs.Locality
import ActorIsolation.Proofs.Recovery
import ActorIsolation.Proofs.Confinement
import ActorIsolation.Proofs.Exploration
import ActorIsolation.Proofs.AuditOrder
import ActorIsolation.Proofs.Issues
import ActorIsolation.Proofs.Provenance
import ActorIsolation.Proofs.Binding
import ActorIsolation.Proofs.Conformance
import ActorIsolation.Proofs.Suppression
import ActorIsolation.Proofs.Acceptance
import ActorIsolation.Proofs.Severity
import ActorIsolation.Proofs.Vouching
import ActorIsolation.Proofs.Cycles
import ActorIsolation.Proofs.Declarations
import ActorIsolation.Proofs.Contracts
import ActorIsolation.Proofs.Defaults
import ActorIsolation.Proofs.Enclosure
import ActorIsolation.Proofs.Mentions
import ActorIsolation.Proofs.Surroundings
import ActorIsolation.Proofs.Grounding
import ActorIsolation.Proofs.Chains
import ActorIsolation.Proofs.Laziness
import ActorIsolation.Proofs.Normalization
import ActorIsolation.Proofs.Settling
import ActorIsolation.Proofs.Questions
import ActorIsolation.Proofs.Climbing
import ActorIsolation.Proofs.Evaluation
import ActorIsolation.Proofs.Nesting
