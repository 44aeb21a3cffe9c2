import ActorIsolation.Isolation.Inquiry
import ActorIsolation.Sendability.Verdict

/-! Analyses: inquiries that keep a ledger of settled verdicts and of the words they took. -/

set_option autoImplicit false

namespace ActorIsolation

/-- A nominal type as used from a module. -/
structure UseSite where
  decl : DeclId
  site : ModuleId
  deriving DecidableEq, Repr, Inhabited

structure Ledger where
  /-- Verdicts that are final. -/
  verdicts : List (UseSite × Sendability) := []
  /-- Ascending, each record once. -/
  audit : List AuditRecord := []
  deriving DecidableEq, Repr, Inhabited

namespace Ledger

def verdict? (ledger : Ledger) (key : UseSite) : Option Sendability := ledger.verdicts.lookup key

def remember (ledger : Ledger) (key : UseSite) (verdict : Sendability) : Ledger :=
  { ledger with verdicts := (key, verdict) :: ledger.verdicts }

def enter (ledger : Ledger) (record : AuditRecord) : Ledger :=
  { ledger with audit := insertAscending record ledger.audit }

end Ledger

abbrev Analysis := StateT Ledger Inquiry

namespace Analysis

def domain (id : DeclId) : Analysis Domain := do
  let isolation ← Inquiry.isolation id
  return isolation.domain

def report (event : Event) : Analysis Unit := Inquiry.report event

def tracked {α : Type} (query : Query) (finding : α → Finding) (work : Analysis α) :
    Analysis α := do
  report (.opened query)
  let value ← work
  report (.closed query (finding value))
  return value

/-- Puts a record into the audit log; a record that is there already is passed over. -/
def audit (record : AuditRecord) : Analysis Unit := do
  let ledger ← get
  if record ∈ ledger.audit then return
  report (.remarked (.uncheckedReliance record.asserted))
  set (ledger.enter record)

def auditAll : List AuditRecord → Analysis Unit
  | [] => pure ()
  | record :: rest => do
    audit record
    auditAll rest

def forEach {α β : Type} (work : α → Analysis (List β)) : List α → Analysis (List β)
  | [] => pure []
  | item :: rest => do
    let first ← work item
    let others ← forEach work rest
    return first ++ others

end Analysis

end ActorIsolation
