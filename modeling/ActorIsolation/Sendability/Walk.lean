import ActorIsolation.Analysis
import ActorIsolation.Options
import ActorIsolation.Path

/-! The sendability of types, from their structure. A type that is met again while it is still being
looked at is taken for Sendable. A result that leans on such an assumption is final only once the
type it is about has been looked at; a refusal leans on none.
-/

set_option autoImplicit false

namespace ActorIsolation

namespace TypeRef

/-- What a type is made of: parts that are decided at sight, and nominal types. -/
inductive Part where
  | plain (verdict : Sendability)
  | nominal (decl : DeclId)
  deriving DecidableEq, Repr, Inhabited

mutual

def parts : TypeRef → List Part
  | .primitive _ => [.plain .sendable]
  | .nominal decl => [.nominal decl]
  | .tuple items => partsOfItems items
  | .optional wrapped => wrapped.parts
  | .function sendable => [.plain (if sendable then .sendable else .notSendable)]

def partsOfItems : List TypeRef → List Part
  | [] => []
  | item :: items => item.parts ++ partsOfItems items

end

end TypeRef

structure Outcome where
  verdict : Sendability
  /-- The outermost waiting type that was taken for Sendable on the way. -/
  leansOn : Option Nat := none
  /-- The words taken, to be put on record once the verdict is final. -/
  audits : List AuditRecord := []
  deriving DecidableEq, Repr, Inhabited

namespace Outcome

def settled (verdict : Sendability) : Outcome := { verdict }

def join (first second : Outcome) : Outcome where
  verdict := first.verdict.meet second.verdict
  leansOn := match first.leansOn, second.leansOn with
    | some left, some right => some (min left right)
    | some left, none => some left
    | none, right => right
  audits := first.audits ++ second.audits

def isFinalAt (outcome : Outcome) (depth : Nat) : Bool :=
  match outcome.leansOn with
  | none => true
  | some outer => depth ≤ outer

end Outcome

def Sendability.finding : Sendability → Finding
  | .sendable => .sendable
  | .notSendable => .notSendable
  | .uncheckedSendable => .unchecked

def depthOf? (key : UseSite) : List UseSite → Option Nat
  | [] => none
  | waiting :: path => if waiting = key then some path.length else depthOf? key path

theorem depthOf?_eq_none {key : UseSite} {path : List UseSite} (h : depthOf? key path = none) :
    key ∉ path := by
  induction path with
  | nil => simp
  | cons waiting path ih =>
    unfold depthOf? at h
    split at h
    · simp at h
    · rename_i different
      exact List.not_mem_cons_of_ne_of_not_mem (Ne.symm different) (ih h)

namespace Walk

def partOutcome (visit : DeclId → Analysis Outcome) : TypeRef.Part → Analysis Outcome
  | .plain verdict => pure (.settled verdict)
  | .nominal decl => visit decl

def partsOutcome (visit : DeclId → Analysis Outcome) : List TypeRef.Part → Analysis Outcome
  | [] => pure (.settled .sendable)
  | part :: rest => do
    let first ← partOutcome visit part
    let others ← partsOutcome visit rest
    return first.join others

def typeOutcome (visit : DeclId → Analysis Outcome) (type : TypeRef) : Analysis Outcome :=
  partsOutcome visit type.parts

def byAssertion (kind : TypeKind) (decl : Declaration) : Option Sendability :=
  match decl.sendable, kind with
  | .unchecked, _ => some .uncheckedSendable
  | .checked, .protocol => some .sendable
  | .checked, .classType => if decl.isFinal then none else some .notSendable
  | .absent, .protocol => some .notSendable
  | .absent, .classType => some .notSendable
  | _, _ => none

def byRule (decl : Declaration) : Analysis (Option Sendability) :=
  match decl.typeKind? with
  | none => return some .notSendable
  | some .actor => return some .sendable
  | some kind => do
    let domain ← Analysis.domain decl.id
    return if domain.isGlobalActor then some .sendable else byAssertion kind decl

variable (graph : Graph) (options : Options)

def restsOnWord (id : DeclId) : Analysis Bool :=
  match graph.decl? id with
  | none => return false
  | some decl => do
    let verdict ← byRule decl
    return verdict = some .uncheckedSendable

def uncheckedAssertions (type : TypeRef) : Analysis (List DeclId) := do
  let resting ← Analysis.forEach
    (fun id => return if ← restsOnWord graph id then [id] else []) type.nominals
  return ascending resting

/-- A field that a global actor guards does not count against a class. -/
def isGuarded (kind : TypeKind) (field : Declaration) : Analysis Bool :=
  if kind = .classType then return (← Analysis.domain field.id).isGlobalActor
  else return false

/-- A field that is accepted by word is accepted, and the word goes on record. -/
def acceptByWord (owner field : DeclId) (type : TypeRef) (outcome : Outcome) :
    Analysis Outcome :=
  if outcome.verdict = .uncheckedSendable then do
    let asserted ← uncheckedAssertions graph type
    return { outcome with
      verdict := .sendable
      audits := outcome.audits ++ asserted.map (⟨·, .field owner field⟩) }
  else
    return outcome

def fieldOutcome (visit : DeclId → Analysis Outcome) (owner : DeclId) (kind : TypeKind)
    (field : Declaration) : Analysis (Option Outcome) := do
  if ← isGuarded kind field then return none
  else if kind = .classType && field.isMutable then return some (.settled .notSendable)
  else
    match field.type with
    | none => return some (.settled .notSendable)
    | some type =>
      let outcome ← typeOutcome visit type
      return some (← acceptByWord graph owner field.id type outcome)

def fieldsOutcome (visit : DeclId → Analysis Outcome) (owner : DeclId) (kind : TypeKind) :
    List Declaration → Outcome → Analysis Outcome
  | [], outcome => return outcome
  | field :: rest, outcome => do
    match ← fieldOutcome graph visit owner kind field with
    | none => fieldsOutcome visit owner kind rest outcome
    | some next =>
      let joined := outcome.join next
      if joined.verdict = .notSendable then return .settled .notSendable
      else fieldsOutcome visit owner kind rest joined

/-- Looks at a declaration. A value type that asserts nothing is Sendable in its own module only. -/
def declOutcome (visit : DeclId → Analysis Outcome) (decl : Declaration) (site : ModuleId) :
    Analysis Outcome :=
  match decl.typeKind? with
  | none => return .settled .notSendable
  | some kind => do
    match ← byRule decl with
    | some verdict => return .settled verdict
    | none =>
      if decl.sendable = .absent && kind.isValueType && site ≠ options.moduleOf decl.id then
        return .settled .notSendable
      else
        fieldsOutcome graph visit decl.id kind (graph.storedFields decl.id) (.settled .sendable)

/-- Settles a verdict that is final and passes any other on to the waiting types. -/
def conclude (depth : Nat) (key : UseSite) (outcome : Outcome) : Analysis Outcome := do
  if outcome.verdict = .notSendable || outcome.isFinalAt depth then
    modify (·.remember key outcome.verdict)
    if outcome.verdict.isSendable then Analysis.auditAll outcome.audits
    return .settled outcome.verdict
  else
    return outcome

/-- Only a type that no other is waiting for counts as a piece of work. -/
def tracked (path : List UseSite) (key : UseSite) (work : Analysis Outcome) : Analysis Outcome :=
  if path.isEmpty then
    Analysis.tracked ⟨.sendable, key.decl.number⟩ (·.verdict.finding) work
  else work

def homes : List ModuleId := graph.decls.map (options.moduleOf ·.id)

def useSites : List UseSite :=
  graph.decls.flatMap fun decl => (homes graph options).map (⟨decl.id, ·⟩)

def roomFor (path : List UseSite) : Nat :=
  room (useSites graph options) path + if path.isEmpty then 1 else 0

theorem roomFor_cons_lt {path : List UseSite} {key : UseSite} {decl : Declaration}
    (inside : path ≠ [] → key.site ∈ homes graph options) (fresh : key ∉ path)
    (known : graph.decl? key.decl = some decl) :
    roomFor graph options (key :: path) < roomFor graph options path := by
  have declared : decl ∈ graph.decls := List.mem_of_find?_eq_some known
  have same : decl.id = key.decl := by simpa using List.find?_some known
  cases path with
  | nil =>
    have := @room_cons_le _ _ (useSites graph options) [] key
    simp only [roomFor, List.isEmpty_cons, List.isEmpty_nil]
    grind
  | cons waiting rest =>
    have listed : key ∈ useSites graph options := by
      refine List.mem_flatMap.mpr ⟨decl, declared, List.mem_map.mpr ⟨key.site, ?_, ?_⟩⟩
      · exact inside (by simp)
      · cases key
        simp_all
    have := room_cons_lt listed fresh
    simpa [roomFor] using this

theorem home_mem {id : DeclId} {decl : Declaration} (known : graph.decl? id = some decl) :
    options.moduleOf decl.id ∈ homes graph options :=
  List.mem_map.mpr ⟨decl, List.mem_of_find?_eq_some known, rfl⟩

/-- Looks at a nominal type while the types of `path`, innermost first, wait for it. -/
def evaluate (path : List UseSite) (key : UseSite)
    (_inside : path ≠ [] → key.site ∈ homes graph options) : Analysis Outcome := do
  let ledger ← get
  match ledger.verdict? key with
  | some verdict => return .settled verdict
  | none =>
    match _fresh : depthOf? key path with
    | some depth => return { verdict := .sendable, leansOn := some depth }
    | none =>
      match _known : graph.decl? key.decl with
      | none => return .settled .notSendable
      | some decl =>
        tracked path key do
          let outcome ← declOutcome graph options
            (fun id => evaluate (key :: path) ⟨id, options.moduleOf decl.id⟩
              fun _ => home_mem graph options _known)
            decl key.site
          conclude path.length key outcome
termination_by roomFor graph options path
decreasing_by exact roomFor_cons_lt graph options _inside (depthOf?_eq_none _fresh) _known

end Walk

def sendabilityFrom (graph : Graph) (options : Options) (type : TypeRef) (site : ModuleId) :
    Analysis Sendability := do
  let outcome ← Walk.typeOutcome
    (fun id => Walk.evaluate graph options [] ⟨id, site⟩ fun absurd => nomatch absurd rfl) type
  return outcome.verdict

end ActorIsolation
