import ActorIsolation.Proofs.Analysis
import ActorIsolation.Proofs.Graph
import ActorIsolation.Sendability.Walk
import Mathlib.Data.List.Dedup

/-! How deep looks at types are nested. Here the types that wait are kept on a stack, which each look finds
and leaves behind, and looks are nested no deeper than there is depth for. A look goes down into a type as
it is written and from a nominal type on to the types of its fields, which are used from that type's own
module. So all that waits above the outermost type is a declared id in the home of a declared type, and
nothing waits twice.
-/

set_option autoImplicit false

namespace ActorIsolation

/-- A look at a nominal type as it went, with the types that waited when it began and when it was over,
innermost first. -/
structure Look where
  key : UseSite
  before : List UseSite
  after : List UseSite
  deriving DecidableEq, Repr, Inhabited

structure Waiting where
  stack : List UseSite := []
  /-- What the stack has been, from one change to the next. -/
  history : List (List UseSite) := []
  looks : List Look := []
  deriving DecidableEq, Repr, Inhabited

abbrev Nested := StateT Waiting Analysis

namespace Nested

variable {α : Type}

def stack : Nested (List UseSite) := do return (← get).stack

def setStack (stack : List UseSite) : Nested Unit :=
  modify fun waiting => { waiting with stack, history := waiting.history ++ [stack] }

def under (key : UseSite) (work : Nested α) : Nested α := do
  setStack (key :: (← stack))
  let value ← work
  setStack (← stack).tail
  return value

def noted (key : UseSite) (work : Nested α) : Nested α := do
  let before ← stack
  let value ← work
  let after ← stack
  modify fun waiting => { waiting with looks := waiting.looks ++ [⟨key, before, after⟩] }
  return value

def tracked (key : UseSite) (work : Nested Outcome) : Nested Outcome := do
  if (← stack).isEmpty then
    Analysis.report (.opened ⟨.sendable, key.decl.number⟩)
    let outcome ← work
    Analysis.report (.closed ⟨.sendable, key.decl.number⟩ outcome.verdict.finding)
    return outcome
  else work

mutual

def typeOutcome (visit : DeclId → Nested Outcome) : TypeRef → Nested Outcome
  | .primitive _ => return .settled .sendable
  | .nominal decl => visit decl
  | .tuple items => itemsOutcome visit items
  | .optional wrapped => typeOutcome visit wrapped
  | .function sendable => return .settled (if sendable then .sendable else .notSendable)

def itemsOutcome (visit : DeclId → Nested Outcome) : List TypeRef → Nested Outcome
  | [] => return .settled .sendable
  | item :: items => do
    let first ← typeOutcome visit item
    let others ← itemsOutcome visit items
    return first.join others

end

variable (graph : Graph) (options : Options)

def fieldOutcome (visit : DeclId → Nested Outcome) (owner : DeclId) (kind : TypeKind)
    (field : Declaration) : Nested (Option Outcome) := do
  if ← Walk.isGuarded kind field then return none
  else if kind = .classType && field.isMutable then return some (.settled .notSendable)
  else
    match field.type with
    | none => return some (.settled .notSendable)
    | some type =>
      let outcome ← typeOutcome visit type
      return some (← Walk.acceptByWord graph owner field.id type outcome)

def fieldsOutcome (visit : DeclId → Nested Outcome) (owner : DeclId) (kind : TypeKind) :
    List Declaration → Outcome → Nested Outcome
  | [], outcome => return outcome
  | field :: rest, outcome => do
    match ← fieldOutcome graph visit owner kind field with
    | none => fieldsOutcome visit owner kind rest outcome
    | some next =>
      let joined := outcome.join next
      if joined.verdict = .notSendable then return .settled .notSendable
      else fieldsOutcome visit owner kind rest joined

def declOutcome (visit : DeclId → Nested Outcome) (decl : Declaration) (site : ModuleId) :
    Nested Outcome :=
  match decl.typeKind? with
  | none => return .settled .notSendable
  | some kind => do
    match ← Walk.byRule decl with
    | some verdict => return .settled verdict
    | none =>
      if decl.sendable = .absent && kind.isValueType && site ≠ options.moduleOf decl.id then
        return .settled .notSendable
      else
        fieldsOutcome graph visit decl.id kind (graph.storedFields decl.id) (.settled .sendable)

/-- Looks at a nominal type, with so many looks nested and others beyond them. -/
def look (beyond : UseSite → Nested Outcome) : Nat → UseSite → Nested Outcome
  | 0, key => beyond key
  | depth + 1, key => noted key do
    let ledger ← (get : Analysis Ledger)
    match ledger.verdict? key with
    | some verdict => return .settled verdict
    | none =>
      let waiting ← stack
      match depthOf? key waiting with
      | some outer => return { verdict := .sendable, leansOn := some outer }
      | none =>
        match graph.decl? key.decl with
        | none => return .settled .notSendable
        | some decl =>
          tracked key do
            let outcome ← under key <| declOutcome graph options
              (fun id => look beyond depth ⟨id, options.moduleOf decl.id⟩) decl key.site
            Walk.conclude waiting.length key outcome

def sendabilityFrom (beyond : UseSite → Nested Outcome) (depth : Nat) (type : TypeRef)
    (site : ModuleId) : Nested Sendability := do
  let outcome ← typeOutcome (fun id => look graph options beyond depth ⟨id, site⟩) type
  return outcome.verdict

end Nested

/-! ### Stacks -/

def typeHomes (graph : Graph) (options : Options) : List ModuleId :=
  ((graph.decls.filter (·.isType)).map (options.moduleOf ·.id)).dedup

def innerSites (graph : Graph) (options : Options) : List UseSite :=
  graph.decls.flatMap fun decl => (typeHomes graph options).map (UseSite.mk decl.id)

/-- How many types can wait at a time: the outermost one, and above it each declaration once for each
home. -/
def stackLimit (graph : Graph) (options : Options) : Nat :=
  1 + graph.decls.length * (typeHomes graph options).length

/-- Nothing waits twice, all that waits is declared, and above the outermost type it is used from the home
of a type. -/
structure ProperStack (graph : Graph) (options : Options) (stack : List UseSite) : Prop where
  distinct : stack.Nodup
  declared : ∀ key ∈ stack, ∃ decl ∈ graph.decls, decl.id = key.decl
  homes : ∀ key ∈ stack.dropLast, key.site ∈ typeHomes graph options

/-- Every stack so far was a proper one, and every look has left the stack as it was. -/
structure Waiting.Regular (graph : Graph) (options : Options) (waiting : Waiting) : Prop where
  history : ∀ stack ∈ waiting.history, ProperStack graph options stack
  looks : ∀ look ∈ waiting.looks, look.after = look.before

section

variable {graph : Graph} {options : Options} {path : List UseSite} {key : UseSite}

theorem mem_typeHomes {site : ModuleId} : site ∈ typeHomes graph options ↔
    ∃ owner ∈ graph.decls, owner.isType ∧ options.moduleOf owner.id = site := by
  simp [typeHomes, and_assoc]

theorem length_innerSites : (innerSites graph options).length =
    graph.decls.length * (typeHomes graph options).length := by
  simp [innerSites, List.length_flatMap]

namespace ProperStack

theorem nil : ProperStack graph options [] := ⟨.nil, by simp, by simp⟩

theorem push (proper : ProperStack graph options path) (fresh : key ∉ path)
    (declared : ∃ decl ∈ graph.decls, decl.id = key.decl)
    (home : path ≠ [] → key.site ∈ typeHomes graph options) :
    ProperStack graph options (key :: path) := by
  refine ⟨List.nodup_cons.mpr ⟨fresh, proper.distinct⟩,
    List.forall_mem_cons.mpr ⟨declared, proper.declared⟩, ?_⟩
  cases path with
  | nil => simp
  | cons outer rest =>
    rw [List.dropLast_cons_cons]
    exact List.forall_mem_cons.mpr ⟨home (List.cons_ne_nil outer rest), proper.homes⟩

theorem dropLast_subset (proper : ProperStack graph options path) :
    path.dropLast ⊆ innerSites graph options := by
  intro key above
  obtain ⟨decl, declared, same⟩ := proper.declared key (List.dropLast_subset path above)
  refine List.mem_flatMap.mpr ⟨decl, declared, List.mem_map.mpr ?_⟩
  exact ⟨key.site, proper.homes key above, by rw [same]⟩

/-- Above the outermost type there is room for each declaration in each home, and no more. -/
theorem length_le (proper : ProperStack graph options path) : path.length ≤ stackLimit graph options := by
  have distinct := proper.distinct.sublist (List.dropLast_sublist path)
  have few := (distinct.subperm proper.dropLast_subset).length_le
  rw [List.length_dropLast, length_innerSites] at few
  unfold stackLimit
  omega

end ProperStack

end

/-! ### Walks with and without a stack -/

namespace Inquiry

variable {α β γ δ : Type}

/-- The same questions and the same notes, with values that correspond in the end. -/
inductive Matches (related : α → β → Prop) : Inquiry α → Inquiry β → Prop where
  | done {first : α} {second : β} : related first second → Matches related (.done first) (.done second)
  | ask {id : DeclId} {next : Isolation → Inquiry α} {following : Isolation → Inquiry β} :
      (∀ isolation, Matches related (next isolation) (following isolation)) →
      Matches related (.ask id next) (.ask id following)
  | note {event : Event} {next : Unit → Inquiry α} {following : Unit → Inquiry β} :
      Matches related (next ()) (following ()) → Matches related (.note event next) (.note event following)

namespace Matches

variable {related : α → β → Prop} {inquiry : Inquiry α} {other : Inquiry β}

theorem bind {further : γ → δ → Prop} {next : α → Inquiry γ} {following : β → Inquiry δ}
    (first : Matches related inquiry other)
    (rest : ∀ value counterpart, related value counterpart →
      Matches further (next value) (following counterpart)) :
    Matches further (inquiry >>= next) (other >>= following) := by
  induction first with
  | done same => exact rest _ _ same
  | ask _ ih => exact .ask ih
  | note _ ih => exact .note ih

theorem of_map {change : β → α} (same : ∀ value, related (change value) value) (inquiry : Inquiry β) :
    Matches related (inquiry >>= fun value => .done (change value)) inquiry := by
  induction inquiry with
  | done value => exact .done (same value)
  | ask id next ih => exact .ask ih
  | note event next ih => exact .note (ih ())

theorem map_eq {project : α → β} (matched : Matches related inquiry other)
    (same : ∀ value counterpart, related value counterpart → project value = counterpart) :
    project <$> inquiry = other := by
  induction matched with
  | done corresponds => exact congrArg Inquiry.done (same _ _ corresponds)
  | ask _ ih => exact congrArg (Inquiry.ask _) (funext ih)
  | note _ ih => exact congrArg (Inquiry.note _) (funext fun _ => ih)

theorem endsIn {final : α → Prop} (matched : Matches related inquiry other)
    (implies : ∀ value counterpart, related value counterpart → final value) : inquiry.EndsIn final := by
  induction matched with
  | done corresponds => exact implies _ _ corresponds
  | ask _ ih => exact ih
  | note _ ih => exact ih

end Matches

end Inquiry

namespace Outcome

@[simp] theorem join_sendable (outcome : Outcome) : outcome.join (.settled .sendable) = outcome := by
  obtain ⟨verdict, leansOn, audits⟩ := outcome
  cases leansOn <;> simp [join, settled]

@[simp] theorem sendable_join (outcome : Outcome) : (settled .sendable).join outcome = outcome := by
  simp [join, settled]

theorem join_assoc (first second third : Outcome) :
    (first.join second).join third = first.join (second.join third) := by
  obtain ⟨verdict, firstOuter, audits⟩ := first
  obtain ⟨others, secondOuter, others⟩ := second
  obtain ⟨rest, thirdOuter, rest⟩ := third
  cases firstOuter <;> cases secondOuter <;> cases thirdOuter <;>
    simp [join, Sendability.meet_assoc, Nat.min_assoc]

end Outcome

theorem Walk.partsOutcome_append (visit : DeclId → Analysis Outcome) (parts others : List TypeRef.Part) :
    partsOutcome visit (parts ++ others) = (do
      let first ← partsOutcome visit parts
      let second ← partsOutcome visit others
      return first.join second) := by
  induction parts with
  | nil => simp only [List.nil_append, partsOutcome, pure_bind, Outcome.sendable_join, bind_pure]
  | cons part rest ih =>
    simp only [List.cons_append, partsOutcome, ih, bind_assoc, pure_bind, Outcome.join_assoc]

theorem Walk.partsOutcome_singleton (visit : DeclId → Analysis Outcome) (part : TypeRef.Part) :
    partsOutcome visit [part] = partOutcome visit part := by
  simp only [partsOutcome, pure_bind, Outcome.join_sendable, bind_pure]

namespace Nested

variable {graph : Graph} {options : Options} {path : List UseSite} {key : UseSite} {α β : Type}

/-- While the types of `path` wait, the walk with a stack goes as the analysis does, and leaves the stack
as it was. -/
def Follows (graph : Graph) (options : Options) (path : List UseSite) (nested : Nested α)
    (analysis : Analysis α) : Prop :=
  ∀ waiting ledger, waiting.stack = path → waiting.Regular graph options →
    Inquiry.Matches
      (fun result plain => (result.1.1, result.2) = plain ∧ result.1.2.stack = path ∧
        result.1.2.Regular graph options)
      ((nested.run waiting).run ledger) (analysis.run ledger)

namespace Follows

variable {nested : Nested α} {analysis : Analysis α}

theorem pure (value : α) : Follows graph options path (Pure.pure value) (Pure.pure value) :=
  fun _ _ same regular => .done ⟨rfl, same, regular⟩

theorem lift (analysis : Analysis α) : Follows graph options path (liftM analysis) analysis := by
  intro waiting ledger same regular
  exact Inquiry.Matches.of_map (fun _ => ⟨rfl, same, regular⟩) (analysis.run ledger)

theorem bind {next : α → Nested β} {following : α → Analysis β}
    (first : Follows graph options path nested analysis)
    (rest : ∀ value, Follows graph options path (next value) (following value)) :
    Follows graph options path (nested >>= next) (analysis >>= following) := by
  intro waiting ledger same regular
  refine (first waiting ledger same regular).bind ?_
  rintro ⟨⟨value, after⟩, ledger⟩ _ ⟨rfl, kept, regular⟩
  exact rest value after ledger kept regular

theorem stack {next : List UseSite → Nested α} (rest : Follows graph options path (next path) analysis) :
    Follows graph options path (stack >>= next) analysis := by
  rintro waiting ledger rfl regular
  exact rest waiting ledger rfl regular

theorem under (proper : ProperStack graph options path) (pushed : ProperStack graph options (key :: path))
    (work : Follows graph options (key :: path) nested analysis) :
    Follows graph options path (under key nested) analysis := by
  rintro waiting ledger rfl regular
  have entered : Waiting.Regular graph options
      { waiting with
        stack := key :: waiting.stack
        history := waiting.history ++ [key :: waiting.stack] } :=
    ⟨by simpa [or_imp, forall_and] using ⟨regular.history, pushed⟩, regular.looks⟩
  rw [← bind_pure analysis]
  refine (work _ ledger rfl entered).bind ?_
  rintro ⟨⟨value, after⟩, ledger⟩ _ ⟨rfl, kept, regular⟩
  have back : after.stack.tail = waiting.stack := by
    rw [show after.stack = key :: waiting.stack from kept, List.tail_cons]
  refine .done ⟨rfl, back, ?_, regular.looks⟩
  simpa [back, or_imp, forall_and] using ⟨regular.history, proper⟩

theorem noted (work : Follows graph options path nested analysis) :
    Follows graph options path (noted key nested) analysis := by
  rintro waiting ledger rfl regular
  rw [← bind_pure analysis]
  refine (work waiting ledger rfl regular).bind ?_
  rintro ⟨⟨value, after⟩, ledger⟩ _ ⟨rfl, kept, regular⟩
  refine .done ⟨rfl, kept, regular.history, ?_⟩
  simpa [or_imp, forall_and] using ⟨regular.looks, kept⟩

theorem tracked {nested : Nested Outcome} {analysis : Analysis Outcome}
    (work : Follows graph options path nested analysis) :
    Follows graph options path (tracked key nested) (Walk.tracked path key analysis) := by
  refine .stack ?_
  unfold Walk.tracked
  split
  · exact (lift _).bind fun _ => work.bind fun _ => (lift _).bind fun _ => .pure _
  · exact work

/-! A nominal type is entered at once on the way down into a type, where the analysis first lists all the
parts of the type. -/

section

variable {visit : DeclId → Nested Outcome} {enter : DeclId → Analysis Outcome}

mutual

theorem typeOutcome (visits : ∀ id, Follows graph options path (visit id) (enter id)) :
    ∀ type : TypeRef,
      Follows graph options path (Nested.typeOutcome visit type) (Walk.typeOutcome enter type)
  | .primitive name => by
    rw [Nested.typeOutcome, Walk.typeOutcome, TypeRef.parts, Walk.partsOutcome_singleton]
    exact .pure _
  | .nominal decl => by
    rw [Nested.typeOutcome, Walk.typeOutcome, TypeRef.parts, Walk.partsOutcome_singleton]
    exact visits decl
  | .tuple items => by
    rw [Nested.typeOutcome, Walk.typeOutcome, TypeRef.parts]
    exact itemsOutcome visits items
  | .optional wrapped => by
    rw [Nested.typeOutcome, Walk.typeOutcome, TypeRef.parts]
    exact typeOutcome visits wrapped
  | .function sendable => by
    rw [Nested.typeOutcome, Walk.typeOutcome, TypeRef.parts, Walk.partsOutcome_singleton]
    exact .pure _

theorem itemsOutcome (visits : ∀ id, Follows graph options path (visit id) (enter id)) :
    ∀ items : List TypeRef, Follows graph options path (Nested.itemsOutcome visit items)
      (Walk.partsOutcome enter (TypeRef.partsOfItems items))
  | [] => by
    rw [Nested.itemsOutcome, TypeRef.partsOfItems]
    exact .pure _
  | item :: items => by
    rw [Nested.itemsOutcome, TypeRef.partsOfItems, Walk.partsOutcome_append]
    exact (typeOutcome visits item).bind fun first =>
      (itemsOutcome visits items).bind fun others => .pure _

end

variable (visits : ∀ id, Follows graph options path (visit id) (enter id))

include visits

theorem fieldOutcome (owner : DeclId) (kind : TypeKind) (field : Declaration) :
    Follows graph options path (Nested.fieldOutcome graph visit owner kind field)
      (Walk.fieldOutcome graph enter owner kind field) := by
  unfold Nested.fieldOutcome Walk.fieldOutcome
  refine (lift _).bind fun guarded => ?_
  split
  · exact .pure _
  · split
    · exact .pure _
    · cases field.type with
      | none => exact .pure _
      | some type =>
        exact (typeOutcome visits type).bind fun outcome => (lift _).bind fun accepted => .pure _

theorem fieldsOutcome (owner : DeclId) (kind : TypeKind) (fields : List Declaration)
    (outcome : Outcome) :
    Follows graph options path (Nested.fieldsOutcome graph visit owner kind fields outcome)
      (Walk.fieldsOutcome graph enter owner kind fields outcome) := by
  induction fields generalizing outcome with
  | nil => exact .pure _
  | cons field rest ih =>
    unfold Nested.fieldsOutcome Walk.fieldsOutcome
    refine (fieldOutcome visits owner kind field).bind fun found => ?_
    cases found with
    | none => exact ih outcome
    | some next =>
      dsimp only
      split
      · exact .pure _
      · exact ih (outcome.join next)

end

theorem declOutcome {visit : DeclId → Nested Outcome} {enter : DeclId → Analysis Outcome}
    {decl : Declaration} (visits : decl.isType → ∀ id, Follows graph options path (visit id) (enter id))
    (site : ModuleId) :
    Follows graph options path (Nested.declOutcome graph options visit decl site)
      (Walk.declOutcome graph options enter decl site) := by
  unfold Nested.declOutcome Walk.declOutcome
  cases typed : decl.typeKind? with
  | none => exact .pure _
  | some kind =>
    have isType : decl.isType := by simp [Declaration.isType, typed]
    refine (lift _).bind fun verdict => ?_
    cases verdict with
    | some verdict => exact .pure _
    | none =>
      dsimp only
      split
      · exact .pure _
      · exact fieldsOutcome (visits isType) decl.id kind _ _

/-- With depth enough left for all that may still come to wait, a look goes as the analysis does. -/
theorem look (beyond : UseSite → Nested Outcome) {depth : Nat} (proper : ProperStack graph options path)
    (inside : path ≠ [] → key.site ∈ Walk.homes graph options)
    (home : path ≠ [] → key.site ∈ typeHomes graph options)
    (enough : stackLimit graph options < depth + path.length) :
    Follows graph options path (look graph options beyond depth key)
      (Walk.evaluate graph options path key inside) := by
  -- By induction on the depth. Each look inside of this one finds one type more on the stack, so where
  -- no depth is left the stack would be longer than it can be.
  induction depth generalizing path key with
  | zero =>
    have := proper.length_le
    omega
  | succ depth ih =>
    unfold Nested.look Walk.evaluate
    refine .noted ((lift _).bind fun ledger => ?_)
    cases ledger.verdict? key with
    | some verdict => exact .pure _
    | none =>
      refine .stack ?_
      cases fresh : depthOf? key path with
      | some outer => exact .pure _
      | none =>
        -- The analysis keeps the equation that finds the declaration, so its side is split on its own.
        dsimp only
        split
        · rename_i unknown
          split
          · exact .pure _
          · rename_i decl known
            simp [unknown] at known
        · rename_i decl known
          have declared := Graph.mem_of_decl? known
          have pushed : ProperStack graph options (key :: path) :=
            proper.push (depthOf?_eq_none fresh) ⟨decl, declared, Graph.id_of_decl? known⟩ home
          split
          · rename_i unknown
            simp [unknown] at known
          · rename_i same found
            obtain rfl := Option.some.inj (known.symm.trans found)
            refine .tracked ((under proper pushed (declOutcome (fun isType id => ?_) key.site)).bind
              fun outcome => lift _)
            refine ih pushed _ (fun _ => ?_) ?_
            · exact mem_typeHomes.mpr ⟨decl, declared, isType, rfl⟩
            · rw [List.length_cons]
              omega

theorem sendabilityFrom (beyond : UseSite → Nested Outcome) {depth : Nat}
    (enough : stackLimit graph options < depth) (type : TypeRef) (site : ModuleId) :
    Follows graph options [] (Nested.sendabilityFrom graph options beyond depth type site)
      (ActorIsolation.sendabilityFrom graph options type site) := by
  refine (typeOutcome (fun id => ?_) type).bind fun outcome => .pure _
  exact look beyond .nil _ (fun absurd => (absurd rfl).elim) enough

theorem map_fst (follows : Follows graph options [] nested analysis) :
    Prod.fst <$> nested.run {} = analysis := by
  refine StateT.ext fun ledger => ?_
  rw [StateT.run_map]
  refine (follows {} ledger rfl ⟨by simp, by simp⟩).map_eq ?_
  rintro result _ ⟨rfl, -, -⟩
  rfl

theorem endsIn (follows : Follows graph options [] nested analysis) (ledger : Ledger) :
    ((nested.run {}).run ledger).EndsIn fun result =>
      result.1.2.stack = [] ∧ result.1.2.Regular graph options :=
  (follows {} ledger rfl ⟨by simp, by simp⟩).endsIn fun _ _ related => related.2

end Follows

end Nested

/-- With depth for as many types as can wait at a time, looks never go beyond it and the walk is what it is
without a stack. Whatever is answered on the way, no type waits twice at a time, all that wait above the
outermost one are declared and used from the home of a declared type, and each look leaves the stack as
it was. -/
theorem walk_stack_bounded (graph : Graph) (options : Options) (beyond : UseSite → Nested Outcome)
    {depth : Nat} (enough : stackLimit graph options < depth) (type : TypeRef) (site : ModuleId) :
    let nested := Nested.sendabilityFrom graph options beyond depth type site
    Prod.fst <$> nested.run {} = sendabilityFrom graph options type site ∧
      ∀ ledger, ((nested.run {}).run ledger).EndsIn fun result =>
        result.1.2.stack = [] ∧
          (∀ stack ∈ result.1.2.history, stack.Nodup ∧
            (∀ key ∈ stack.dropLast, (∃ decl ∈ graph.decls, decl.id = key.decl) ∧
              ∃ owner ∈ graph.decls, owner.isType ∧ options.moduleOf owner.id = key.site) ∧
            stack.length ≤ 1 + graph.decls.length * (typeHomes graph options).length) ∧
          ∀ look ∈ result.1.2.looks, look.after = look.before := by
  intro nested
  have follows : Nested.Follows graph options [] nested (sendabilityFrom graph options type site) :=
    .sendabilityFrom beyond enough type site
  refine ⟨follows.map_fst, fun ledger => (follows.endsIn ledger).mono ?_⟩
  rintro result ⟨empty, regular⟩
  refine ⟨empty, fun stack mem => ?_, regular.looks⟩
  have proper := regular.history stack mem
  refine ⟨proper.distinct, fun key above => ⟨?_, ?_⟩, proper.length_le⟩
  · exact proper.declared key (List.dropLast_subset stack above)
  · exact mem_typeHomes.mp (proper.homes key above)

/-- Trees and forests hold each other, each kind in a module of its own. -/
def treesAndForests : Graph where
  decls :=
    [{ id := ⟨1⟩, name := "Tree", kind := .type .struct, sendable := .checked },
      { id := ⟨2⟩, name := "branches", kind := .storedProperty, enclosing := some ⟨1⟩,
        type := some (.tuple [.primitive "Int", .optional (.nominal ⟨3⟩)]) },
      { id := ⟨3⟩, name := "Forest", kind := .type .struct, sendable := .checked },
      { id := ⟨4⟩, name := "largest", kind := .storedProperty, enclosing := some ⟨3⟩,
        type := some (.optional (.nominal ⟨1⟩)) }]
  plan := _
  plan_eq := rfl
  decls_ascending := by decide
  extensions_ascending := Graph.noExtensions_ascending
  edges_ascending := Graph.noCalls_ascending
  sound := by decide +kernel

def treeModules : Options := { modules := [(⟨1⟩, ⟨7⟩), (⟨3⟩, ⟨9⟩)] }

theorem treesAndForests_stack_bounded :
    let nested := Nested.sendabilityFrom treesAndForests treeModules
      (fun _ => pure (.settled .notSendable)) 10 (.nominal ⟨1⟩) .here
    stackLimit treesAndForests treeModules < 10 ∧
      Prod.fst <$> nested.run {} = sendabilityFrom treesAndForests treeModules (.nominal ⟨1⟩) .here ∧
      ∀ ledger, ((nested.run {}).run ledger).EndsIn fun result =>
        ∀ stack ∈ result.1.2.history, stack.Nodup ∧ stack.length ≤ 9 := by
  intro nested
  have enough : stackLimit treesAndForests treeModules < 10 := by decide
  obtain ⟨same, ends⟩ := walk_stack_bounded treesAndForests treeModules
    (fun _ => pure (.settled .notSendable)) enough (.nominal ⟨1⟩) .here
  refine ⟨enough, same, fun ledger => (ends ledger).mono ?_⟩
  rintro result ⟨-, history, -⟩ stack mem
  exact ⟨(history stack mem).1, (history stack mem).2.2⟩

/-- A tree comes to wait twice, for it is used from two modules, and the forest that is met inside of
itself does not. -/
example :
    (((Nested.sendabilityFrom treesAndForests treeModules (fun _ => pure (.settled .notSendable)) 10
      (.nominal ⟨1⟩) .here).run {}).against (fun _ => .fallback) {}).1.2.history =
      [[⟨⟨1⟩, .here⟩], [⟨⟨3⟩, ⟨7⟩⟩, ⟨⟨1⟩, .here⟩], [⟨⟨1⟩, ⟨9⟩⟩, ⟨⟨3⟩, ⟨7⟩⟩, ⟨⟨1⟩, .here⟩],
        [⟨⟨3⟩, ⟨7⟩⟩, ⟨⟨1⟩, .here⟩], [⟨⟨1⟩, .here⟩], []] := by
  decide +kernel

end ActorIsolation
