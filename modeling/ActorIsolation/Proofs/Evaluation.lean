import ActorIsolation.Proofs.Recovery

/-! Each member of a component is evaluated once. Here the declarations that wait are kept on a stack, which
each look-up finds and leaves behind, and look-ups are nested no deeper than there is depth for. As the
stack holds members only, and none of them twice, a depth of one more than there are members is enough, and
what would be done beyond it plays no part.
-/

set_option autoImplicit false

namespace ActorIsolation

/-- A look-up as it went, with the declarations that waited when it began and when it was over, innermost
first. -/
structure LookUp where
  id : DeclId
  before : List DeclId
  answer : Option Isolation
  after : List DeclId
  deriving DecidableEq, Repr, Inhabited

/-- Solving with a stack of the declarations that are being evaluated, innermost first, and an account of
the work. -/
structure Evaluator where
  solving : Solving
  stack : List DeclId := []
  /-- What the stack has been, from one change to the next. -/
  history : List (List DeclId) := []
  /-- The declarations whose evaluation has begun, in order. -/
  evaluated : List DeclId := []
  lookUps : List LookUp := []
  deriving DecidableEq, Repr, Inhabited

namespace Evaluator

def write (event : Event) (evaluator : Evaluator) : Evaluator :=
  { evaluator with solving := evaluator.solving.write event }

def enter (id : DeclId) (evaluator : Evaluator) : Evaluator :=
  { evaluator with
    stack := id :: evaluator.stack
    history := evaluator.history ++ [id :: evaluator.stack]
    evaluated := evaluator.evaluated ++ [id] }

def leave (evaluator : Evaluator) : Evaluator :=
  { evaluator with
    stack := evaluator.stack.tail
    history := evaluator.history ++ [evaluator.stack.tail] }

def conclude (id : DeclId) (ruling : Option Ruling) (evaluator : Evaluator) :
    Option Isolation × Evaluator :=
  let (isolation, solving) := evaluator.solving.conclude id ruling
  (some isolation, { evaluator with solving })

section

variable (graph : Graph) (options : Options) (settled : IsolationTable)

def answer (ask : DeclId → Evaluator → Option Isolation × Evaluator) (id : DeclId)
    (evaluator : Evaluator) : Option Isolation × Evaluator :=
  match evaluator.solving.known? settled id with
  | some isolation => (some isolation, evaluator)
  | none =>
    if id ∈ evaluator.stack then
      let cycle := evaluator.stack.takeWhile (· ≠ id) ++ [id]
      (none, { evaluator with solving := evaluator.solving.markCyclic cycle })
    else
      match graph.decl? id with
      | none => (some .fallback, evaluator)
      | some decl =>
        let (ruling, evaluator) := (decl.ruling graph options).attempt ask write (evaluator.enter id)
        evaluator.leave.conclude id ruling

/-- Looks a declaration up, with so many look-ups nested and others beyond them. -/
def lookUp (beyond : DeclId → Evaluator → Option Isolation × Evaluator) :
    Nat → DeclId → Evaluator → Option Isolation × Evaluator
  | 0, id, evaluator => beyond id evaluator
  | depth + 1, id, evaluator =>
    let (reply, after) := evaluator.answer graph options settled (lookUp beyond depth) id
    (reply, { after with
      lookUps := after.lookUps ++ [⟨id, evaluator.stack, reply, after.stack⟩] })

def solve (beyond : DeclId → Evaluator → Option Isolation × Evaluator) (depth index : Nat)
    (members : List DeclId) : Evaluator :=
  let query : Query := ⟨.resolveComponent, index⟩
  let start : Evaluator := { solving := { events := [.opened query] } }
  let evaluator := members.foldl
    (fun evaluator member => (evaluator.lookUp graph options settled beyond depth member).2) start
  evaluator.write (.closed query (if evaluator.solving.issues.isEmpty then .ok else .issues))

end

end Evaluator

/-- A look-up in a component whose dependencies are settled. -/
structure LookUp.Regular (graph : Graph) (settled : IsolationTable) (members : List DeclId)
    (look : LookUp) : Prop where
  declared : (graph.decl? look.id).isSome
  placed : look.id ∈ members ∨ (settled.lookup look.id).isSome
  unanswered : look.answer = none ↔ look.id ∈ look.before
  restored : look.after = look.before

namespace Evaluator

variable {graph : Graph} {options : Options} {settled : IsolationTable} {members path : List DeclId}
  {evaluator : Evaluator} {state : Solving} {id : DeclId}

/-- The declarations whose evaluation is under way, innermost first, and those that have an answer. -/
def begun (evaluator : Evaluator) : List DeclId :=
  evaluator.stack ++ evaluator.solving.found.map (·.1)

structure Orderly (graph : Graph) (settled : IsolationTable) (members : List DeclId)
    (evaluator : Evaluator) : Prop where
  distinct : evaluator.begun.Nodup
  inside : ∀ id ∈ evaluator.begun, id ∈ members ∧ settled.lookup id = none
  once : evaluator.evaluated.Perm evaluator.begun
  history : ∀ stack ∈ evaluator.history, stack.Nodup ∧ stack ⊆ members
  lookUps : ∀ look ∈ evaluator.lookUps, look.Regular graph settled members

/-- The evaluator stands where solving stands while the declarations of `path` wait. -/
structure Follows (graph : Graph) (settled : IsolationTable) (members path : List DeclId)
    (state : Solving) (evaluator : Evaluator) : Prop where
  orderly : evaluator.Orderly graph settled members
  stack : evaluator.stack = path
  solving : evaluator.solving = state

namespace Orderly

theorem stack_proper (orderly : evaluator.Orderly graph settled members) :
    evaluator.stack.Nodup ∧ evaluator.stack ⊆ members :=
  ⟨(List.nodup_append.mp orderly.distinct).1,
    fun id mem => (orderly.inside id (List.mem_append_left _ mem)).1⟩

theorem length_le (orderly : evaluator.Orderly graph settled members) :
    evaluator.stack.length ≤ members.length :=
  (orderly.stack_proper.1.subperm orderly.stack_proper.2).length_le

theorem waits (orderly : evaluator.Orderly graph settled members) (open_ : id ∈ evaluator.stack) :
    evaluator.solving.known? settled id = none := by
  have unsettled := (orderly.inside id (List.mem_append_left _ open_)).2
  have unanswered : id ∉ evaluator.solving.found.map (·.1) :=
    fun mem => (List.nodup_append.mp orderly.distinct).2.2 id open_ id mem rfl
  rw [Solving.known?, unsettled, Option.none_or]
  rwa [← lookup_isSome, Option.not_isSome_iff_eq_none] at unanswered

theorem enter (orderly : evaluator.Orderly graph settled members) (member : id ∈ members)
    (unknown : evaluator.solving.known? settled id = none) (free : id ∉ evaluator.stack) :
    (evaluator.enter id).Orderly graph settled members := by
  obtain ⟨unsettled, unfound⟩ := Option.or_eq_none_iff.mp unknown
  have unanswered : id ∉ evaluator.solving.found.map (·.1) := by
    rw [← lookup_isSome, unfound]
    simp
  have fresh : id ∉ evaluator.begun := List.not_mem_append free unanswered
  obtain ⟨nodup, subset⟩ := orderly.stack_proper
  refine ⟨List.nodup_cons.mpr ⟨fresh, orderly.distinct⟩,
    List.forall_mem_cons.mpr ⟨⟨member, unsettled⟩, orderly.inside⟩, ?_, ?_, orderly.lookUps⟩
  · exact (List.perm_append_singleton id _).trans (orderly.once.cons id)
  · intro stack mem
    rcases List.mem_append.mp mem with mem | mem
    · exact orderly.history stack mem
    · rw [List.mem_singleton.mp mem]
      exact ⟨List.nodup_cons.mpr ⟨free, nodup⟩, List.cons_subset.mpr ⟨member, subset⟩⟩

theorem write (orderly : evaluator.Orderly graph settled members) (event : Event) :
    (evaluator.write event).Orderly graph settled members :=
  ⟨orderly.distinct, orderly.inside, orderly.once, orderly.history, orderly.lookUps⟩

theorem markCyclic (orderly : evaluator.Orderly graph settled members) (ids : List DeclId) :
    Orderly graph settled members
      { evaluator with solving := evaluator.solving.markCyclic ids } :=
  ⟨orderly.distinct, orderly.inside, orderly.once, orderly.history, orderly.lookUps⟩

theorem conclude (orderly : evaluator.Orderly graph settled members)
    (top : evaluator.stack = id :: path) (ruling : Option Ruling) :
    Orderly graph settled members (evaluator.leave.conclude id ruling).2 := by
  obtain ⟨isolation, -, found, -⟩ := evaluator.solving.conclude_spec id ruling
  have moved : (evaluator.leave.conclude id ruling).2.begun.Perm evaluator.begun := by
    simp only [Evaluator.conclude, leave, begun, found, top, List.map_cons, List.tail_cons]
    exact List.perm_middle
  obtain ⟨nodup, subset⟩ := orderly.stack_proper
  rw [top] at nodup subset
  refine ⟨moved.nodup_iff.mpr orderly.distinct, fun other mem => ?_, orderly.once.trans moved.symm,
    fun stack mem => ?_, orderly.lookUps⟩
  · exact orderly.inside other (moved.mem_iff.mp mem)
  · rcases List.mem_append.mp mem with mem | mem
    · exact orderly.history stack mem
    · rw [List.mem_singleton.mp mem, top, List.tail_cons]
      exact ⟨(List.nodup_cons.mp nodup).2, (List.cons_subset.mp subset).2⟩

end Orderly

end Evaluator

/-- Two attempts whose questions are answered alike, in states that correspond, come to the same in states
that correspond. -/
theorem Inquiry.AsksOnly.attempt_related {α σ τ : Type} {related : σ → τ → Prop}
    {allowed : DeclId → Prop} {respond : DeclId → σ → Option Isolation × σ}
    {other : DeclId → τ → Option Isolation × τ} {record : Event → σ → σ} {note : Event → τ → τ}
    {inquiry : Inquiry α} (asks : inquiry.AsksOnly allowed)
    (answered : ∀ id first second, allowed id → related first second →
      (respond id first).1 = (other id second).1 ∧ related (respond id first).2 (other id second).2)
    (recorded : ∀ event first second, related first second →
      related (record event first) (note event second)) {first : σ} {second : τ}
    (start : related first second) :
    (inquiry.attempt respond record first).1 = (inquiry.attempt other note second).1 ∧
      related (inquiry.attempt respond record first).2 (inquiry.attempt other note second).2 := by
  induction inquiry generalizing first second with
  | done value => exact ⟨rfl, start⟩
  | ask id next ih =>
    obtain ⟨same, after⟩ := answered id first second asks.1 start
    unfold attempt
    cases reply : respond id first with
    | mk isolation middle =>
      cases counterpart : other id second with
      | mk isolation' middle' =>
        rw [reply, counterpart] at same after
        cases same
        cases isolation with
        | none => exact ⟨rfl, after⟩
        | some isolation => exact ih isolation (asks.2 isolation) after
  | note event next ih => exact ih () asks (recorded event first second start)

namespace Evaluator

variable {graph : Graph} {options : Options} {settled : IsolationTable} {members path : List DeclId}
  {evaluator : Evaluator} {state : Solving} {id : DeclId} {region : Region graph settled}
  {ask beyond : DeclId → Evaluator → Option Isolation × Evaluator} {depth : Nat}

def Faithful (graph : Graph) (options : Options) (settled : IsolationTable)
    (members path : List DeclId) (ask : DeclId → Evaluator → Option Isolation × Evaluator)
    (id : DeclId) : Prop :=
  ∀ evaluator state, Follows graph settled members path state evaluator →
    (ask id evaluator).1 = (ActorIsolation.lookUp graph options settled path id state).1 ∧
      Follows graph settled members path
        (ActorIsolation.lookUp graph options settled path id state).2 (ask id evaluator).2

theorem answer_faithful (within : ∀ id, region.Holds id → id ∈ members ∨ (settled.lookup id).isSome)
    (inside : region.Holds id)
    (asked : ∀ next, id ∈ members → id ∉ path → region.Holds next →
      Faithful graph options settled members (id :: path) ask next) :
    Faithful graph options settled members path
      (fun id evaluator => evaluator.answer graph options settled ask id) id := by
  rintro evaluator state ⟨orderly, rfl, rfl⟩
  dsimp only [answer]
  cases known : evaluator.solving.known? settled id with
  | some isolation =>
    rw [lookUp_known known]
    exact ⟨rfl, orderly, rfl, rfl⟩
  | none =>
    by_cases waits : id ∈ evaluator.stack
    · rw [lookUp_waiting known waits, if_pos waits]
      exact ⟨rfl, orderly.markCyclic _, rfl, rfl⟩
    · obtain ⟨decl, found⟩ := Option.isSome_iff_exists.mp (region.declared id inside)
      have unsettled := (Option.or_eq_none_iff.mp known).1
      have member : id ∈ members := (within id inside).resolve_right (by simp [unsettled])
      rw [lookUp_consults known waits found, if_neg waits, found]
      dsimp only [consult]
      -- The rules ask for dependencies only, and those are within the region.
      obtain ⟨same, after⟩ := (ruling_asksOnly graph options decl).attempt_related
        (fun next evaluator state dependency follows => asked next member waits
          (region.closed id next inside unsettled ⟨decl, found, dependency⟩) evaluator state follows)
        (fun event evaluator state (follows : Follows graph settled members _ state evaluator) =>
          (⟨follows.orderly.write event, follows.stack, congrArg (·.write event) follows.solving⟩ :
            Follows graph settled members _ (state.write event) (evaluator.write event)))
        (⟨orderly.enter member known waits, rfl, rfl⟩ :
          Follows graph settled members (id :: evaluator.stack) evaluator.solving (evaluator.enter id))
      revert same after
      generalize (decl.ruling graph options).attempt ask write (evaluator.enter id) = attempted
      generalize (decl.ruling graph options).attempt _ _ evaluator.solving = consulted
      obtain ⟨ruling, final⟩ := attempted
      obtain ⟨_, solved⟩ := consulted
      rintro rfl ⟨orderly, top, rfl⟩
      dsimp only at top
      refine ⟨rfl, orderly.conclude top ruling, ?_, rfl⟩
      simp [conclude, leave, top]

theorem lookUp_eq_none_iff : (ActorIsolation.lookUp graph options settled path id state).1 = none ↔
    state.known? settled id = none ∧ id ∈ path := by
  cases known : state.known? settled id with
  | some isolation => simp [lookUp_known known]
  | none =>
    by_cases waits : id ∈ path
    · simp [lookUp_waiting known waits, waits]
    · cases found : graph.decl? id with
      | none => simp [lookUp_undeclared known waits found, waits]
      | some decl => simp [lookUp_consults known waits found, waits]

/-- With depth for all members, nothing is left to what is beyond. -/
theorem lookUp_faithful (within : ∀ id, region.Holds id → id ∈ members ∨ (settled.lookup id).isSome)
    (inside : region.Holds id) (enough : members.length < depth + path.length) :
    Faithful graph options settled members path
      (fun id evaluator => evaluator.lookUp graph options settled beyond depth id) id := by
  induction depth generalizing path id with
  | zero =>
    rintro evaluator state ⟨orderly, rfl, -⟩
    have := orderly.length_le
    omega
  | succ depth ih =>
    intro evaluator state follows
    have deeper (next : DeclId) (_ : id ∈ members) (_ : id ∉ path) (holds : region.Holds next) :=
      @ih (id :: path) next holds (by simp only [List.length_cons]; omega)
    obtain ⟨same, after⟩ := answer_faithful within inside deeper evaluator state follows
    obtain ⟨orderly, rfl, rfl⟩ := follows
    have waits : (ActorIsolation.lookUp graph options settled evaluator.stack id evaluator.solving).1 =
        none ↔ id ∈ evaluator.stack :=
      lookUp_eq_none_iff.trans ⟨And.right, fun open_ => ⟨orderly.waits open_, open_⟩⟩
    have regular : LookUp.Regular graph settled members ⟨id, evaluator.stack,
        (evaluator.answer graph options settled (lookUp graph options settled beyond depth) id).1,
        (evaluator.answer graph options settled (lookUp graph options settled beyond depth) id).2.stack⟩ :=
      ⟨region.declared id inside, within id inside, by rw [same]; exact waits, after.stack⟩
    obtain ⟨final, stack, solving⟩ := after
    refine ⟨same, ⟨final.distinct, final.inside, final.once, final.history, ?_⟩, stack, solving⟩
    intro look mem
    rcases List.mem_append.mp mem with mem | mem
    · exact final.lookUps look mem
    · exact List.mem_singleton.mp mem ▸ regular

theorem foldl_follows (within : ∀ id, region.Holds id → id ∈ members ∨ (settled.lookup id).isSome)
    (enough : members.length < depth) {rest : List DeclId} (inside : ∀ member ∈ rest, region.Holds member)
    (follows : Follows graph settled members [] state evaluator) :
    Follows graph settled members []
      (rest.foldl (fun state member =>
        (ActorIsolation.lookUp graph options settled [] member state).2) state)
      (rest.foldl (fun evaluator member =>
        (evaluator.lookUp graph options settled beyond depth member).2) evaluator) := by
  induction rest generalizing state evaluator with
  | nil => exact follows
  | cons member rest ih =>
    obtain ⟨first, others⟩ := List.forall_mem_cons.mp inside
    exact ih others (lookUp_faithful within first enough evaluator state follows).2

theorem solve_follows (within : ∀ id, region.Holds id → id ∈ members ∨ (settled.lookup id).isSome)
    (inside : ∀ member ∈ members, region.Holds member) (enough : members.length < depth) (index : Nat) :
    Follows graph settled members [] (solveComponent graph options settled index members)
      (solve graph options settled beyond depth index members) := by
  have start : Follows graph settled members [] { events := [.opened ⟨.resolveComponent, index⟩] }
      { solving := { events := [.opened ⟨.resolveComponent, index⟩] } } :=
    ⟨⟨.nil, by simp [begun], .nil, by simp, by simp⟩, rfl, rfl⟩
  obtain ⟨orderly, stack, solving⟩ := foldl_follows within enough inside start
  refine ⟨orderly.write _, stack, ?_⟩
  simp only [solve, write, solveComponent, solving]

end Evaluator

/-- Once all that a component depends on is settled, solving it comes to an end, and each member that is
not settled is evaluated once. Look-ups are nested no deeper than there are members, whatever would be done
beyond: the stack holds members only, and none of them twice. Every look-up is for a declaration, which is
a member or settled, leaves the stack as it was, and is without an answer just when the declaration is
itself on the stack. -/
theorem members_evaluated_once {graph : Graph} {index : Nat} {component : Component}
    {settled : IsolationTable} (found : graph.plan.components[index]? = some component)
    (ready : ∀ earlier ∈ component.dependencies, ∀ id, graph.Member earlier id →
      (settled.lookup id).isSome) (options : Options)
    (beyond : DeclId → Evaluator → Option Isolation × Evaluator) (depth : Nat)
    (enough : component.members.length < depth) :
    let evaluator := Evaluator.solve graph options settled beyond depth index component.members
    let unsettled := component.members.filter fun id => (settled.lookup id).isNone
    evaluator.solving = solveComponent graph options settled index component.members ∧
      evaluator.stack = [] ∧
      (∀ stack ∈ evaluator.history, stack.Nodup ∧ stack ⊆ component.members) ∧
      (∀ look ∈ evaluator.lookUps, (graph.decl? look.id).isSome ∧
        (look.id ∈ component.members ∨ (settled.lookup look.id).isSome) ∧
        (look.answer = none ↔ look.id ∈ look.before) ∧ look.after = look.before) ∧
      component.members.Nodup ∧ evaluator.evaluated.Perm unsettled ∧
      ((solveComponent graph options settled index component.members).found.map (·.1)).Perm unsettled ∧
      ((∀ id ∈ component.members, settled.lookup id = none) →
        evaluator.evaluated.Perm component.members ∧
          ((solveComponent graph options settled index component.members).found.map (·.1)).Perm
            component.members) := by
  intro evaluator unsettled
  have inside : ∀ member ∈ component.members, (Graph.regionOf found ready).Holds member :=
    fun member mem => .inl ⟨component, found, mem⟩
  have within : ∀ id, (Graph.regionOf found ready).Holds id →
      id ∈ component.members ∨ (settled.lookup id).isSome := by
    rintro id (⟨same, placed, mem⟩ | ⟨earlier, before, member⟩)
    · obtain rfl : component = same := Option.some.inj (found.symm.trans placed)
      exact .inl mem
    · exact .inr (ready earlier before id member)
  obtain ⟨orderly, stack, solving⟩ : Evaluator.Follows graph settled component.members []
      (solveComponent graph options settled index component.members) evaluator :=
    Evaluator.solve_follows within inside enough index
  have answered : evaluator.begun =
      (solveComponent graph options settled index component.members).found.map (·.1) := by
    rw [Evaluator.begun, stack, solving, List.nil_append]
  have distinct : component.members.Nodup := (Graph.members_ascend found).nodup
  -- Nothing waits in the end, so what was begun has its answer; and every member has one.
  have all : evaluator.begun.Perm unsettled := by
    refine (List.perm_ext_iff_of_nodup orderly.distinct (distinct.filter _)).mpr fun id => ?_
    rw [List.mem_filter, Option.isNone_iff_eq_none]
    refine ⟨orderly.inside id, fun ⟨mem, fresh⟩ => ?_⟩
    have known := (solveComponent_sound options inside index).2 id mem
    rwa [Solving.known?, fresh, Option.none_or, lookup_isSome, ← answered] at known
  refine ⟨solving, stack, orderly.history, fun look mem => ?_, distinct, orderly.once.trans all,
    answered ▸ all, fun fresh => ?_⟩
  · obtain ⟨declared, placed, unanswered, restored⟩ := orderly.lookUps look mem
    exact ⟨declared, placed, unanswered, restored⟩
  · have same : unsettled = component.members :=
      List.filter_eq_self.mpr fun id mem => by simp [fresh id mem]
    rw [same] at all
    exact ⟨orderly.once.trans all, answered ▸ all⟩

def resetSettled : IsolationTable := [(⟨4⟩, ⟨.globalActor ⟨0⟩, .explicit⟩)]

theorem guardedOverrides_evaluated_once :
    let component : Component := ⟨[⟨1⟩, ⟨2⟩, ⟨3⟩], [1]⟩
    let evaluator := Evaluator.solve guardedOverrides {} resetSettled
      (fun _ evaluator => (none, evaluator)) 4 2 component.members
    guardedOverrides.plan.components[2]? = some component ∧
      (∀ id, guardedOverrides.Member 1 id → (resetSettled.lookup id).isSome) ∧
      evaluator.solving = solveComponent guardedOverrides {} resetSettled 2 component.members ∧
      evaluator.evaluated.Perm [⟨1⟩, ⟨2⟩, ⟨3⟩] := by
  intro component evaluator
  have found : guardedOverrides.plan.components[2]? = some component := by decide +kernel
  have ready : ∀ id, guardedOverrides.Member 1 id → (resetSettled.lookup id).isSome := by
    have alone : guardedOverrides.plan.components[1]? = some ⟨[⟨4⟩], []⟩ := by decide +kernel
    rintro id ⟨reset, placed, mem⟩
    obtain rfl := Option.some.inj (alone.symm.trans placed)
    rw [List.mem_singleton.mp mem]
    decide
  obtain ⟨same, -, -, -, -, -, -, once⟩ := members_evaluated_once found
    (fun earlier listed => List.mem_singleton.mp listed ▸ ready) {}
    (fun _ evaluator => (none, evaluator)) 4 (by decide)
  exact ⟨found, ready, same, (once (by decide)).1⟩

/-- The ring is followed once around, and the function that it starts from is then found waiting. -/
example :
    let evaluator := Evaluator.solve guardedOverrides {} resetSettled
      (fun _ evaluator => (none, evaluator)) 4 2 [⟨1⟩, ⟨2⟩, ⟨3⟩]
    evaluator.history =
      [[⟨1⟩], [⟨2⟩, ⟨1⟩], [⟨3⟩, ⟨2⟩, ⟨1⟩], [⟨2⟩, ⟨1⟩], [⟨1⟩], []] := by
  decide +kernel

end ActorIsolation
