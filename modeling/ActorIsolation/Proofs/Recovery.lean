import ActorIsolation.Proofs.Locality

/-! Recovery from rings of overrides. When functions override each other in a ring and nothing else
could isolate them, solving breaks the ring somewhere: one of them is taken as not isolated and
reported. The whole ring is recovered when each function names the next one before any other that
leads back to it. Without that, a function that finds the rest of its ring answered already is treated
like one that depends on nothing.
-/

set_option autoImplicit false

namespace ActorIsolation

/-! ### Functions that only an override can isolate -/

/-- A top-level function with nothing written on it, which is no entry point and witnesses no
requirement. -/
structure Declaration.OverridesOnly (decl : Declaration) : Prop where
  function : decl.kind = .function
  unwritten : decl.annotations = []
  topLevel : decl.enclosing = none
  primary : decl.scope = .primary
  ordinary : decl.isEntryPoint = false
  unrequired : decl.satisfies = []

theorem Declaration.OverridesOnly.ruling {decl : Declaration} (only : decl.OverridesOnly)
    (graph : Graph) (options : Options) : decl.ruling graph options =
      Rule.globalActors decl.overrides >>= fun candidates =>
        pure ((Ruling.elect .override candidates).getD .fallback) := by
  have type : graph.enclosingType? decl = none := by
    simp [Graph.enclosingType?, only.topLevel]
  have explicit : Rule.explicit decl = Rule.skip := by
    simp [Rule.explicit, Rule.writtenAnnotations, only.unwritten, ascending]
  have entry : Rule.entryPoint options decl = Rule.skip := by
    unfold Rule.entryPoint
    split <;> simp [Rule.isEntryState, only.ordinary, only.function]
  have requirement : Rule.requirement graph decl = Rule.skip := by
    simp [Rule.requirement, only.unrequired, Rule.electFrom, Rule.globalActors, Ruling.elect,
      ascending, Rule.skip]
  simp only [Declaration.ruling, Rule.rules, only.function, explicit, entry, requirement,
    Rule.actorMember, Rule.extensionAttribute, Rule.enclosingType, type, only.primary,
    Rule.overridden, Rule.electFrom, Rule.firstOf, Rule.skip, Inquiry.pure_eq, Inquiry.done_bind,
    bind_assoc]
  congr 1
  funext candidates
  cases Ruling.elect .override candidates <;> rfl

namespace Graph

variable (graph : Graph)

def Overrides (id next : DeclId) : Prop :=
  ∃ decl, graph.decl? id = some decl ∧ decl.OverridesOnly ∧ next ∈ decl.overrides

/-- What it overrides before this one does not lead back to it. -/
def OverridesFirst (id next : DeclId) : Prop :=
  ∃ decl before after, graph.decl? id = some decl ∧ decl.OverridesOnly ∧
    decl.overrides = before ++ next :: after ∧
      ∀ earlier ∈ before, ¬ Relation.ReflTransGen graph.Depends earlier id

/-- Each function of the ring overrides the next one, and after `length` steps the first comes again. -/
structure OverrideRing (ring : Nat → DeclId) (length : Nat) : Prop where
  positive : 0 < length
  closes : ring length = ring 0
  overrides : ∀ position < length, graph.Overrides (ring position) (ring (position + 1))

end Graph

def Resolution.Recovered (table : Resolution) (id : DeclId) : Prop :=
  table.get? id = some (.nonisolated .cycle) ∧ ⟨id, .cycle⟩ ∈ table.issues

/-! ### Questions that cannot be avoided -/

namespace Inquiry

variable {α β : Type}

/-- Every way to the end of an inquiry asks this. -/
def Demands (id : DeclId) : Inquiry α → Prop
  | .done _ => False
  | .ask other next => other = id ∨ ∀ isolation, (next isolation).Demands id
  | .note _ next => (next ()).Demands id

theorem Demands.bind {id : DeclId} {inquiry : Inquiry α} (demands : inquiry.Demands id)
    (next : α → Inquiry β) : (inquiry >>= next).Demands id := by
  induction inquiry with
  | done value => exact demands.elim
  | ask other answered ih =>
    rcases demands with same | later
    · exact .inl same
    · exact .inr fun isolation => ih isolation (later isolation)
  | note event noted ih => exact ih () demands

end Inquiry

theorem Rule.globalActors_demands {ids : List DeclId} {id : DeclId} (mem : id ∈ ids) :
    (globalActors ids).Demands id := by
  induction ids with
  | nil => cases mem
  | cons first rest ih =>
    rcases List.mem_cons.mp mem with rfl | mem
    · exact .inl rfl
    · exact .inr fun _ => (ih mem).bind _

variable {graph : Graph} {options : Options} {settled : IsolationTable} {path : List DeclId}
  {id : DeclId} {state : Solving}

theorem consult_demanded {α : Type} {inquiry : Inquiry α} {asked : DeclId} {value : α}
    (demands : inquiry.Demands asked) (declared : (graph.decl? asked).isSome)
    (ended : (consult graph options settled path inquiry state).1 = some value) :
    ((consult graph options settled path inquiry state).2.known? settled asked).isSome := by
  induction inquiry generalizing state with
  | done value => exact demands.elim
  | ask other next ih =>
    unfold consult Inquiry.attempt at ended ⊢
    cases reply : lookUp graph options settled path other state with
    | mk answer middle =>
      cases answer with
      | none => simp [reply] at ended
      | some isolation =>
        simp only [reply] at ended ⊢
        rcases demands with rfl | later
        · -- Answered here, and nothing known is given up on the rest of the way.
          have answered := @lookUp_answered graph options settled path other state isolation
            declared (by rw [reply])
          rw [reply] at answered
          obtain ⟨known, before⟩ := Option.isSome_iff_exists.mp answered
          exact Option.isSome_of_eq_some (consult_grows (next isolation) before)
        · exact ih isolation (later isolation) ended
  | note event next ih => exact ih () demands ended

/-! ### One of a ring is recovered -/

def Solving.Recovered (settled : IsolationTable) (id : DeclId) (state : Solving) : Prop :=
  state.known? settled id = some (.nonisolated .cycle) ∧ ⟨id, .cycle⟩ ∈ state.issues

namespace Solving

theorem Recovered.conclude {other : DeclId} {ruling : Option Ruling} (different : other ≠ id)
    (recovered : state.Recovered settled other) :
    (state.conclude id ruling).2.Recovered settled other := by
  obtain ⟨more, issues, -⟩ := state.conclude_issues id ruling
  constructor
  · rw [conclude_known different]
    exact recovered.1
  · rw [issues]
    exact List.mem_append_left _ recovered.2

/-- Without a ruling, or when it has been seen to depend on itself, a declaration is recovered. -/
theorem recovered_conclude {ruling : Option Ruling} (unsettled : settled.lookup id = none)
    (cyclic : ruling = none ∨ id ∈ state.cyclic) :
    (state.conclude id ruling).2.Recovered settled id := by
  obtain ⟨more, issues, -, recovers⟩ := state.conclude_issues id ruling
  obtain ⟨answer, reported⟩ := recovers cyclic
  obtain ⟨isolation, same, found, -⟩ := state.conclude_spec id ruling
  constructor
  · simp [known?, unsettled, found, ← same, answer]
  · rw [issues]
    exact List.mem_append_right _ reported

end Solving

theorem lookUp_recovered {other : DeclId} (recovered : state.Recovered settled other) :
    (lookUp graph options settled path id state).2.Recovered settled other := by
  refine @lookUp_keeps graph options settled path id state (Solving.Recovered settled other) []
    (fun _ _ recovered => recovered) (fun _ _ recovered => recovered) ?_ (List.nil_subset _)
    recovered
  intro path id decl state _ _ _ unknown start attempted after
  have different : other ≠ id := by
    rintro rfl
    simp [start.1] at unknown
  exact after.conclude different

section

variable {Ring : DeclId → Prop}

def Solving.Untouched (settled : IsolationTable) (Ring : DeclId → Prop) (state : Solving) : Prop :=
  ∀ id, Ring id → state.known? settled id = none

/-- Once the ring is touched, something of it is recovered. -/
def Solving.Broken (settled : IsolationTable) (Ring : DeclId → Prop) (state : Solving) : Prop :=
  state.Untouched settled Ring ∨ ∃ id, Ring id ∧ state.Recovered settled id

/-- The first of a ring that is answered is recovered, since its ruling would need another answer
from the ring. -/
theorem lookUp_broken (unsettled : ∀ id, Ring id → settled.lookup id = none)
    (overrides : ∀ id, Ring id → ∃ next, Ring next ∧ graph.Overrides id next)
    (broken : state.Broken settled Ring) :
    (lookUp graph options settled path id state).2.Broken settled Ring := by
  refine @lookUp_keeps graph options settled path id state (Solving.Broken settled Ring) []
    (fun _ _ broken => broken) (fun _ _ broken => broken) ?_ (List.nil_subset _) broken
  intro path id decl state _ _ found unknown _ attempted after
  rcases after with untouched | ⟨other, member, recovered⟩
  · by_cases member : Ring id
    · refine .inr ⟨id, member, Solving.recovered_conclude (unsettled id member) (.inl ?_)⟩
      obtain ⟨next, nextMember, decl', found', only, mem⟩ := overrides id member
      rw [found] at found'
      cases found'
      have declared := Graph.dependency_declared (Graph.mem_of_decl? found)
        (Declaration.mem_dependencies.mpr (.inr (.inr (.inl mem))))
      have demands : (decl.ruling graph options).Demands next := by
        rw [only.ruling]
        exact (Rule.globalActors_demands mem).bind _
      cases ruled : attempted.1 with
      | none => rfl
      | some ruling =>
        have known : (attempted.2.known? settled next).isSome :=
          consult_demanded demands declared ruled
        simp [untouched next nextMember] at known
    · refine .inl fun other otherMember => ?_
      rw [Solving.conclude_known (by rintro rfl; exact member otherMember)]
      exact untouched other otherMember
  · -- While `id` waited it was not answered, so it is not the one that is recovered.
    have waits : attempted.2.known? settled id = none := consult_waits _ (by simp) unknown
    refine .inr ⟨other, member, recovered.conclude ?_⟩
    rintro rfl
    simp [recovered.1] at waits

/-! ### A ring that is walked round -/

def Follows (graph : Graph) (Ring : DeclId → Prop) (id next : DeclId) : Prop :=
  Ring id ∧ Ring next ∧ graph.OverridesFirst id next

/-- What solving can rely on when it comes to a ring. -/
structure Traversable (graph : Graph) (settled : IsolationTable) (Ring : DeclId → Prop) : Prop where
  unsettled : ∀ id, Ring id → settled.lookup id = none
  /-- Whatever a function of the ring depends on is settled, unless it leads back. -/
  ready : ∀ id next, Ring id → graph.Depends id next →
    ¬ Relation.ReflTransGen graph.Depends next id → (settled.lookup next).isSome
  onwards : ∀ id, Ring id → ∃ next, Follows graph Ring id next
  functional : ∀ id next other, Follows graph Ring id next → Follows graph Ring id other → next = other
  connected : ∀ id other, Ring id → Ring other → Relation.ReflTransGen (Follows graph Ring) id other

/-- The path has come to the declaration by entering the ring from outside and following it since. -/
inductive Tracks (graph : Graph) (Ring : DeclId → Prop) : List DeclId → DeclId → Prop where
  | enters {path : List DeclId} {id : DeclId} :
      (∀ outer ∈ path, ¬ Ring outer) → Ring id → Tracks graph Ring path id
  | follows {path : List DeclId} {id next : DeclId} :
      Tracks graph Ring path id → Follows graph Ring id next → Tracks graph Ring (id :: path) next

theorem Tracks.member (tracks : Tracks graph Ring path id) : Ring id := by
  cases tracks with
  | enters _ member => exact member
  | follows _ follows => exact follows.2.1

/-- From a function of the ring inwards, the path leaves itself at its end only. -/
theorem Tracks.onwards (traversable : Traversable graph settled Ring)
    (tracks : Tracks graph Ring path id) {outer inner next : DeclId} (waiting : outer ∈ path)
    (member : Ring outer) (mem : inner ∈ path.takeWhile (· ≠ outer) ++ [outer])
    (follows : Follows graph Ring inner next) :
    next = id ∨ next ∈ path.takeWhile (· ≠ outer) ++ [outer] := by
  induction tracks with
  | enters outside _ => exact absurd member (outside outer waiting)
  | @follows path last id tracks step ih =>
    by_cases same : last = outer
    · subst same
      have only : inner = last := by simpa using mem
      exact .inl (traversable.functional inner next id follows (only ▸ step))
    · have further : outer ∈ path := by
        rcases List.mem_cons.mp waiting with here | further
        · exact absurd here.symm same
        · exact further
      simp only [List.takeWhile_cons, same, ne_eq, not_false_eq_true, decide_true, if_true,
        List.cons_append, List.mem_cons] at mem ⊢
      rcases mem with rfl | mem
      · exact .inl (traversable.functional inner next id follows step)
      · exact .inr (ih further mem)

/-- When the walk comes to a function of the ring that waits, it has gone all the way round. -/
theorem Tracks.all_marked (traversable : Traversable graph settled Ring)
    (tracks : Tracks graph Ring path id) (waiting : id ∈ path) {other : DeclId} (member : Ring other) :
    other ∈ path.takeWhile (· ≠ id) ++ [id] := by
  have reached := traversable.connected id other tracks.member member
  clear member
  induction reached with
  | refl => simp
  | tail _ follows ih =>
    rcases tracks.onwards traversable waiting tracks.member ih follows with rfl | mem
    · simp
    · exact mem

/-- Questions that are answered at once change nothing, so the first other one decides what comes. -/
theorem consult_first {α : Type} {before after : List DeclId} {next : DeclId}
    (known : ∀ earlier ∈ before, ∃ isolation, state.known? settled earlier = some isolation)
    (rest : List DeclId → Inquiry α) : ∃ others,
      consult graph options settled path (Rule.globalActors (before ++ next :: after) >>= rest) state =
        consult graph options settled path (.ask next others) state := by
  induction before generalizing rest with
  | nil => exact ⟨_, rfl⟩
  | cons first before ih =>
    obtain ⟨⟨isolation, answer⟩, knownRest⟩ := List.forall_mem_cons.mp known
    obtain ⟨others, same⟩ := ih knownRest fun candidates =>
      rest (isolation.domain.globalActor?.toList ++ candidates)
    refine ⟨others, Eq.trans ?_ same⟩
    simp [consult, Rule.globalActors, Inquiry.isolation, Inquiry.attempt, lookUp_known answer]

theorem consult_ask {α : Type} {next : DeclId} (others : Isolation → Inquiry α) {kept : Solving → Prop}
    (looked : kept (lookUp graph options settled path next state).2)
    (keeps : ∀ other state, kept state → kept (lookUp graph options settled path other state).2)
    (written : ∀ state event, kept state → kept (state.write event)) :
    kept (consult graph options settled path (.ask next others) state).2 := by
  unfold consult Inquiry.attempt
  cases reply : lookUp graph options settled path next state with
  | mk answer middle =>
    rw [reply] at looked
    cases answer with
    | none => exact looked
    | some isolation => exact consult_keeps keeps written (others isolation) looked

/-- All of the ring has been seen to be cyclic, and what does not wait of it is recovered. -/
def Solving.Rounded (settled : IsolationTable) (Ring : DeclId → Prop) (path : List DeclId)
    (state : Solving) : Prop :=
  ∀ id, Ring id → id ∈ state.cyclic ∧ (id ∉ path → state.Recovered settled id)

theorem lookUp_rounded {waiting : List DeclId} (rounded : state.Rounded settled Ring waiting) :
    (lookUp graph options settled path id state).2.Rounded settled Ring waiting := by
  intro other member
  obtain ⟨cyclic, recovered⟩ := rounded other member
  exact ⟨lookUp_cyclic cyclic, fun free => lookUp_recovered (recovered free)⟩

theorem Solving.Rounded.conclude {ruling : Option Ruling}
    (rounded : state.Rounded settled Ring (id :: path)) (member : Ring id)
    (unsettled : settled.lookup id = none) :
    (state.conclude id ruling).2.Rounded settled Ring path := by
  intro other otherMember
  obtain ⟨cyclic, recovered⟩ := rounded other otherMember
  obtain ⟨_, -, -, same, -⟩ := state.conclude_spec id ruling
  refine ⟨by rwa [same], fun free => ?_⟩
  by_cases here : other = id
  · subst here
    exact recovered_conclude unsettled (.inr cyclic)
  · exact (recovered (by simp [here, free])).conclude here

/-- A walk that enters the ring goes round it, sees that all of it is cyclic, and on its way back
recovers every function that does not wait further out. -/
theorem lookUp_round (traversable : Traversable graph settled Ring)
    (tracks : Tracks graph Ring path id)
    (untouched : state.Untouched settled Ring) :
    (lookUp graph options settled path id state).2.Rounded settled Ring path := by
  induction path, id, state using lookUp.induct graph options settled with
  | case1 path id state isolation known =>
    simp [untouched id tracks.member] at known
  | case2 path id state unknown waiting =>
    rw [lookUp_waiting unknown waiting]
    intro other member
    have marked := tracks.all_marked traversable waiting member
    refine ⟨List.mem_append_left _ marked, fun free => absurd ?_ free⟩
    rcases List.mem_append.mp marked with inner | here
    · exact (List.takeWhile_sublist _).subset inner
    · exact List.mem_singleton.mp here ▸ waiting
  | case3 path id state unknown free undeclared =>
    obtain ⟨next, -, -, decl, _, _, found, -⟩ := traversable.onwards id tracks.member
    simp [undeclared] at found
  | case4 path id state unknown free decl found _ _ _ _ _ _ ih =>
    have member := tracks.member
    obtain ⟨next, follows⟩ := traversable.onwards id member
    obtain ⟨_, before, after, again, only, overrides, apart⟩ := follows.2.2
    rw [found] at again
    cases again
    -- What comes before the next function of the ring is settled, so the walk goes there first.
    have known : ∀ earlier ∈ before, ∃ isolation, state.known? settled earlier = some isolation := by
      intro earlier mem
      have listed : earlier ∈ decl.overrides := by simp [overrides, mem]
      have depends : graph.Depends id earlier :=
        ⟨decl, found, Declaration.mem_dependencies.mpr (.inr (.inr (.inl listed)))⟩
      obtain ⟨isolation, settles⟩ := Option.isSome_iff_exists.mp
        (traversable.ready id earlier member depends (apart earlier mem))
      exact ⟨isolation, by simp [Solving.known?, settles]⟩
    obtain ⟨others, same⟩ := @consult_first graph options settled (id :: path) state _ before after
      next known fun candidates => pure ((Ruling.elect .override candidates).getD .fallback)
    rw [← overrides, ← only.ruling graph options] at same
    have rounded := @consult_ask graph options settled (id :: path) state _ next others
      (Solving.Rounded settled Ring (id :: path))
      (ih next state (tracks.follows follows) untouched) (fun _ _ => lookUp_rounded)
      (fun _ _ rounded => rounded)
    rw [lookUp_consults unknown free found, same]
    exact rounded.conclude member (traversable.unsettled id member)

def Solving.Whole (settled : IsolationTable) (Ring : DeclId → Prop) (state : Solving) : Prop :=
  state.Untouched settled Ring ∨ ∀ id, Ring id → state.Recovered settled id

theorem lookUp_whole (traversable : Traversable graph settled Ring)
    (outside : ∀ outer ∈ path, ¬ Ring outer) (whole : state.Whole settled Ring) :
    (lookUp graph options settled path id state).2.Whole settled Ring := by
  rcases whole with untouched | recovered
  case inr => exact .inr fun other member => lookUp_recovered (recovered other member)
  induction path, id, state using lookUp.induct graph options settled with
  | case1 path id state isolation known =>
    rw [lookUp_known known]
    exact .inl untouched
  | case2 path id state unknown waiting =>
    rw [lookUp_waiting unknown waiting]
    exact .inl untouched
  | case3 path id state unknown free undeclared =>
    rw [lookUp_undeclared unknown free undeclared]
    exact .inl untouched
  | case4 path id state unknown free decl found _ _ _ _ _ _ ih =>
    by_cases member : Ring id
    · -- Here the ring is entered.
      have rounded := @lookUp_round graph options settled path id state Ring traversable
        (.enters outside member) untouched
      exact .inr fun other otherMember =>
        (rounded other otherMember).2 fun mem => outside other mem otherMember
    · have apart : ∀ other, Ring other → other ≠ id := by
        rintro other otherMember rfl
        exact member otherMember
      have whole := @consult_keeps graph options settled (id :: path) state _
        (Solving.Whole settled Ring)
        (fun other state whole => whole.elim
          (ih other state (List.forall_mem_cons.mpr ⟨member, outside⟩))
          fun recovered => .inr fun other member => lookUp_recovered (recovered other member))
        (fun _ _ whole => whole) (decl.ruling graph options) (.inl untouched)
      rw [lookUp_consults unknown free found]
      rcases whole with untouched | recovered
      · refine .inl fun other otherMember => ?_
        rw [Solving.conclude_known (apart other otherMember)]
        exact untouched other otherMember
      · exact .inr fun other otherMember =>
          (recovered other otherMember).conclude (apart other otherMember)

end

/-! ### Rings of overrides -/

namespace Graph

variable {ring : Nat → DeclId} {length index : Nat} {next : DeclId}

theorem Overrides.depends (overrides : graph.Overrides id next) : graph.Depends id next := by
  obtain ⟨decl, found, -, mem⟩ := overrides
  exact ⟨decl, found, Declaration.mem_dependencies.mpr (.inr (.inr (.inl mem)))⟩

def OnRing (ring : Nat → DeclId) (length : Nat) (id : DeclId) : Prop :=
  ∃ position < length, ring position = id

namespace OverrideRing

theorem onwards (rings : graph.OverrideRing ring length) {position : Nat} (less : position < length) :
    OnRing ring length (ring (position + 1)) := by
  rcases Nat.lt_or_ge (position + 1) length with further | last
  · exact ⟨position + 1, further, rfl⟩
  · have same : position + 1 = length := by omega
    exact ⟨0, rings.positive, by rw [same, rings.closes]⟩

theorem reaches (rings : graph.OverrideRing ring length) {Step : DeclId → DeclId → Prop}
    (steps : ∀ position < length, Step (ring position) (ring (position + 1))) {other : DeclId}
    (member : OnRing ring length id) (otherMember : OnRing ring length other) :
    Relation.ReflTransGen Step id other := by
  obtain ⟨start, startLess, rfl⟩ := member
  obtain ⟨target, targetLess, rfl⟩ := otherMember
  have forward : ∀ early late, early ≤ late → late ≤ length →
      Relation.ReflTransGen Step (ring early) (ring late) := by
    intro early late atMost
    induction atMost with
    | refl => exact fun _ => .refl
    | @step late _ ih => exact fun bound => (ih (by omega)).tail (steps late (by omega))
  have home := forward start length (by omega) (by omega)
  rw [rings.closes] at home
  exact home.trans (forward 0 target (by omega) (by omega))

theorem depends (rings : graph.OverrideRing ring length) {other : DeclId}
    (member : OnRing ring length id) (otherMember : OnRing ring length other) :
    Relation.ReflTransGen graph.Depends id other :=
  rings.reaches (fun position less => (rings.overrides position less).depends) member otherMember

theorem first (rings : graph.OverrideRing ring length) : OnRing ring length (ring 0) :=
  ⟨0, rings.positive, rfl⟩

theorem member (rings : graph.OverrideRing ring length) (member : graph.Member index (ring 0))
    (onRing : OnRing ring length id) : graph.Member index id :=
  (member_iff member).mpr ⟨rings.depends rings.first onRing, rings.depends onRing rings.first⟩

theorem unsettled (rings : graph.OverrideRing ring length) (member : graph.Member index (ring 0))
    (onRing : OnRing ring length id) :
    (tableOf graph options (List.range index).reverse).lookup id = none := by
  rw [lookup_tableOf (rings.member member onRing), if_neg (by simp)]

end OverrideRing

theorem OverridesFirst.eq {other : DeclId} (first : graph.OverridesFirst id next)
    (second : graph.OverridesFirst id other) (back : Relation.ReflTransGen graph.Depends next id)
    (otherBack : Relation.ReflTransGen graph.Depends other id) : next = other := by
  obtain ⟨decl, before, after, found, -, list, apart⟩ := first
  obtain ⟨_, others, rest, again, -, otherList, otherApart⟩ := second
  rw [found] at again
  cases again
  rw [list] at otherList
  rcases List.append_eq_append_iff.mp otherList with
    ⟨between, split, tails⟩ | ⟨between, split, tails⟩
  · cases between with
    | nil => simpa using congrArg List.head? tails
    | cons head between =>
      obtain ⟨rfl, -⟩ := List.cons.inj tails
      exact absurd back (otherApart next (by simp [split]))
  · cases between with
    | nil => simpa using (congrArg List.head? tails).symm
    | cons head between =>
      obtain ⟨rfl, -⟩ := List.cons.inj tails
      exact absurd otherBack (apart other (by simp [split]))

theorem OverrideRing.traversable (rings : graph.OverrideRing ring length)
    (member : graph.Member index (ring 0))
    (firsts : ∀ position < length, graph.OverridesFirst (ring position) (ring (position + 1))) :
    Traversable graph (tableOf graph options (List.range index).reverse) (OnRing ring length) where
  unsettled id onRing := rings.unsettled member onRing
  ready id next onRing depends apart := by
    obtain ⟨decl, known, dependency⟩ := depends
    obtain ⟨component, found, mem⟩ := rings.member member onRing
    rcases dependency_placed found mem known dependency with together | ⟨earlier, listed, there⟩
    · have back := (member_iff ⟨component, found, together⟩).mp ⟨component, found, mem⟩
      exact absurd back.1 apart
    · rw [lookup_tableOf there, if_pos (mem_range_of_dependency found listed), lookup_isSome,
        solved graph options earlier]
      exact there
  onwards id onRing := by
    obtain ⟨position, less, rfl⟩ := onRing
    exact ⟨_, ⟨position, less, rfl⟩, rings.onwards less, firsts position less⟩
  functional id next other := by
    rintro ⟨onRing, nextOn, first⟩ ⟨-, otherOn, second⟩
    exact first.eq second (rings.depends nextOn onRing) (rings.depends otherOn onRing)
  connected id other onRing otherOn :=
    rings.reaches (fun position less => ⟨⟨position, less, rfl⟩, rings.onwards less,
      firsts position less⟩) onRing otherOn

end Graph

section

variable {ring : Nat → DeclId} {length index : Nat}

/-- In the end the whole ring is answered, so what look-ups make of an untouched ring has come true. -/
theorem Graph.OverrideRing.outcome (options : Options) (rings : graph.OverrideRing ring length)
    (member : graph.Member index (ring 0)) {outcome : Solving → Prop}
    (looked : let settled := tableOf graph options (List.range index).reverse
      ∀ id state, state.Untouched settled (OnRing ring length) ∨ outcome state →
        (lookUp graph options settled [] id state).2.Untouched settled (OnRing ring length) ∨
          outcome (lookUp graph options settled [] id state).2)
    (written : ∀ state event, outcome state → outcome (state.write event)) :
    outcome (solution graph options index) := by
  generalize table : tableOf graph options (List.range index).reverse = settled at looked
  obtain ⟨component, found, mem⟩ := member
  have start : Solving.Untouched settled (OnRing ring length)
      { events := [.opened ⟨.resolveComponent, index⟩] } := by
    intro id onRing
    simp [Solving.known?, ← table, rings.unsettled ⟨component, found, mem⟩ onRing]
  have ended := @solveComponent_keeps graph options settled
    (fun state => state.Untouched settled (OnRing ring length) ∨ outcome state)
    component.members index (fun id _ => looked id)
    (fun state event holds => holds.imp (fun untouched => untouched) (written state event))
    (.inl start)
  rw [← table, ← solution_eq found] at ended
  refine ended.resolve_left fun untouched => ?_
  have key := (solved graph options index (ring 0)).mpr ⟨component, found, mem⟩
  have absent := (Option.or_eq_none_iff.mp (untouched (ring 0) rings.first)).2
  rw [← lookup_isSome, absent] at key
  cases key

theorem recovered_of_solution (member : graph.Member index id)
    (recovered : (solution graph options index).Recovered
      (tableOf graph options (List.range index).reverse) id) :
    (graph.resolution options).Recovered id := by
  obtain ⟨known, reported⟩ := recovered
  rw [Solving.known?, lookup_tableOf member, if_neg (by simp), Option.none_or] at known
  refine ⟨by rw [get?_resolution_of_member member, known], ?_⟩
  exact (@mem_issues_resolution graph options index ⟨id, .cycle⟩ member).mpr reported

end

/-- Of functions that override each other in a ring, and that nothing else can isolate, at least one
is taken as not isolated and reported as cyclic. All of them are if each function overrides the next
one before any other declaration that leads back to it. -/
theorem override_rings_recovered (graph : Graph) (options : Options) {ring : Nat → DeclId}
    {length : Nat} (rings : graph.OverrideRing ring length) :
    let table := (Resolver.byLevels graph options).snapshot
    (∃ position < length, table.Recovered (ring position)) ∧
      ((∀ position < length, graph.OverridesFirst (ring position) (ring (position + 1))) →
        ∀ position < length, table.Recovered (ring position)) := by
  intro table
  have same : table = graph.resolution options := Resolver.byLevels_snapshot graph options
  obtain ⟨_, found, -⟩ := rings.overrides 0 rings.positive
  obtain ⟨index, member⟩ := Graph.exists_member (Option.isSome_of_eq_some found)
  rw [same]
  constructor
  · have overrides : ∀ id, Graph.OnRing ring length id →
        ∃ next, Graph.OnRing ring length next ∧ graph.Overrides id next := by
      rintro id ⟨position, less, rfl⟩
      exact ⟨_, rings.onwards less, rings.overrides position less⟩
    obtain ⟨id, onRing, recovered⟩ := rings.outcome options member
      (fun id state => lookUp_broken (fun id => rings.unsettled member) overrides)
      (fun _ _ broken => broken)
    have settled := recovered_of_solution (rings.member member onRing) recovered
    obtain ⟨position, less, rfl⟩ := onRing
    exact ⟨position, less, settled⟩
  · intro firsts position less
    have recovered := rings.outcome options member
      (fun id state => lookUp_whole (rings.traversable member firsts) (by simp))
      (fun _ _ whole => whole)
    have onRing : Graph.OnRing ring length (ring position) := ⟨position, less, rfl⟩
    exact recovered_of_solution (rings.member member onRing) (recovered _ onRing)

/-- A ring of three functions, with a detour that is isolated and one override against the direction. -/
def guardedOverrides : Graph where
  decls :=
    [{ id := ⟨0⟩, name := "Main", kind := .type .actor, isGlobalActor := true },
      { id := ⟨1⟩, name := "open", kind := .function, overrides := [⟨4⟩, ⟨2⟩] },
      { id := ⟨2⟩, name := "read", kind := .function, overrides := [⟨3⟩] },
      { id := ⟨3⟩, name := "close", kind := .function, overrides := [⟨1⟩, ⟨2⟩] },
      { id := ⟨4⟩, name := "reset", kind := .function, annotations := [.globalActor ⟨0⟩] }]
  extensions := [{ id := ⟨0⟩, extended := ⟨0⟩ }]
  plan := _
  plan_eq := rfl
  decls_ascending := by decide
  extensions_ascending := by decide
  edges_ascending := Graph.noCalls_ascending
  sound := by decide +kernel

theorem guardedOverrides_recovered :
    guardedOverrides.OverrideRing (fun position => ⟨position % 3 + 1⟩) 3 ∧
      (∀ position < 3, guardedOverrides.OverridesFirst ⟨position % 3 + 1⟩ ⟨(position + 1) % 3 + 1⟩) ∧
      ∀ position < 3,
        (Resolver.byLevels guardedOverrides {}).snapshot.Recovered ⟨position % 3 + 1⟩ := by
  -- The detour depends on nothing, so it does not lead back.
  have apart : ¬ Relation.ReflTransGen guardedOverrides.Depends ⟨4⟩ ⟨1⟩ := by
    intro reaches
    rcases reaches.cases_head with same | ⟨next, ⟨decl, found, dependency⟩, -⟩
    · cases same
    · have alone : ∀ decl ∈ guardedOverrides.decls, decl.id = ⟨4⟩ → decl.dependencies = [] := by
        decide
      rw [alone decl (Graph.mem_of_decl? found) (Graph.id_of_decl? found)] at dependency
      cases dependency
  have firsts : ∀ position < 3,
      guardedOverrides.OverridesFirst ⟨position % 3 + 1⟩ ⟨(position + 1) % 3 + 1⟩ := by
    intro position less
    rcases position with _ | _ | _ | _
    · exact ⟨_, [⟨4⟩], [], rfl, ⟨rfl, rfl, rfl, rfl, rfl, rfl⟩, rfl, by simpa using apart⟩
    · exact ⟨_, [], [], rfl, ⟨rfl, rfl, rfl, rfl, rfl, rfl⟩, rfl, by simp⟩
    · exact ⟨_, [], [⟨2⟩], rfl, ⟨rfl, rfl, rfl, rfl, rfl, rfl⟩, rfl, by simp⟩
    · omega
  have rings : guardedOverrides.OverrideRing (fun position => ⟨position % 3 + 1⟩) 3 := by
    refine ⟨by decide, by decide, fun position less => ?_⟩
    obtain ⟨decl, before, after, found, only, overrides, -⟩ := firsts position less
    exact ⟨decl, found, only, by simp [overrides]⟩
  exact ⟨rings, firsts, (override_rings_recovered guardedOverrides {} rings).2 firsts⟩

/-- A ring of three functions in which the last one is asked for by a detour only. -/
def tangledOverrides : Graph where
  decls :=
    [{ id := ⟨1⟩, name := "open", kind := .function, overrides := [⟨2⟩, ⟨3⟩] },
      { id := ⟨2⟩, name := "read", kind := .function, overrides := [⟨1⟩] },
      { id := ⟨3⟩, name := "close", kind := .function, overrides := [⟨2⟩] }]
  plan := _
  plan_eq := rfl
  decls_ascending := by decide
  extensions_ascending := Graph.noExtensions_ascending
  edges_ascending := Graph.noCalls_ascending
  sound := by decide +kernel

/-- The last function of the ring finds the others answered and is neither recovered nor reported. -/
theorem tangledOverrides_not_recovered :
    tangledOverrides.OverrideRing (fun position => ⟨3 - position % 3⟩) 3 ∧
      (Resolver.byLevels tangledOverrides {}).snapshot.get? ⟨3⟩ = some .fallback ∧
      ¬ (Resolver.byLevels tangledOverrides {}).snapshot.Recovered ⟨3⟩ := by
  have fallback : (Resolver.byLevels tangledOverrides {}).snapshot.get? ⟨3⟩ = some .fallback := by
    decide +kernel
  refine ⟨⟨by decide, by decide, fun position less => ?_⟩, fallback, fun recovered => ?_⟩
  · rcases position with _ | _ | _ | _
    · exact ⟨_, rfl, ⟨rfl, rfl, rfl, rfl, rfl, rfl⟩, by decide⟩
    · exact ⟨_, rfl, ⟨rfl, rfl, rfl, rfl, rfl, rfl⟩, by decide⟩
    · exact ⟨_, rfl, ⟨rfl, rfl, rfl, rfl, rfl, rfl⟩, by decide⟩
    · omega
  · rw [Resolution.Recovered, fallback] at recovered
    cases recovered.1

end ActorIsolation
