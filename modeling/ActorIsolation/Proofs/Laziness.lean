import ActorIsolation.Proofs.Chains
import ActorIsolation.Proofs.LookUp
import ActorIsolation.Proofs.Statistics

/-! Resolvers do what they are asked for and no more. A request adds to what is done the component that
it is about with everything below it: each component once, and after all that it depends on.
-/

set_option autoImplicit false

namespace ActorIsolation

/-! ### The work that a log tells of -/

variable {graph : Graph} {options : Options}

theorem finishedIn_solution {index : Nat} (bound : index < graph.plan.size) (kind : QueryKind) :
    finishedIn kind (solution graph options index).events =
      if kind = .resolveComponent then [index] else [] := by
  obtain ⟨component, found⟩ := Graph.exists_component bound
  rw [solution_eq found]
  obtain ⟨remarks, events⟩ := @solveComponent_events graph options
    (tableOf graph options (List.range index).reverse) index component.members
  rw [events, finishedIn_append]
  change finishedIn kind (remarks.map .remarked) ++ _ = _
  rw [finishedIn_remarks, List.nil_append]
  cases kind <;> rfl

theorem finishedIn_workOf {order : List Nat} (listed : ∀ index ∈ order, index < graph.plan.size)
    (kind : QueryKind) : finishedIn kind (workOf graph options order) =
      if kind = .resolveComponent then order else [] := by
  induction order with
  | nil => exact (ite_self []).symm
  | cons index rest ih =>
    obtain ⟨bound, others⟩ := List.forall_mem_cons.mp listed
    have later := ih others
    rw [workOf, List.flatMap_cons, finishedIn_append, ← workOf, finishedIn_solution bound, later]
    cases kind <;> rfl

/-! ### Runs -/

theorem Graph.needs_iff {index other : Nat} :
    graph.plan.Needs index other ↔ Relation.ReflTransGen graph.Uses index other := by
  have same : graph.plan.DependsOn = graph.Uses := by
    funext index other
    exact propext uses_iff_dependsOn.symm
  rw [Decomposition.Needs, same]

namespace Resolver

def Closed (graph : Graph) (resolver : Resolver) : Prop :=
  ∀ index ∈ resolver.done, ∀ other, graph.Uses index other → other ∈ resolver.done

variable {resolver after : Resolver} {order : List Nat} {index other : Nat}

theorem Closed.below (closed : resolver.Closed graph) (mem : index ∈ resolver.done)
    (below : Relation.ReflTransGen graph.Uses index other) : other ∈ resolver.done := by
  induction below with
  | refl => exact mem
  | tail _ uses ih => exact closed _ ih _ uses

namespace Solves

theorem earlier {before later : List Nat} (solves : Solves graph options resolver order after)
    (turn : order = before ++ index :: later) (uses : graph.Uses index other) :
    other ∈ before ∨ other ∈ resolver.done := by
  -- By induction on the run. A turn adds its component to what is done, so it may move from one side to
  -- the other.
  induction solves generalizing before with
  | done resolver => simp at turn
  | next found fresh ready _ ih =>
    cases before with
    | nil =>
      obtain ⟨rfl, -⟩ := List.cons.inj turn
      exact .inr (ready other ((Graph.uses_iff found).mp uses))
    | cons first before =>
      obtain ⟨rfl, rest⟩ := List.cons.inj turn
      rcases ih rest with mem | mem
      · exact .inl (List.mem_cons_of_mem _ mem)
      · rcases List.mem_cons.mp mem with rfl | mem
        · exact .inl (List.mem_cons_self ..)
        · exact .inr mem

theorem closed (solves : Solves graph options resolver order after)
    (before : resolver.Closed graph) : after.Closed graph := by
  intro index mem other uses
  rw [solves.mem_done] at mem ⊢
  rcases mem with mem | mem
  · obtain ⟨early, late, turn⟩ := List.append_of_mem mem
    rcases solves.earlier turn uses with mem | mem
    · exact .inl (by simp [turn, mem])
    · exact .inr mem
  · exact .inr (before index mem other uses)

theorem fresh (solves : Solves graph options resolver order after)
    (started : Progress graph options resolver) :
    order.Nodup ∧ ∀ index ∈ order, index ∉ resolver.done := by
  have distinct := (solves.progress started).1.distinct
  rw [solves.done_eq, List.nodup_append, List.nodup_reverse] at distinct
  obtain ⟨once, -, apart⟩ := distinct
  refine ⟨once, fun index mem done => ?_⟩
  exact apart index (List.mem_reverse.mpr mem) index done rfl

/-- The log tells of each component that is solved, in the order of their turns. -/
theorem finishedIn_log (solves : Solves graph options resolver order after)
    (started : Progress graph options resolver) :
    finishedIn .resolveComponent after.log = finishedIn .resolveComponent resolver.log ++ order := by
  obtain ⟨final, log⟩ := solves.progress started
  have listed : ∀ index ∈ order, index < graph.plan.size := by
    intro index mem
    exact final.listed index (solves.mem_done.mpr (.inl mem))
  rw [log, finishedIn_append, finishedIn_workOf listed, if_pos rfl]

end Solves

/-! ### Requests -/

inductive Request where
  | isolation (id : DeclId)
  | everything
  deriving DecidableEq, Repr, Inhabited

namespace Request

def serve (graph : Graph) (options : Options) (resolver : Resolver) : Request → Resolver
  | .isolation id => (query graph options id resolver).2
  | .everything => complete graph options resolver

/-- The components that a request is about: that of the declaration with all below it, or every one. -/
def Concerns (graph : Graph) : Request → Nat → Prop
  | .isolation id, index =>
    ∃ start, graph.Member start id ∧ Relation.ReflTransGen graph.Uses start index
  | .everything, index => index < graph.plan.size

theorem serve_solves (progress : resolver.Progress graph options) (closed : resolver.Closed graph)
    (request : Request) : ∃ order, Solves graph options resolver order
        (request.serve graph options resolver) ∧ (∀ index ∈ order, request.Concerns graph index) ∧
      ∀ index, request.Concerns graph index → index ∈ (request.serve graph options resolver).done := by
  cases request with
  | everything =>
    have ensures := complete_ensures progress
    obtain ⟨order, solves, needed⟩ := ensures.needed
    refine ⟨order, solves, fun other mem => ?_, fun index bound => ?_⟩
    · obtain ⟨index, listed, needs⟩ := needed other mem
      exact Nat.lt_of_le_of_lt needs.le (List.mem_range.mp listed)
    · exact ensures.reached index (List.mem_range.mpr bound) bound
  | isolation id =>
    simp only [serve]
    unfold query
    cases settled : resolver.settled.lookup id with
    | some isolation =>
      -- The declaration has its answer, so its component is done, and all below it.
      have key : id ∈ resolver.settled.map (·.1) := lookup_isSome.mp (by simp [settled])
      rw [progress.settled, mem_tableOf_keys] at key
      obtain ⟨own, done, member⟩ := key
      refine ⟨[], .done resolver, by simp, ?_⟩
      rintro index ⟨start, started, below⟩
      exact closed.below (member.unique started ▸ done) below
    | none =>
      cases placed : graph.plan.componentOf? id with
      | none =>
        refine ⟨[], .done resolver, by simp, ?_⟩
        rintro index ⟨start, started, -⟩
        simp [Graph.componentOf?_eq_some.mpr started] at placed
      | some own =>
        have member := Graph.componentOf?_eq_some.mp placed
        have ensures : Ensures graph options [own] resolver _ := ensure_ensures progress
        obtain ⟨order, solves, needed⟩ := ensures.needed
        refine ⟨order, solves, fun other mem => ?_, ?_⟩
        · obtain ⟨index, listed, needs⟩ := needed other mem
          obtain rfl := List.mem_singleton.mp listed
          exact ⟨index, member, Graph.needs_iff.mp needs⟩
        · rintro index ⟨start, started, below⟩
          have done := ensures.reached own (by simp) (member_bound member)
          exact (solves.closed closed).below (member.unique started ▸ done) below

end Request

def Reached (graph : Graph) (options : Options) (resolver : Resolver) : Prop :=
  ∃ order, Solves graph options start order resolver

namespace Reached

theorem progress (reached : resolver.Reached graph options) : resolver.Progress graph options := by
  obtain ⟨order, solves⟩ := reached
  exact (solves.progress (progress_start graph options)).1

theorem closed (reached : resolver.Reached graph options) : resolver.Closed graph := by
  obtain ⟨order, solves⟩ := reached
  apply solves.closed
  intro index mem
  simp [start] at mem

theorem finishedIn_log (reached : resolver.Reached graph options) :
    finishedIn .resolveComponent resolver.log = resolver.done.reverse := by
  obtain ⟨order, solves⟩ := reached
  rw [solves.finishedIn_log (progress_start graph options), solves.done_eq]
  simp [start]

theorem serve (reached : resolver.Reached graph options) (request : Request) :
    (request.serve graph options resolver).Reached graph options := by
  obtain ⟨more, solves, -⟩ := Request.serve_solves reached.progress reached.closed request
  obtain ⟨order, before⟩ := reached
  exact ⟨order ++ more, before.trans solves⟩

theorem foldl_serve (reached : resolver.Reached graph options) (history : List Request) :
    (history.foldl (Request.serve graph options) resolver).Reached graph options := by
  induction history generalizing resolver with
  | nil => exact reached
  | cons request rest ih => exact ih (reached.serve request)

end Reached

end Resolver

/-- Whatever has been asked of a resolver, what is done is closed under dependencies, the members of
what is done are settled and nothing else is, and the log counts each component that is done once. The
next request adds what it is about and is not done yet, and nothing else: each component once, after all
that it depends on. -/
theorem requests_solve_what_they_need (graph : Graph) (options : Options)
    (history : List Resolver.Request) :
    let resolver := history.foldl (Resolver.Request.serve graph options) .start
    resolver.Closed graph ∧ resolver.done.Nodup ∧
      ((resolver.settled.map (·.1)).Nodup ∧
        ∀ id, id ∈ resolver.settled.map (·.1) ↔ ∃ index ∈ resolver.done, graph.Member index id) ∧
      (∀ request : Resolver.Request, ∃ order : List Nat,
        let after := request.serve graph options resolver
        after.done = order.reverse ++ resolver.done ∧
          finishedIn .resolveComponent after.log =
            finishedIn .resolveComponent resolver.log ++ order ∧ order.Nodup ∧
          (∀ index, index ∈ order ↔ request.Concerns graph index ∧ index ∉ resolver.done) ∧
          ∀ before index later, order = before ++ index :: later → ∀ other, graph.Uses index other →
            other ∈ before ∨ other ∈ resolver.done) ∧
      (Statistics.count {} resolver.log).totalOf .resolveComponent = resolver.done.length := by
  intro resolver
  have reached : resolver.Reached graph options :=
    Resolver.Reached.foldl_serve ⟨[], .done .start⟩ history
  have progress := reached.progress
  refine ⟨reached.closed, progress.distinct, ?_, fun request => ?_, ?_⟩
  · rw [progress.settled]
    exact ⟨tableOf_keys_nodup progress.distinct, fun id => mem_tableOf_keys⟩
  · obtain ⟨order, solves, about, done⟩ :=
      Resolver.Request.serve_solves progress reached.closed request
    obtain ⟨once, fresh⟩ := solves.fresh progress
    refine ⟨order, solves.done_eq, solves.finishedIn_log progress, once, fun index => ⟨?_, ?_⟩, ?_⟩
    · exact fun mem => ⟨about index mem, fresh index mem⟩
    · rintro ⟨concerned, undone⟩
      exact (solves.mem_done.mp (done index concerned)).resolve_right undone
    · exact fun before index later turn other uses => solves.earlier turn uses
  · rw [Statistics.totalOf_count, reached.finishedIn_log, List.length_reverse]

end ActorIsolation
