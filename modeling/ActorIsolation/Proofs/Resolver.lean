import ActorIsolation.Proofs.Levels
import ActorIsolation.Proofs.Solution
import Mathlib.Logic.Relation

/-! Resolvers. Whether it solves components when they are first asked for or level by level, a
resolver holds the solutions of the components it has done, and in the end it has done them all.
-/

set_option autoImplicit false

namespace ActorIsolation

def workOf (graph : Graph) (options : Options) (indices : List Nat) : List Event :=
  indices.flatMap fun index => (solution graph options index).events

namespace Decomposition

def DependsOn (plan : Decomposition) (index other : Nat) : Prop :=
  ∃ component, plan.components[index]? = some component ∧ other ∈ component.dependencies

def Needs (plan : Decomposition) : Nat → Nat → Prop := Relation.ReflTransGen plan.DependsOn

theorem Needs.le {plan : Decomposition} {index other : Nat} (needs : plan.Needs index other) :
    other ≤ index := by
  induction needs with
  | refl => exact Nat.le_refl index
  | tail _ depends ih =>
    obtain ⟨component, found, dependency⟩ := depends
    have less := plan.dependencies_lt found dependency
    omega

end Decomposition

namespace Resolver

variable (graph : Graph) (options : Options)

/-- What a resolver holds are the solutions of the components it has done. -/
structure Progress (resolver : Resolver) : Prop where
  distinct : resolver.done.Nodup
  listed : ∀ index ∈ resolver.done, index < graph.plan.size
  settled : resolver.settled = tableOf graph options resolver.done
  issues : resolver.issues =
    resolver.done.reverse.flatMap fun index => (solution graph options index).issues

/-- Components are solved in this order, each for the first time and after all that it depends on. -/
inductive Solves : Resolver → List Nat → Resolver → Prop where
  | done (resolver : Resolver) : Solves resolver [] resolver
  | next {resolver after : Resolver} {index : Nat} {component : Component} {order : List Nat} :
      graph.plan.components[index]? = some component → index ∉ resolver.done →
      (∀ earlier ∈ component.dependencies, earlier ∈ resolver.done) →
      Solves (resolver.solve graph options index component) order after →
      Solves resolver (index :: order) after

/-- A resolver has gone on from another one, and its log tells of what it did. -/
structure Follows (resolver after : Resolver) : Prop where
  progress : Progress graph options after
  more : ∃ order : List Nat, after.done = order.reverse ++ resolver.done ∧
    after.log = resolver.log ++ workOf graph options order

/-- It went on to do these components, and did nothing beyond them and what they depend on. -/
structure Ensures (indices : List Nat) (resolver after : Resolver) : Prop
    extends Follows graph options resolver after where
  reached : ∀ index ∈ indices, index < graph.plan.size → index ∈ after.done
  needed : ∃ order, Solves graph options resolver order after ∧
    ∀ other ∈ order, ∃ index ∈ indices, graph.plan.Needs index other

theorem progress_start : Progress graph options start :=
  ⟨.nil, by simp [start], rfl, rfl⟩

variable {graph options} {resolver middle after : Resolver} {index : Nat} {component : Component}
  {order : List Nat}

theorem Progress.solution_eq (progress : Progress graph options resolver)
    (found : graph.plan.components[index]? = some component)
    (ready : ∀ earlier ∈ component.dependencies, earlier ∈ resolver.done)
    (fresh : index ∉ resolver.done) :
    solveComponent graph options resolver.settled index component.members =
      solution graph options index := by
  rw [progress.settled]
  exact solveComponent_eq_solution found ready fresh

theorem Progress.keep (progress : Progress graph options resolver)
    (bound : index < graph.plan.size) (fresh : index ∉ resolver.done) :
    Progress graph options (resolver.keep index (solution graph options index)) where
  distinct := List.nodup_cons.mpr ⟨fresh, progress.distinct⟩
  listed := List.forall_mem_cons.mpr ⟨bound, progress.listed⟩
  settled := congrArg ((solution graph options index).found ++ ·) progress.settled
  issues := by simp [Resolver.keep, progress.issues]

theorem Progress.solve (progress : Progress graph options resolver)
    (found : graph.plan.components[index]? = some component)
    (ready : ∀ earlier ∈ component.dependencies, earlier ∈ resolver.done)
    (fresh : index ∉ resolver.done) :
    Progress graph options (resolver.solve graph options index component) ∧
      (resolver.solve graph options index component).log =
        resolver.log ++ (solution graph options index).events := by
  rw [Resolver.solve, progress.solution_eq found ready fresh]
  exact ⟨progress.keep (List.getElem?_eq_some_iff.mp found).1 fresh, rfl⟩

namespace Solves

theorem trans {later : List Nat} (first : Solves graph options resolver order middle)
    (second : Solves graph options middle later after) :
    Solves graph options resolver (order ++ later) after := by
  induction first with
  | done resolver => exact second
  | next found fresh ready _ ih => exact .next found fresh ready (ih second)

theorem done_eq (solves : Solves graph options resolver order after) :
    after.done = order.reverse ++ resolver.done := by
  induction solves with
  | done resolver => rfl
  | next found fresh ready _ ih => simp [ih, Resolver.solve, Resolver.keep]

theorem mem_done (solves : Solves graph options resolver order after) :
    index ∈ after.done ↔ index ∈ order ∨ index ∈ resolver.done := by
  rw [solves.done_eq, List.mem_append, List.mem_reverse]

theorem progress (solves : Solves graph options resolver order after)
    (started : Progress graph options resolver) :
    Progress graph options after ∧ after.log = resolver.log ++ workOf graph options order := by
  induction solves with
  | done resolver => exact ⟨started, by simp [workOf]⟩
  | next found fresh ready _ ih =>
    obtain ⟨solved, written⟩ := started.solve found ready fresh
    obtain ⟨final, log⟩ := ih solved
    exact ⟨final, by simp [log, written, workOf]⟩

theorem follows (solves : Solves graph options resolver order after)
    (started : Progress graph options resolver) : Follows graph options resolver after := by
  obtain ⟨final, log⟩ := solves.progress started
  exact ⟨final, order, solves.done_eq, log⟩

end Solves

theorem Progress.follows (progress : Progress graph options resolver) :
    Follows graph options resolver resolver :=
  (Solves.done resolver).follows progress

/-! ### On demand -/

/-- Before its turn comes, all that a component depends on will have been done. -/
def Met (graph : Graph) (done : List Nat) (index : Nat) : Prop :=
  ∀ component, graph.plan.components[index]? = some component →
    ∀ earlier ∈ component.dependencies, earlier ∈ done

/-- Each expanded task has what it depends on among what is done and the tasks above it. -/
def Ready (graph : Graph) : List Nat → List Task → Prop
  | _, [] => True
  | done, task :: rest =>
    (task.expanded → Met graph done task.component) ∧ Ready graph (task.component :: done) rest

variable {done more : List Nat} {tasks rest : List Task} {task : Task}

theorem Ready.mono (ready : Ready graph done tasks)
    (kept : ∀ index < graph.plan.size, index ∈ done → index ∈ more) : Ready graph more tasks := by
  induction tasks generalizing done more with
  | nil => trivial
  | cons task rest ih =>
    obtain ⟨met, later⟩ := ready
    refine ⟨fun expanded component found earlier dependency => ?_, ih later fun index bound mem => ?_⟩
    · have less := graph.plan.dependencies_lt found dependency
      have bound : task.component < graph.plan.size := (List.getElem?_eq_some_iff.mp found).1
      exact kept earlier (Nat.lt_trans less bound) (met expanded component found earlier dependency)
    · rcases List.mem_cons.mp mem with rfl | mem
      · exact List.mem_cons_self ..
      · exact List.mem_cons_of_mem _ (kept index bound mem)

/-- Tasks that are not expanded yet only add to what stands above the others. -/
theorem Ready.above {indices : List Nat} (ready : Ready graph (indices.reverse ++ done) rest) :
    Ready graph done (indices.map (⟨·, false⟩) ++ rest) := by
  induction indices generalizing done with
  | nil => exact ready
  | cons index indices ih =>
    refine ⟨fun expanded => absurd expanded Bool.false_ne_true, ih ?_⟩
    rwa [List.reverse_cons, List.append_assoc, List.singleton_append] at ready

theorem Ready.expand (ready : Ready graph resolver.done (task :: rest))
    (found : graph.plan.components[task.component]? = some component) :
    Ready graph resolver.done (resolver.postponed component ++ ⟨task.component, true⟩ :: rest) := by
  apply Ready.above
  refine ⟨fun _ own again earlier dependency => ?_, ready.2.mono fun index _ mem => ?_⟩
  · obtain rfl := Option.some.inj (found.symm.trans again)
    by_cases before : earlier ∈ resolver.done
    · exact List.mem_append_right _ before
    · exact List.mem_append_left _ (by simp [dependency, before])
  · rcases List.mem_cons.mp mem with rfl | mem
    · exact List.mem_cons_self ..
    · exact List.mem_cons_of_mem _ (List.mem_append_right _ mem)

theorem Ensures.skip {indices : List Nat} (ensures : Ensures graph options indices resolver after)
    (settled : index < graph.plan.size → index ∈ resolver.done) :
    Ensures graph options (index :: indices) resolver after := by
  obtain ⟨order, solves, needed⟩ := ensures.needed
  refine ⟨ensures.toFollows, ?_, order, solves, fun other mem => ?_⟩
  · refine List.forall_mem_cons.mpr ⟨fun bound => ?_, ensures.reached⟩
    exact solves.mem_done.mpr (.inr (settled bound))
  · obtain ⟨first, listed, needs⟩ := needed other mem
    exact ⟨first, List.mem_cons_of_mem _ listed, needs⟩

theorem Ensures.solve {indices : List Nat} (progress : Progress graph options resolver)
    (found : graph.plan.components[index]? = some component) (fresh : index ∉ resolver.done)
    (met : Met graph resolver.done index)
    (ensures : Ensures graph options indices (resolver.solve graph options index component) after) :
    Ensures graph options (index :: indices) resolver after := by
  obtain ⟨order, solves, needed⟩ := ensures.needed
  have all : Solves graph options resolver (index :: order) after :=
    .next found fresh (met component found) solves
  refine ⟨all.follows progress, ?_, index :: order, all, ?_⟩
  · refine List.forall_mem_cons.mpr ⟨fun _ => ?_, ensures.reached⟩
    exact all.mem_done.mpr (.inl (List.mem_cons_self ..))
  · refine List.forall_mem_cons.mpr ⟨⟨index, List.mem_cons_self .., .refl⟩, fun other mem => ?_⟩
    obtain ⟨first, listed, needs⟩ := needed other mem
    exact ⟨first, List.mem_cons_of_mem _ listed, needs⟩

/-- What a component depends on may be done along with it. -/
theorem Ensures.collapse {indices dependencies : List Nat}
    (ensures : Ensures graph options (dependencies ++ index :: indices) resolver after)
    (depends : ∀ earlier ∈ dependencies, graph.plan.DependsOn index earlier) :
    Ensures graph options (index :: indices) resolver after := by
  obtain ⟨order, solves, needed⟩ := ensures.needed
  refine ⟨ensures.toFollows, fun other mem => ensures.reached other (List.mem_append_right _ mem),
    order, solves, fun other mem => ?_⟩
  obtain ⟨first, listed, needs⟩ := needed other mem
  rcases List.mem_append.mp listed with dependency | listed
  · exact ⟨index, List.mem_cons_self .., .head (depends first dependency) needs⟩
  · exact ⟨first, listed, needs⟩

theorem work_ensures (tasks : List Task) (progress : Progress graph options resolver)
    (ready : Ready graph resolver.done tasks) :
    Ensures graph options (tasks.map (·.component)) resolver (work graph options tasks resolver) := by
  -- By induction on the turns. In each turn the stack stays ready, and a task is taken off it only when
  -- its component is done or there is no such component.
  fun_induction work graph options tasks resolver with
  | case1 resolver => exact ⟨progress.follows, by simp, [], .done resolver, by simp⟩
  | case2 task rest resolver done ih =>
    refine (ih progress (ready.2.mono fun index _ mem => ?_)).skip fun _ => done
    rcases List.mem_cons.mp mem with rfl | mem
    · exact done
    · exact mem
  | case3 task rest resolver fresh none ih =>
    have outside : ¬ task.component < graph.plan.size := by
      simpa [Decomposition.size] using none
    refine (ih progress (ready.2.mono fun index bound mem => ?_)).skip fun bound => absurd bound outside
    rcases List.mem_cons.mp mem with rfl | mem
    · exact absurd bound outside
    · exact mem
  | case4 task rest resolver fresh component found expanded ih =>
    have met := ready.1 expanded
    have solved := (progress.solve found (met component found) fresh).1
    exact (ih solved ready.2).solve progress found fresh met
  | case5 task rest resolver fresh component found unexpanded ih =>
    have all := ih progress (ready.expand found)
    rw [List.map_append, List.map_cons] at all
    refine all.collapse fun earlier mem => ⟨component, found, ?_⟩
    simp only [postponed, List.map_map, Function.comp_def, List.map_id', List.mem_reverse,
      List.mem_filter] at mem
    exact mem.1

theorem ensure_ensures (progress : Progress graph options resolver) :
    Ensures graph options [index] resolver (ensure graph options index resolver) :=
  work_ensures [⟨index, false⟩] progress ⟨fun expanded => absurd expanded Bool.false_ne_true, trivial⟩

theorem ensureAll (indices : List Nat) (progress : Progress graph options resolver) :
    Ensures graph options indices resolver
      (indices.foldl (fun resolver index => ensure graph options index resolver) resolver) := by
  induction indices generalizing resolver with
  | nil => exact ⟨progress.follows, by simp, [], .done resolver, by simp⟩
  | cons index rest ih =>
    have first := @ensure_ensures _ _ _ index progress
    have second := ih first.progress
    obtain ⟨early, solvesFirst, neededFirst⟩ := first.needed
    obtain ⟨late, solvesRest, neededRest⟩ := second.needed
    have solves := solvesFirst.trans solvesRest
    refine ⟨solves.follows progress, ?_, early ++ late, solves, ?_⟩
    · refine List.forall_mem_cons.mpr ⟨fun bound => ?_, second.reached⟩
      exact solvesRest.mem_done.mpr (.inr (first.reached index (by simp) bound))
    · intro other mem
      rcases List.mem_append.mp mem with mem | mem
      · obtain ⟨same, listed, needs⟩ := neededFirst other mem
        exact ⟨index, by simp, List.mem_singleton.mp listed ▸ needs⟩
      · obtain ⟨later, listed, needs⟩ := neededRest other mem
        exact ⟨later, List.mem_cons_of_mem _ listed, needs⟩

theorem complete_ensures (progress : Progress graph options resolver) :
    Ensures graph options (List.range graph.plan.size) resolver
      (complete graph options resolver) :=
  ensureAll _ progress

/-! ### Level by level -/

/-- Components that wait for none of each other may be solved from the same table. -/
theorem solveLevel_solves {level : List Nat} (progress : Progress graph options resolver)
    (listed : ∀ index ∈ level, index < graph.plan.size) (distinct : level.Nodup)
    (fresh : ∀ index ∈ level, index ∉ resolver.done)
    (met : ∀ index ∈ level, Met graph resolver.done index) :
    Solves graph options resolver level (solveLevel graph options resolver level) := by
  have solutions : (level.filterMap fun index => graph.plan.components[index]?.map fun component =>
      (index, solveComponent graph options resolver.settled index component.members)) =
        level.map fun index => (index, solution graph options index) := by
    rw [← List.filterMap_eq_map]
    refine List.filterMap_congr fun index mem => ?_
    have found := List.getElem?_eq_getElem (listed index mem)
    rw [found, Option.map_some, progress.solution_eq found (met index mem _ found) (fresh index mem)]
    rfl
  rw [solveLevel, solutions, List.foldl_map]
  -- By induction on the level. What it keeps stays the solution, however much has been kept before.
  clear solutions
  induction level generalizing resolver with
  | nil => exact .done resolver
  | cons index rest ih =>
    obtain ⟨bound, listedRest⟩ := List.forall_mem_cons.mp listed
    obtain ⟨absent, distinctRest⟩ := List.nodup_cons.mp distinct
    obtain ⟨freshFirst, freshRest⟩ := List.forall_mem_cons.mp fresh
    obtain ⟨metFirst, metRest⟩ := List.forall_mem_cons.mp met
    have found := List.getElem?_eq_getElem bound
    refine .next found freshFirst (metFirst _ found) ?_
    rw [Resolver.solve, progress.solution_eq found (metFirst _ found) freshFirst]
    refine ih (progress.keep bound freshFirst) listedRest distinctRest (fun other mem => ?_) ?_
    · exact List.not_mem_cons_of_ne_of_not_mem (ne_of_mem_of_not_mem mem absent) (freshRest other mem)
    · intro other mem component found earlier dependency
      exact List.mem_cons_of_mem _ (metRest other mem component found earlier dependency)

/-- The levels are an order in which every component comes after all that it depends on. -/
theorem levels_solve {before after : List (List Nat)} (progress : Progress graph options resolver)
    (order : graph.plan.levels = before ++ after) (done : resolver.done = before.flatten.reverse) :
    Solves graph options resolver after.flatten (after.foldl (solveLevel graph options) resolver) := by
  induction after generalizing before resolver with
  | nil => exact .done resolver
  | cons level after ih =>
    have listed : ∀ index ∈ level, index < graph.plan.size := by
      intro index mem
      rw [← Decomposition.mem_levels, order]
      simp [mem]
    have distinct := graph.plan.levels_nodup
    rw [order, List.flatten_append, List.flatten_cons, List.nodup_append] at distinct
    obtain ⟨-, laterDistinct, apart⟩ := distinct
    have first : Solves graph options resolver level (solveLevel graph options resolver level) := by
      refine solveLevel_solves progress listed (List.nodup_append.mp laterDistinct).1 ?_ ?_
      · intro index mem before
        rw [done, List.mem_reverse] at before
        exact apart index before index (List.mem_append_left _ mem) rfl
      · intro index mem component found earlier dependency
        rw [done, List.mem_reverse]
        exact Decomposition.dependency_before order mem found dependency
    rw [List.flatten_cons, List.foldl_cons]
    refine first.trans (@ih _ (before ++ [level]) (first.progress progress).1 (by simp [order]) ?_)
    simp [first.done_eq, done]

theorem byLevels_solves (graph : Graph) (options : Options) :
    Solves graph options start graph.plan.levels.flatten (byLevels graph options) :=
  @levels_solve _ _ _ [] _ (progress_start graph options) rfl rfl

theorem byLevels_follows (graph : Graph) (options : Options) :
    Follows graph options start (byLevels graph options) ∧
      (byLevels graph options).done = graph.plan.levels.flatten.reverse := by
  have solves := byLevels_solves graph options
  refine ⟨solves.follows (progress_start graph options), ?_⟩
  rw [solves.done_eq]
  exact List.append_nil _

theorem byLevels_complete (graph : Graph) (options : Options) (bound : index < graph.plan.size) :
    index ∈ (byLevels graph options).done := by
  rw [(byLevels_follows graph options).2, List.mem_reverse, Decomposition.mem_levels]
  exact bound

end Resolver

/-! ### The resolution of a graph -/

section

variable (graph : Graph) (options : Options)

def Graph.resolution : Resolution where
  entries := sortOn (rank ·.1) (tableOf graph options (List.range graph.plan.size))
  issues := ascending
    ((List.range graph.plan.size).flatMap fun index => (solution graph options index).issues)

theorem entries_perm : (graph.resolution options).entries.Perm
    (tableOf graph options (List.range graph.plan.size)) :=
  sortOn_perm _ _

theorem keys_nodup : ((graph.resolution options).entries.map (·.1)).Nodup :=
  ((entries_perm graph options).map (·.1)).nodup_iff.mpr (tableOf_keys_nodup List.nodup_range)

theorem get?_resolution (id : DeclId) : (graph.resolution options).get? id =
    (tableOf graph options (List.range graph.plan.size)).lookup id :=
  lookup_eq_of_perm (entries_perm graph options) (keys_nodup graph options)

variable {graph options} {resolver : Resolver} {index : Nat} {id : DeclId}

theorem member_bound (member : graph.Member index id) : index < graph.plan.size := by
  obtain ⟨component, found, -⟩ := member
  exact (List.getElem?_eq_some_iff.mp found).1

theorem get?_resolution_of_member (member : graph.Member index id) :
    (graph.resolution options).get? id = (solution graph options index).found.lookup id := by
  rw [get?_resolution, lookup_tableOf member, if_pos (by simpa using member_bound member)]

theorem mem_keys_resolution :
    id ∈ (graph.resolution options).entries.map (·.1) ↔ (graph.decl? id).isSome := by
  rw [((entries_perm graph options).map (·.1)).mem_iff, mem_tableOf_keys]
  constructor
  · rintro ⟨index, -, member⟩
    exact member.declared
  · intro declared
    obtain ⟨index, member⟩ := Graph.exists_member declared
    exact ⟨index, by simpa using member_bound member, member⟩

theorem keys_resolution :
    (graph.resolution options).entries.map (·.1) = graph.decls.map (·.id) := by
  have injective := Rank.delimited_declId.injective
  -- Both lists ascend strictly and have the same members.
  have entries : Ascends ((graph.resolution options).entries.map (·.1)) := by
    have ordered := sortOn_pairwise (rank ·.1) (tableOf graph options (List.range graph.plan.size))
    have distinct := List.pairwise_map.mp (keys_nodup graph options)
    refine List.pairwise_map.mpr ((ordered.and distinct).imp ?_)
    rintro left right ⟨atMost, different⟩
    rw [Rank.precedes_iff]
    exact fun back => different (injective (Rank.eq_of_atMost atMost back))
  have decls : Ascends (graph.decls.map (·.id)) := by
    refine List.pairwise_map.mpr (graph.decls_ascending.imp ?_)
    intro left right less
    simpa [rank, Rank.precedes] using less
  refine entries.eq injective decls fun id => ?_
  rw [mem_keys_resolution, Graph.decl?_isSome_iff]

namespace Resolver

theorem Progress.done_perm (progress : Progress graph options resolver)
    (complete : ∀ index < graph.plan.size, index ∈ resolver.done) :
    resolver.done.Perm (List.range graph.plan.size) := by
  refine (List.perm_ext_iff_of_nodup progress.distinct List.nodup_range).mpr fun index => ?_
  rw [List.mem_range]
  exact ⟨progress.listed index, complete index⟩

/-- A resolver that has done every component holds the resolution of the graph. -/
theorem Progress.snapshot_eq (progress : Progress graph options resolver)
    (complete : ∀ index < graph.plan.size, index ∈ resolver.done) :
    resolver.snapshot = graph.resolution options := by
  -- Two resolvers can differ in the order of their work, which sorting forgets.
  have perm := progress.done_perm complete
  have settled : resolver.settled.Perm (tableOf graph options (List.range graph.plan.size)) := by
    rw [progress.settled]
    exact perm.flatMap_right _
  have keys : (resolver.settled.map (·.1)).Nodup := by
    rw [progress.settled]
    exact tableOf_keys_nodup progress.distinct
  rw [snapshot, Graph.resolution, Resolution.mk.injEq]
  constructor
  · refine sortOn_eq_of_perm settled fun left leftMem right rightMem same => ?_
    exact List.inj_on_of_nodup_map keys leftMem rightMem (Rank.delimited_declId.injective same)
  · refine ascending_congr Rank.delimited_issue.injective fun issue => ?_
    rw [progress.issues]
    simp only [List.mem_flatMap, List.mem_reverse, perm.mem_iff]

theorem byLevels_snapshot (graph : Graph) (options : Options) :
    (byLevels graph options).snapshot = graph.resolution options :=
  (byLevels_follows graph options).1.progress.snapshot_eq fun _ => byLevels_complete graph options

theorem complete_snapshot (progress : Progress graph options resolver) :
    (complete graph options resolver).snapshot = graph.resolution options := by
  have ensures := complete_ensures progress
  apply ensures.progress.snapshot_eq
  intro index bound
  exact ensures.reached index (List.mem_range.mpr bound) bound

/-- Whatever a resolver has done so far, it answers as the resolution does. -/
theorem query_follows (progress : Progress graph options resolver) (id : DeclId) :
    (query graph options id resolver).1 = (graph.resolution options).isolation id ∧
      Follows graph options resolver (query graph options id resolver).2 := by
  unfold query
  cases settled : resolver.settled.lookup id with
  | some isolation =>
    refine ⟨?_, progress.follows⟩
    rw [progress.settled] at settled
    -- An entry that is settled early stays the same when all components are done.
    have all := lookup_tableOf_mono
      (fun index mem => List.mem_range.mpr (progress.listed index mem)) settled
    rw [Resolution.isolation, get?_resolution, all]
    rfl
  | none =>
    cases placed : graph.plan.componentOf? id with
    | none =>
      refine ⟨?_, progress.follows⟩
      have absent : (graph.resolution options).get? id = none := by
        rw [get?_resolution, ← Option.not_isSome_iff_eq_none, lookup_isSome, mem_tableOf_keys]
        rintro ⟨index, -, member⟩
        simp [Graph.componentOf?_eq_some.mpr member] at placed
      rw [Resolution.isolation, absent]
      rfl
    | some index =>
      have member := Graph.componentOf?_eq_some.mp placed
      have ensures : Ensures graph options [index] resolver _ := ensure_ensures progress
      have done := ensures.reached index (by simp) (member_bound member)
      refine ⟨?_, ensures.toFollows⟩
      simp only [ensures.progress.settled, lookup_tableOf member, if_pos done]
      rw [Resolution.isolation, get?_resolution_of_member member]

end Resolver

end

/-! ### The same rulings -/

def Graph.everything (graph : Graph) (settled : IsolationTable) : Region graph settled where
  Holds id := (graph.decl? id).isSome
  declared _ declared := declared
  closed _ _ _ _ := by
    rintro ⟨decl, found, dependency⟩
    exact dependency_declared (mem_of_decl? found) dependency

/-- Two graphs fall into the same components, and the rules treat the declarations of both alike. -/
structure SameRulings (graph other : Graph) (options changed : Options) : Prop where
  plan : other.plan = graph.plan
  alike : Alike graph other options changed fun id => (graph.decl? id).isSome

namespace SameRulings

variable {graph other : Graph} {options changed : Options}

theorem solveAt (same : SameRulings graph other options changed) (settled : IsolationTable)
    (index : Nat) : solveAt other changed settled index = solveAt graph options settled index := by
  unfold ActorIsolation.solveAt
  rw [same.plan]
  split
  · rename_i component found
    refine Eq.symm (@solveComponent_congr _ _ _ (graph.everything settled) _ _ _ _ same.alike
      (fun _ _ => rfl) ?_ index)
    intro member mem
    exact Graph.Member.declared ⟨component, found, mem⟩
  · rfl

theorem settledBelow (same : SameRulings graph other options changed) (index : Nat) :
    settledBelow other changed index = settledBelow graph options index := by
  induction index with
  | zero => rfl
  | succ index ih =>
    unfold ActorIsolation.settledBelow
    rw [ih, same.solveAt]

theorem solution (same : SameRulings graph other options changed) :
    solution other changed = solution graph options := by
  funext index
  rw [ActorIsolation.solution, same.settledBelow, same.solveAt]
  rfl

theorem workOf (same : SameRulings graph other options changed) :
    workOf other changed = workOf graph options := by
  unfold ActorIsolation.workOf
  rw [same.solution]

theorem resolution (same : SameRulings graph other options changed) :
    other.resolution changed = graph.resolution options := by
  unfold Graph.resolution tableOf
  rw [same.plan, same.solution]

end SameRulings

end ActorIsolation
