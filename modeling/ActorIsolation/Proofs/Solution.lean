import ActorIsolation.Isolation.Resolver
import ActorIsolation.Proofs.Components
import ActorIsolation.Proofs.Solving

/-! The solution of each component. It is fixed by solving the components in the order in which they
are numbered, and every other order that respects dependencies gives the same one.
-/

set_option autoImplicit false

namespace ActorIsolation

variable {graph : Graph} {options : Options} {index : Nat} {component : Component}

def Graph.regionOf {settled : IsolationTable}
    (found : graph.plan.components[index]? = some component)
    (ready : ∀ earlier ∈ component.dependencies, ∀ id, graph.Member earlier id →
      (settled.lookup id).isSome) : Region graph settled where
  Holds id := graph.Member index id ∨ ∃ earlier ∈ component.dependencies, graph.Member earlier id
  declared id inside := by
    rcases inside with member | ⟨earlier, -, member⟩ <;> exact member.declared
  closed id next inside unsettled depends := by
    obtain ⟨decl, known, dependency⟩ := depends
    rcases inside with ⟨other, same, mem⟩ | ⟨earlier, before, member⟩
    · rw [found] at same
      cases same
      rcases dependency_placed found mem known dependency with mem | before
      · exact .inl ⟨component, found, mem⟩
      · exact .inr before
    · have settles := ready earlier before id member
      simp [unsettled] at settles

/-! ### Solving in order -/

section

variable (graph options)

def solveAt (settled : IsolationTable) (index : Nat) : Solving :=
  match graph.plan.components[index]? with
  | some component => solveComponent graph options settled index component.members
  | none => {}

def settledBelow : Nat → IsolationTable
  | 0 => []
  | index + 1 => (solveAt graph options (settledBelow index) index).found ++ settledBelow index

def solution (index : Nat) : Solving := solveAt graph options (settledBelow graph options index) index

def tableOf (done : List Nat) : IsolationTable :=
  done.flatMap fun index => (solution graph options index).found

theorem settledBelow_eq (index : Nat) :
    settledBelow graph options index = tableOf graph options (List.range index).reverse := by
  induction index with
  | zero => rfl
  | succ index ih =>
    rw [settledBelow, ← solution, List.range_succ, List.reverse_append, tableOf, List.reverse_singleton,
      List.singleton_append, List.flatMap_cons, ← tableOf, ← ih]

def Solved (index : Nat) : Prop :=
  ∀ id, id ∈ (solution graph options index).found.map (·.1) ↔ graph.Member index id

end

variable {done : List Nat} {id : DeclId}

theorem lookup_tableOf_of_solved (solved : ∀ earlier ∈ done, Solved graph options earlier)
    (member : graph.Member index id) : (tableOf graph options done).lookup id =
      if index ∈ done then (solution graph options index).found.lookup id else none := by
  induction done with
  | nil => rfl
  | cons first rest ih =>
    obtain ⟨solvedFirst, solvedRest⟩ := List.forall_mem_cons.mp solved
    rw [tableOf, List.flatMap_cons, List.lookup_append, ← tableOf, ih solvedRest]
    by_cases same : index = first
    · subst same
      by_cases again : index ∈ rest <;> simp [again]
    · -- No other component answers for `id`, which is a member of one component only.
      have absent : (solution graph options first).found.lookup id = none := by
        rw [← Option.not_isSome_iff_eq_none, lookup_isSome, solvedFirst id]
        exact fun other => same (member.unique other)
      simp [absent, same]

theorem tableOf_ready (solved : ∀ earlier ∈ done, Solved graph options earlier)
    (ready : ∀ earlier ∈ component.dependencies, earlier ∈ done) :
    ∀ earlier ∈ component.dependencies, ∀ id, graph.Member earlier id →
      ((tableOf graph options done).lookup id).isSome := by
  intro earlier before id member
  rw [lookup_tableOf_of_solved solved member, if_pos (ready earlier before), lookup_isSome,
    solved earlier (ready earlier before)]
  exact member

theorem solveComponent_spec (solved : ∀ earlier ∈ done, Solved graph options earlier)
    (found : graph.plan.components[index]? = some component)
    (ready : ∀ earlier ∈ component.dependencies, earlier ∈ done) (fresh : index ∉ done) :
    let table := tableOf graph options done
    let solving := solveComponent graph options table index component.members
    (∀ id, id ∈ solving.found.map (·.1) ↔ graph.Member index id) ∧
      (solving.found.map (·.1)).Nodup ∧
      ∀ entry ∈ solving.found, solving.Justified options graph table entry.1 entry.2 := by
  intro table solving
  have settles := tableOf_ready solved ready
  have inside : ∀ member ∈ component.members, (Graph.regionOf found settles).Holds member :=
    fun member mem => .inl ⟨component, found, mem⟩
  obtain ⟨sound, known⟩ := solveComponent_sound options inside index
  refine ⟨fun id => ⟨fun mem => ?_, fun member => ?_⟩, sound.distinct, sound.justified⟩
  · -- The region also holds dependencies, but they are settled and so not answered anew.
    obtain ⟨member | ⟨earlier, before, member⟩, unsettled⟩ := sound.fresh id mem
    · exact member
    · have settled := settles earlier before id member
      simp [unsettled] at settled
  · have unsettled : table.lookup id = none := by
      rw [lookup_tableOf_of_solved solved member, if_neg fresh]
    obtain ⟨other, same, mem⟩ := member
    rw [found] at same
    cases same
    have answered := known id mem
    rwa [Solving.known?, unsettled, Option.none_or, lookup_isSome] at answered

theorem solution_eq (found : graph.plan.components[index]? = some component) :
    solution graph options index = solveComponent graph options
      (tableOf graph options (List.range index).reverse) index component.members := by
  rw [solution, solveAt, found, settledBelow_eq]

theorem mem_range_of_dependency (found : graph.plan.components[index]? = some component)
    {earlier : Nat} (dependency : earlier ∈ component.dependencies) :
    earlier ∈ (List.range index).reverse := by
  simpa using graph.plan.dependencies_lt found dependency

theorem solved (graph : Graph) (options : Options) (index : Nat) : Solved graph options index := by
  induction index using Nat.strong_induction_on with
  | _ index below =>
    -- Whether a component is solved hangs on the ones before it only.
    cases found : graph.plan.components[index]? with
    | none =>
      intro id
      have none : solution graph options index = {} := by rw [solution, solveAt, found]
      simp [none, Graph.Member, found]
    | some component =>
      have earlier : ∀ earlier ∈ (List.range index).reverse, Solved graph options earlier := by
        intro earlier mem
        exact below earlier (by simpa using mem)
      rw [Solved, solution_eq found]
      exact (solveComponent_spec earlier found (fun _ => mem_range_of_dependency found) (by simp)).1

theorem lookup_tableOf (member : graph.Member index id) : (tableOf graph options done).lookup id =
    if index ∈ done then (solution graph options index).found.lookup id else none :=
  lookup_tableOf_of_solved (fun earlier _ => solved graph options earlier) member

/-- In whatever order components are solved, each gets its solution, as long as the ones it depends
on are done. -/
theorem solveComponent_eq_solution (found : graph.plan.components[index]? = some component)
    (ready : ∀ earlier ∈ component.dependencies, earlier ∈ done) (fresh : index ∉ done) :
    solveComponent graph options (tableOf graph options done) index component.members =
      solution graph options index := by
  have settles := tableOf_ready (fun earlier _ => solved graph options earlier) ready
  have inside : ∀ member ∈ component.members, (Graph.regionOf found settles).Holds member :=
    fun member mem => .inl ⟨component, found, mem⟩
  rw [solution_eq found]
  refine solveComponent_congr .refl ?_ inside index
  -- In the region both tables hold the dependencies' solutions and nothing of the component.
  rintro id (member | ⟨earlier, before, member⟩)
  · rw [lookup_tableOf member, if_neg fresh, lookup_tableOf member, if_neg (by simp)]
  · rw [lookup_tableOf member, if_pos (ready earlier before), lookup_tableOf member,
      if_pos (mem_range_of_dependency found before)]

/-! ### Tables of solutions -/

theorem tableOf_keys_nodup (distinct : done.Nodup) :
    ((tableOf graph options done).map (·.1)).Nodup := by
  rw [tableOf, List.map_flatMap, List.nodup_flatMap]
  constructor
  · intro index _
    cases found : graph.plan.components[index]? with
    | none => simp [solution, solveAt, found]
    | some component =>
      rw [solution_eq found]
      exact (solveComponent_spec (fun earlier _ => solved graph options earlier) found
        (fun _ => mem_range_of_dependency found) (by simp)).2.1
  · refine distinct.imp fun different => ?_
    intro id first second
    exact different (((solved graph options _ id).mp first).unique
      ((solved graph options _ id).mp second))

theorem mem_tableOf_keys : id ∈ (tableOf graph options done).map (·.1) ↔
    ∃ index ∈ done, graph.Member index id := by
  simp only [tableOf, List.map_flatMap, List.mem_flatMap, solved graph options _ id]

theorem lookup_tableOf_mono {all : List Nat} (subset : done ⊆ all) {isolation : Isolation}
    (before : (tableOf graph options done).lookup id = some isolation) :
    (tableOf graph options all).lookup id = some isolation := by
  have key : id ∈ (tableOf graph options done).map (·.1) := by
    rw [← lookup_isSome, before]
    rfl
  obtain ⟨index, mem, member⟩ := mem_tableOf_keys.mp key
  rw [lookup_tableOf member, if_pos mem] at before
  rw [lookup_tableOf member, if_pos (subset mem), before]

theorem solution_justified (found : graph.plan.components[index]? = some component) :
    ∀ entry ∈ (solution graph options index).found, (solution graph options index).Justified options
      graph (tableOf graph options (List.range index).reverse) entry.1 entry.2 := by
  rw [solution_eq found]
  exact (solveComponent_spec (fun earlier _ => solved graph options earlier) found
    (fun _ => mem_range_of_dependency found) (by simp)).2.2

theorem tableOf_justified {answers : DeclId → Isolation} (mem : index ∈ done)
    (below : List.range index ⊆ done) (member : graph.Member index id)
    (agrees : ∀ id isolation, (tableOf graph options done).lookup id = some isolation →
      answers id = isolation) :
    answers id = .nonisolated .cycle ∧ graph.Entangled id ∨
      ∃ decl, graph.decl? id = some decl ∧ decl.prescribed graph options answers = answers id := by
  have own : ∀ other isolation, (solution graph options index).found.lookup other = some isolation →
      answers other = isolation := by
    intro other isolation kept
    have key := lookup_isSome.mp (Option.isSome_of_eq_some kept)
    apply agrees
    rw [lookup_tableOf ((solved graph options index other).mp key), if_pos mem, kept]
  -- The solution was justified by the table of its turn, which the whole table extends.
  have agreed : (solution graph options index).Agrees
      (tableOf graph options (List.range index).reverse) answers := by
    intro other isolation known
    rcases Option.or_eq_some_iff.mp known with settled | ⟨-, kept⟩
    · exact agrees other isolation (lookup_tableOf_mono (by simpa using below) settled)
    · exact own other isolation kept
  obtain ⟨isolation, kept⟩ := Option.isSome_iff_exists.mp
    (lookup_isSome.mpr ((solved graph options index id).mpr member))
  obtain ⟨component, found, -⟩ := member
  rw [own id isolation kept]
  rcases solution_justified found (id, isolation) (mem_of_lookup kept) with
    cyclic | ⟨decl, declared, prescribed⟩
  · exact .inl cyclic
  · exact .inr ⟨decl, declared, prescribed answers agreed⟩

end ActorIsolation
