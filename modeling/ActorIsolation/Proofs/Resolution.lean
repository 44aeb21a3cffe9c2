import ActorIsolation.Proofs.Resolver
import Mathlib.Data.Fintype.Card
import Mathlib.Data.Fintype.EquivFin
import Mathlib.Data.Fintype.Sets

/-! What a resolution is: the same for every way to get at it, and a table that the rules themselves
prescribe. -/

set_option autoImplicit false

namespace ActorIsolation

/-! ### Answers on demand -/

def Resolver.answers (graph : Graph) (options : Options) :
    List DeclId → Resolver → List Isolation × Resolver
  | [], resolver => ([], resolver)
  | id :: rest, resolver =>
    let (isolation, resolver) := resolver.query graph options id
    let (others, resolver) := answers graph options rest resolver
    (isolation :: others, resolver)

variable {graph : Graph} {options : Options}

theorem answers_follow {resolver : Resolver} (progress : resolver.Progress graph options)
    (requests : List DeclId) :
    (resolver.answers graph options requests).1 =
        requests.map (graph.resolution options).isolation ∧
      (resolver.answers graph options requests).2.Progress graph options := by
  induction requests generalizing resolver with
  | nil => exact ⟨rfl, progress⟩
  | cons id rest ih =>
    obtain ⟨first, follows⟩ := Resolver.query_follows progress id
    obtain ⟨others, after⟩ := ih follows.progress
    exact ⟨by simp only [Resolver.answers, first, others, List.map_cons], after⟩

/-- Requests on demand, for any declarations in any order, are answered from the table that is worked
out level by level, and what is still missing then completes the same table. -/
theorem requests_in_any_order (graph : Graph) (options : Options) (requests : List DeclId) :
    let table := (Resolver.byLevels graph options).snapshot
    let asked := Resolver.start.answers graph options requests
    asked.1 = requests.map table.isolation ∧
      (asked.2.complete graph options).snapshot = table ∧
      table.entries.map (·.1) = graph.decls.map (·.id) ∧
      (∀ id, (graph.decl? id).isSome → table.get? id = some (table.isolation id)) ∧
      ∀ id, graph.decl? id = none → table.isolation id = .fallback := by
  intro table asked
  have same : table = graph.resolution options := Resolver.byLevels_snapshot graph options
  obtain ⟨answered, progress⟩ :=
    answers_follow (Resolver.progress_start graph options) requests
  have key : ∀ id, (table.get? id).isSome ↔ (graph.decl? id).isSome := by
    intro id
    rw [Resolution.get?, lookup_isSome, same, mem_keys_resolution]
  rw [same] at key ⊢
  refine ⟨answered, Resolver.complete_snapshot progress, keys_resolution, ?_, ?_⟩
  · intro id declared
    obtain ⟨isolation, found⟩ := Option.isSome_iff_exists.mp ((key id).mpr declared)
    rw [Resolution.isolation, found, Option.getD_some]
  · intro id undeclared
    have absent : (graph.resolution options).get? id = none := by
      rw [← Option.not_isSome_iff_eq_none, key, undeclared]
      simp
    rw [Resolution.isolation, absent, Option.getD_none]

/-! ### The table and the rules -/

/-- What the resolution says of a declaration is what the rules prescribe, with the resolution's own
answers for all others, or else the declaration depends on itself. -/
theorem resolution_justified {decl : Declaration} (mem : decl ∈ graph.decls) :
    let table := (graph.resolution options).isolation
    table decl.id = .nonisolated .cycle ∧ graph.Entangled decl.id ∨
      table decl.id = decl.prescribed graph options table := by
  intro table
  have found := Graph.decl?_of_mem mem
  obtain ⟨index, member⟩ := Graph.exists_member (Option.isSome_of_eq_some found)
  have bound := member_bound member
  have agrees : ∀ id isolation,
      (tableOf graph options (List.range graph.plan.size)).lookup id = some isolation →
        table id = isolation := by
    intro id isolation known
    simp only [table, Resolution.isolation, get?_resolution, known, Option.getD_some]
  have below : List.range index ⊆ List.range graph.plan.size := by
    intro earlier less
    rw [List.mem_range] at less ⊢
    omega
  rcases tableOf_justified (List.mem_range.mpr bound) below member agrees with
    cyclic | ⟨same, declared, prescribed⟩
  · exact .inl cyclic
  · rw [found] at declared
    cases declared
    exact .inr prescribed.symm

theorem Graph.dependencies_wellFounded (acyclic : ∀ id, ¬ graph.Entangled id) :
    WellFounded fun next decl : {decl // decl ∈ graph.decls} =>
      graph.Depends decl.1.id next.1.id := by
  -- Declarations are finitely many, and a finite order that is transitive and irreflexive is
  -- well founded.
  let reaches (next decl : {decl // decl ∈ graph.decls}) : Prop :=
    Relation.TransGen graph.Depends decl.1.id next.1.id
  have trans : IsTrans _ reaches := ⟨fun _ _ _ first second => second.trans first⟩
  have irrefl : Std.Irrefl reaches := ⟨fun decl around => acyclic decl.1.id around⟩
  have wellFounded : WellFounded reaches := Finite.wellFounded_of_trans_of_irrefl reaches
  exact Subrelation.wf (fun depends => Relation.TransGen.single depends) wellFounded

/-- Without cycles, two tables that both follow the rules agree on every declaration. -/
theorem prescribed_unique (acyclic : ∀ id, ¬ graph.Entangled id) {table other : DeclId → Isolation}
    (first : ∀ decl ∈ graph.decls, table decl.id = decl.prescribed graph options table)
    (second : ∀ decl ∈ graph.decls, other decl.id = decl.prescribed graph options other)
    (decl : {decl // decl ∈ graph.decls}) : table decl.1.id = other decl.1.id := by
  -- By induction along dependencies, which are all that the rules look at.
  induction decl using (Graph.dependencies_wellFounded acyclic).induction with
  | _ decl ih =>
    rw [first decl.1 decl.2, second decl.1 decl.2]
    apply prescribed_congr
    intro id dependency
    obtain ⟨next, found⟩ := Option.isSome_iff_exists.mp (Graph.dependency_declared decl.2 dependency)
    have same := Graph.id_of_decl? found
    rw [← same]
    exact ih ⟨next, Graph.mem_of_decl? found⟩
      ⟨decl.1, Graph.decl?_of_mem decl.2, by rwa [same]⟩

/-- The resolved table solves the equation of the rules: what it says of a declaration is what the
first applicable rule says, when the other declarations are isolated as the table says itself. Only
declarations that depend on themselves may be exempt, and without such the table is the only
solution. -/
theorem resolved_table_follows_rules (graph : Graph) (options : Options) :
    let table := (Resolver.byLevels graph options).snapshot.isolation
    (∀ decl ∈ graph.decls, (table decl.id).origin ≠ .cycle →
        table decl.id = decl.prescribed graph options table) ∧
      (∀ decl ∈ graph.decls, (table decl.id).origin = .cycle → graph.Entangled decl.id) ∧
      ((∀ id, ¬ graph.Entangled id) →
        (∀ decl ∈ graph.decls, (table decl.id).origin ≠ .cycle) ∧
        (∀ decl ∈ graph.decls, table decl.id = decl.prescribed graph options table) ∧
        ∀ other : DeclId → Isolation,
          (∀ decl ∈ graph.decls, other decl.id = decl.prescribed graph options other) →
            ∀ decl ∈ graph.decls, other decl.id = table decl.id) := by
  intro table
  have same : table = (graph.resolution options).isolation := by
    simp only [table, Resolver.byLevels_snapshot]
  have justified : ∀ decl ∈ graph.decls, table decl.id = .nonisolated .cycle ∧
      graph.Entangled decl.id ∨ table decl.id = decl.prescribed graph options table := by
    rw [same]
    exact fun decl => resolution_justified
  have equation : ∀ decl ∈ graph.decls, (table decl.id).origin ≠ .cycle →
      table decl.id = decl.prescribed graph options table := by
    intro decl mem regular
    rcases justified decl mem with ⟨cyclic, -⟩ | prescribed
    · rw [cyclic] at regular
      exact absurd rfl regular
    · exact prescribed
  have entangled : ∀ decl ∈ graph.decls, (table decl.id).origin = .cycle →
      graph.Entangled decl.id := by
    intro decl mem cyclic
    rcases justified decl mem with ⟨-, entangled⟩ | prescribed
    · exact entangled
    · -- The rules themselves never speak of cycles, so this origin can only come from one.
      rw [prescribed] at cyclic
      exact absurd cyclic (prescribed_origin graph options table decl)
  refine ⟨equation, entangled, fun acyclic => ?_⟩
  have regular : ∀ decl ∈ graph.decls, (table decl.id).origin ≠ .cycle :=
    fun decl mem cyclic => acyclic decl.id (entangled decl mem cyclic)
  have follows : ∀ decl ∈ graph.decls, table decl.id = decl.prescribed graph options table :=
    fun decl mem => equation decl mem (regular decl mem)
  refine ⟨regular, follows, fun other equation decl mem => ?_⟩
  exact prescribed_unique acyclic equation follows ⟨decl, mem⟩

end ActorIsolation
