import ActorIsolation.Proofs.Crossing
import Mathlib.Logic.Function.Iterate

/-! The search for the actor value that a body runs on, round by round. It leaves one inheriting closure
in each round and has no bound of its own. It comes to an end because the way outwards does, which is what
the check for endless enclosings has seen to.
-/

set_option autoImplicit false

namespace ActorIsolation

/-- How far a search has come: it looks at a declaration, or it has ended with a name or without. -/
inductive Climb where
  | seeking (decl : Declaration)
  | ended (name : Option String)
  deriving DecidableEq, Repr, Inhabited

namespace Graph

variable (graph : Graph)

def climbFrom (id : DeclId) : Climb := (graph.decl? id).elim (.ended none) .seeking

def climb : Climb → Climb
  | .ended name => .ended name
  | .seeking decl =>
    if decl.isInheritingClosure then decl.enclosing.elim (.ended none) graph.climbFrom
    else .ended (some decl.actorName)

inductive Outwards : DeclId → List Declaration → Prop where
  | unknown {id : DeclId} : graph.decl? id = none → Outwards id []
  | top {id : DeclId} {decl : Declaration} : graph.decl? id = some decl → decl.enclosing = none →
      Outwards id [decl]
  | inside {id parent : DeclId} {decl : Declaration} {chain : List Declaration} :
      graph.decl? id = some decl → decl.enclosing = some parent → Outwards parent chain →
      Outwards id (decl :: chain)

end Graph

/-- The part of a chain that a search goes along, up to the first declaration that is no inheriting
closure. -/
def climbed : List Declaration → List Declaration
  | [] => []
  | decl :: rest => decl :: if decl.isInheritingClosure then climbed rest else []

/-! ### Chains -/

theorem Draft.length_outward_le (decls : List Declaration) (id : DeclId) :
    (outward decls id).length ≤ decls.length := by
  induction decls, id using outward.induct with
  | case1 decls id absent => simp [outward_eq_nil absent]
  | case2 decls id decl found ih =>
    have fewer := length_others_lt found
    rw [outward_eq_cons found, List.length_cons]
    cases decl.enclosing with
    | none => exact Nat.lt_of_le_of_lt (Nat.zero_le _) fewer
    | some parent => exact Nat.lt_of_le_of_lt (ih parent) fewer

namespace Graph

variable {graph : Graph} {id : DeclId} {chain other : List Declaration}

theorem outwards_chain (graph : Graph) (id : DeclId) : graph.Outwards id (graph.chain id) := by
  -- By induction on the chain, which is that of the parent after its first declaration.
  induction listed : graph.chain id generalizing id with
  | nil => exact .unknown (Draft.find?_of_outward_eq_nil listed)
  | cons first rest ih =>
    cases found : graph.decl? id with
    | none => simp [chain_eq_nil found] at listed
    | some decl =>
      rw [chain_eq_cons found] at listed
      obtain ⟨rfl, tail⟩ := List.cons.inj listed
      cases enclosed : decl.enclosing with
      | none =>
        rw [enclosed, Option.elim_none] at tail
        exact tail ▸ .top found enclosed
      | some parent =>
        rw [enclosed, Option.elim_some] at tail
        exact .inside found enclosed (ih parent tail)

theorem Outwards.eq_chain (outwards : graph.Outwards id chain) : chain = graph.chain id := by
  induction outwards with
  | unknown absent => exact (chain_eq_nil absent).symm
  | top found enclosed => rw [chain_eq_cons found, enclosed, Option.elim_none]
  | inside found enclosed _ ih => rw [chain_eq_cons found, enclosed, Option.elim_some, ih]

/-! ### Rounds -/

theorem climb_ended (rounds : Nat) (name : Option String) :
    graph.climb^[rounds] (.ended name) = .ended name :=
  Function.iterate_fixed rfl rounds

/-- After so many rounds the search looks at the declaration that comes so many steps outwards, unless it
has ended. -/
theorem climb_iterate (outwards : graph.Outwards id chain) (rounds : Nat) :
    graph.climb^[rounds] (graph.climbFrom id) =
      (climbed chain)[rounds]?.elim (.ended (graph.binding? id)) .seeking := by
  induction outwards generalizing rounds with
  | @unknown id absent =>
    have unbound : graph.binding? id = none := by simp [binding?, chain_eq_nil absent]
    rw [climbFrom, absent, unbound]
    exact climb_ended rounds none
  | @top id decl found enclosed =>
    rw [binding?_eq found, climbFrom, found, enclosed]
    cases rounds with
    | zero => rfl
    | succ rounds =>
      rw [Function.iterate_succ_apply]
      by_cases inherits : decl.kind = .closure true
      · simp [climb, climbed, Declaration.isInheritingClosure, inherits, enclosed, climb_ended]
      · simp [climb, climbed, Declaration.isInheritingClosure, inherits, climb_ended]
  | @inside id parent decl chain found enclosed _ ih =>
    rw [binding?_eq found, climbFrom, found, enclosed]
    cases rounds with
    | zero => rfl
    | succ rounds =>
      rw [Function.iterate_succ_apply]
      by_cases inherits : decl.kind = .closure true
      · simp [climb, climbed, Declaration.isInheritingClosure, inherits, enclosed, ih]
      · simp [climb, climbed, Declaration.isInheritingClosure, inherits, climb_ended]

end Graph

theorem length_climbed_le (chain : List Declaration) : (climbed chain).length ≤ chain.length := by
  induction chain with
  | nil => exact Nat.le_refl _
  | cons decl rest ih =>
    rw [climbed]
    split
    · simpa using ih
    · simp

theorem climbed_eq_self_iff {chain : List Declaration} :
    (climbed chain = chain ∧ ∃ last, chain.getLast? = some last ∧ last.kind = .closure true) ↔
      chain ≠ [] ∧ ∀ decl ∈ chain, decl.kind = .closure true := by
  induction chain with
  | nil => simp
  | cons decl rest ih =>
    by_cases inherits : decl.kind = .closure true
    · cases rest with
      | nil => simp [climbed, inherits]
      | cons next further =>
        rw [climbed, if_pos (by simp [Declaration.isInheritingClosure, inherits]),
          List.getLast?_cons_cons, List.cons_inj_right, ih]
        simp [inherits]
    · rw [climbed, if_neg (by simp [Declaration.isInheritingClosure, inherits])]
      constructor
      · rintro ⟨whole, last, ends, closure⟩
        rw [← whole] at ends
        cases ends
        exact absurd closure inherits
      · rintro ⟨_, closures⟩
        exact absurd (closures decl List.mem_cons_self) inherits

/-- Every search for the actor value of a body ends. The way outwards from a declaration is one finite
chain, and the search goes along it, one declaration in each round, up to the first that is no inheriting
closure. The name it ends with is that of this declaration. It ends without a name just when the
declaration is unknown, or when it comes to the end of the chain and that is an inheriting closure. -/
theorem search_ends_at_nearest (graph : Graph) (id : DeclId) : ∃ chain : List Declaration,
    (∀ other, graph.Outwards id other ↔ other = chain) ∧
      (∀ rounds, graph.climb^[rounds] (graph.climbFrom id) =
        (climbed chain)[rounds]?.elim (.ended (graph.binding? id)) .seeking) ∧
      graph.climb^[graph.decls.length] (graph.climbFrom id) = .ended (graph.binding? id) ∧
      (∀ name, graph.binding? id = some name ↔ ∃ closures nearest further,
        chain = closures ++ nearest :: further ∧
          (∀ closure ∈ closures, closure.kind = .closure true) ∧ nearest.kind ≠ .closure true ∧
          nearest.isolatedParameter?.getD "self" = name) ∧
      (graph.binding? id = none ↔ graph.decl? id = none ∨
        climbed chain = chain ∧ ∃ last, chain.getLast? = some last ∧ last.kind = .closure true) := by
  have outwards := graph.outwards_chain id
  have rounds := Graph.climb_iterate outwards
  refine ⟨graph.chain id, fun other => ⟨Graph.Outwards.eq_chain, fun same => same ▸ outwards⟩, rounds,
    ?_, fun name => ?_, ?_⟩
  · have few : (climbed (graph.chain id)).length ≤ graph.decls.length :=
      Nat.le_trans (length_climbed_le _) (Draft.length_outward_le graph.decls id)
    rw [rounds, List.getElem?_eq_none few, Option.elim_none]
  · rw [Graph.binding?, Option.map_eq_some_iff]
    constructor
    · rintro ⟨nearest, first, named⟩
      obtain ⟨own, closures, further, split, before⟩ := List.find?_eq_some_iff_append.mp first
      refine ⟨closures, nearest, further, split, fun closure mem => ?_, ?_, named⟩
      · simpa [Declaration.isInheritingClosure] using before closure mem
      · simpa [Declaration.isInheritingClosure] using own
    · rintro ⟨closures, nearest, further, split, before, own, named⟩
      refine ⟨nearest, List.find?_eq_some_iff_append.mpr ⟨?_, closures, further, split, ?_⟩, named⟩
      · simpa [Declaration.isInheritingClosure] using own
      · intro closure mem
        simp [Declaration.isInheritingClosure, before closure mem]
  · rw [climbed_eq_self_iff, Graph.binding?, Option.map_eq_none_iff, List.find?_eq_none]
    have closures : (∀ decl ∈ graph.chain id, ¬ (!decl.isInheritingClosure) = true) ↔
        ∀ decl ∈ graph.chain id, decl.kind = .closure true := by
      simp [Declaration.isInheritingClosure]
    rw [closures]
    cases found : graph.decl? id with
    | none => simp [Graph.chain_eq_nil found]
    | some decl => simp [Graph.chain_eq_cons found]

end ActorIsolation
