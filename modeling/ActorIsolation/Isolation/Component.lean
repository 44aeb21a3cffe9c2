import ActorIsolation.Isolation.Rule

/-! The isolation of one component. Its members are looked at in ascending order, and a declaration
that turns out to depend on itself is taken as not isolated.
-/

set_option autoImplicit false

namespace ActorIsolation

abbrev IsolationTable := List (DeclId × Isolation)

structure Solving where
  found : IsolationTable := []
  /-- The declarations seen to depend on themselves. -/
  cyclic : List DeclId := []
  issues : List ResolutionIssue := []
  events : List Event := []
  deriving DecidableEq, Repr, Inhabited

namespace Solving

variable (state : Solving)

def known? (settled : IsolationTable) (id : DeclId) : Option Isolation :=
  (settled.lookup id).or (state.found.lookup id)

def markCyclic (ids : List DeclId) : Solving := { state with cyclic := ids ++ state.cyclic }

def write (event : Event) : Solving := { state with events := state.events ++ [event] }

def remarkOn (id : DeclId) : ResolutionIssueKind → Remark
  | .cycle => .cyclicInference id
  | .conflictingAnnotations => .conflictingAnnotations id
  | .ambiguousInference _ => .ambiguousInference id

def complain (id : DeclId) (kind : ResolutionIssueKind) : Solving :=
  let state := state.write (.remarked (remarkOn id kind))
  { state with issues := state.issues ++ [⟨id, kind⟩] }

def settle (id : DeclId) (isolation : Isolation) : Isolation × Solving :=
  (isolation, { state with found := (id, isolation) :: state.found })

def settleCycle (id : DeclId) : Isolation × Solving :=
  (state.complain id .cycle).settle id (.nonisolated .cycle)

/-- Settles a declaration. Without a ruling, or with one that leans on the declaration itself, it is
part of a cycle; what the rule found fault with stays on record all the same. -/
def conclude (id : DeclId) : Option Ruling → Isolation × Solving
  | none => state.settleCycle id
  | some ruling =>
    let state := match ruling.complaint with
      | some kind => state.complain id kind
      | none => state
    if id ∈ state.cyclic then state.settleCycle id else state.settle id ruling.isolation

end Solving

section

variable (graph : Graph) (options : Options) (settled : IsolationTable)

/-- The isolation of a declaration, while the declarations of `path`, innermost first, wait for it.
There is no answer for a declaration that is itself waiting: all from it inwards are cyclic. -/
def lookUp (path : List DeclId) (id : DeclId) (state : Solving) : Option Isolation × Solving :=
  match state.known? settled id with
  | some isolation => (some isolation, state)
  | none =>
    if _waiting : id ∈ path then
      (none, state.markCyclic (path.takeWhile (· ≠ id) ++ [id]))
    else
      match _known : graph.decl? id with
      | none => (some .fallback, state)
      | some decl =>
        let (ruling, state) := (decl.ruling graph options).attempt
          (fun other state => lookUp (id :: path) other state) (fun event state => state.write event)
          state
        let (isolation, state) := state.conclude id ruling
        (some isolation, state)
termination_by room (graph.decls.map (·.id)) path
decreasing_by
  have known := List.mem_of_find?_eq_some _known
  have same : decl.id = id := by simpa using List.find?_some _known
  exact room_cons_lt (List.mem_map.mpr ⟨decl, known, same⟩) _waiting

def solveComponent (index : Nat) (members : List DeclId) : Solving :=
  let query : Query := ⟨.resolveComponent, index⟩
  let start : Solving := { events := [.opened query] }
  let state := members.foldl (fun state member => (lookUp graph options settled [] member state).2)
    start
  state.write (.closed query (if state.issues.isEmpty then .ok else .issues))

end

end ActorIsolation
