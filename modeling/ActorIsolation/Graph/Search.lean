import ActorIsolation.Declaration
import ActorIsolation.Path

/-! The search for the components of a relation, in one pass and without recursion. Nodes are numbered as
they are entered and wait on a stack until their component is known. Each keeps the least number on the
stack that it is known to lead to; a node that leads to none below its own is the first of its component,
which is then all that waits above it.
-/

set_option autoImplicit false

namespace ActorIsolation

abbrev Links := List (DeclId × List DeclId)

namespace Links

def nodes (links : Links) : List DeclId := links.map (·.1)

def next (links : Links) (node : DeclId) : List DeclId := (links.lookup node).getD []

def targets (links : Links) : List DeclId := links.flatMap (·.2)

theorem mem_targets {links : Links} {node target : DeclId} (points : target ∈ links.next node) :
    target ∈ links.targets := by
  induction links with
  | nil => simp [next] at points
  | cons entry rest ih =>
    rw [next, List.lookup_cons] at points
    split at points
    · exact List.mem_flatMap.mpr ⟨entry, List.mem_cons_self, points⟩
    · exact List.mem_append_right entry.2 (ih points)

def ofDeclarations (decls : List Declaration) : Links :=
  decls.map fun decl =>
    (decl.id, ascending (decl.dependencies.filter fun id => decls.any (·.id = id)))

end Links

/-- A node that is being looked at, with how many of the nodes it points to have been taken up. -/
structure Frame where
  node : DeclId
  taken : Nat
  deriving DecidableEq, Repr, Inhabited

structure Search where
  /-- The numbers of the nodes that have been entered. -/
  index : List (DeclId × Nat) := []
  lowlink : List (DeclId × Nat) := []
  onStack : List (DeclId × Bool) := []
  /-- The nodes that have been entered and are in no component yet, latest first. -/
  stack : List DeclId := []
  /-- Innermost first. -/
  calls : List Frame := []
  next : Nat := 0
  components : List (List DeclId) := []
  deriving DecidableEq, Repr, Inhabited

namespace Search

variable (search : Search)

def index? (node : DeclId) : Option Nat := search.index.lookup node

def lowlinkOf (node : DeclId) : Nat := (search.lowlink.lookup node).getD 0

def isOnStack (node : DeclId) : Bool := (search.onStack.lookup node).getD false

def enter (node : DeclId) : Search :=
  { search with
    index := (node, search.next) :: search.index
    lowlink := (node, search.next) :: search.lowlink
    onStack := (node, true) :: search.onStack
    stack := node :: search.stack
    calls := ⟨node, 0⟩ :: search.calls
    next := search.next + 1 }

def lower (node : DeclId) (number : Nat) : Search :=
  { search with lowlink := (node, min (search.lowlinkOf node) number) :: search.lowlink }

def unwind (root : DeclId) : List DeclId → List DeclId × List DeclId
  | [] => ([], [])
  | node :: below =>
    if node = root then ([node], below)
    else
      let (taken, rest) := unwind root below
      (node :: taken, rest)

def emit (root : DeclId) : Search :=
  let (component, below) := unwind root search.stack
  { search with
    stack := below
    onStack := component.map (·, false) ++ search.onStack
    components := search.components ++ [component] }

def follow (frame : Frame) (outer : List Frame) (target : DeclId) : Search :=
  let search := { search with calls := { frame with taken := frame.taken + 1 } :: outer }
  match search.index? target with
  | none => search.enter target
  | some number => if search.isOnStack target then search.lower frame.node number else search

/-- The node that the innermost one was entered from leads back as far as that does. -/
def tell (frame : Frame) : List Frame → Search
  | [] => search
  | parent :: _ => search.lower parent.node (search.lowlinkOf frame.node)

def leave (frame : Frame) (outer : List Frame) : Search :=
  let search := tell { search with calls := outer } frame outer
  if search.index? frame.node = some (search.lowlinkOf frame.node) then search.emit frame.node
  else search

def step (links : Links) : Search :=
  match search.calls with
  | [] => search
  | frame :: outer =>
    match (links.next frame.node)[frame.taken]? with
    | some target => search.follow frame outer target
    | none => search.leave frame outer

/-! ### Termination -/

def stepsLeft (links : Links) (frame : Frame) : Nat :=
  (links.next frame.node).length - frame.taken + 1

/-- The steps at the nodes that are being looked at, and at all that can still be entered. -/
def remaining (links : Links) : Nat :=
  weigh (stepsLeft links) search.calls +
    weigh (stepsLeft links ⟨·, 0⟩) (links.targets.filter (· ∉ search.index.map (·.1)))

variable {search} {links : Links} {frame : Frame} {outer : List Frame} {target : DeclId}

theorem calls_leave : (search.leave frame outer).calls = outer := by
  unfold leave
  cases outer <;> dsimp only <;> split <;> rfl

theorem index_leave : (search.leave frame outer).index = search.index := by
  unfold leave
  cases outer <;> dsimp only <;> split <;> rfl

theorem index?_eq_none {node : DeclId} (absent : search.index? node = none) :
    node ∉ search.index.map (·.1) := by
  rw [index?, List.lookup_eq_none_iff] at absent
  intro mem
  obtain ⟨entry, listed, rfl⟩ := List.mem_map.mp mem
  simpa using absent entry listed

theorem remaining_enter (absent : search.index? target = none) (listed : target ∈ links.targets) :
    (search.enter target).remaining links ≤ search.remaining links := by
  have fewer : stepsLeft links ⟨target, 0⟩ + weigh (stepsLeft links ⟨·, 0⟩)
        (links.targets.filter (· ∉ (search.enter target).index.map (·.1))) ≤
      weigh (stepsLeft links ⟨·, 0⟩) (links.targets.filter (· ∉ search.index.map (·.1))) := by
    refine weigh_filter_add_le (stepsLeft links ⟨·, 0⟩) listed ?_ ?_ fun value kept => ?_
    · exact decide_eq_true (index?_eq_none absent)
    · simp [enter]
    · simp only [enter, List.map_cons, List.mem_cons, not_or, decide_eq_true_eq] at kept ⊢
      exact kept.2
  simp only [remaining, enter, weigh_cons] at fewer ⊢
  omega

theorem step_decreases (waits : search.calls ≠ []) :
    (search.step links).remaining links < search.remaining links := by
  cases calls : search.calls with
  | nil => exact absurd calls waits
  | cons frame outer =>
    simp only [step, calls]
    cases found : (links.next frame.node)[frame.taken]? with
    | none =>
      simp only [remaining, index_leave, calls_leave, calls, weigh_cons, stepsLeft]
      omega
    | some target =>
      obtain ⟨bound, -⟩ := List.getElem?_eq_some_iff.mp found
      have taken : remaining { search with calls := { frame with taken := frame.taken + 1 } :: outer } links <
          search.remaining links := by
        simp only [remaining, calls, weigh_cons, stepsLeft]
        omega
      dsimp only [follow]
      split
      · rename_i absent
        have listed : target ∈ links.targets := Links.mem_targets (List.mem_of_getElem? found)
        exact Nat.lt_of_le_of_lt (remaining_enter absent listed) taken
      · split
        · exact taken
        · exact taken

def run (links : Links) (search : Search) : Search :=
  if _waits : search.calls = [] then search else run links (search.step links)
termination_by search.remaining links
decreasing_by exact step_decreases _waits

end Search

namespace Links

def visit (links : Links) (search : Search) (root : DeclId) : Search :=
  if (search.index? root).isSome then search else (search.enter root).run links

def search (links : Links) : Search := links.nodes.foldl links.visit {}

def classes (links : Links) : List (List DeclId) := links.search.components

end Links

end ActorIsolation
