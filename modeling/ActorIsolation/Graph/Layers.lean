import ActorIsolation.Graph.Search

/-! What holds of a search at every moment. The stack falls into layers, one for each node that is being
looked at: that node, and above it the nodes that were entered from it and have been left. All of a layer
lead to its node and are led to from it, and what they point to lies no deeper than its lowlink. So a node
whose lowlink is its own number has a whole component in its layer, which points to nothing but what is in
a component already.
-/

set_option autoImplicit false

namespace ActorIsolation

/-- A relation that follows the links and can be continued. -/
structure Links.Respects (links : Links) (reaches : DeclId → DeclId → Prop) : Prop where
  refl : ∀ node, reaches node node
  link : ∀ node, ∀ target ∈ links.next node, reaches node target
  trans : ∀ {first middle last : DeclId}, reaches first middle → reaches middle last →
    reaches first last

namespace Search

variable (links : Links) (reaches : DeclId → DeclId → Prop) (search : Search)

def number (node : DeclId) : Nat := (search.index? node).getD 0

/-- What a node points to has been entered, and if it still waits it is no deeper than this lowlink. -/
def Seen (node target : DeclId) : Prop :=
  (search.index? target).isSome ∧ (target ∈ search.stack → search.lowlinkOf node ≤ search.number target)

/-- The nodes of `segment` were entered from that of the frame; those of `below` were there before. -/
structure Layer (frame : Frame) (outer : List Frame) (segment below : List DeclId) : Prop where
  taken : ∀ target ∈ (links.next frame.node).take frame.taken, search.Seen frame.node target
  finished : ∀ node ∈ segment, ∀ target ∈ links.next node, search.Seen frame.node target
  low : search.lowlinkOf frame.node ≤ search.number frame.node
  attained : ∃ node ∈ frame.node :: below,
    search.number node = search.lowlinkOf frame.node ∧ reaches frame.node node
  down : ∀ node ∈ segment, reaches frame.node node
  up : ∀ node ∈ segment, reaches node frame.node
  entered : ∀ parent ∈ outer.head?, reaches parent.node frame.node

inductive Layers : List Frame → List DeclId → Prop where
  | nil : Layers [] []
  | cons {frame : Frame} {outer : List Frame} {segment below : List DeclId} :
      Layer links reaches search frame outer segment below → Layers outer below →
      Layers (frame :: outer) (segment ++ frame.node :: below)

/-- The members of each component reach each other, and point to none that comes later. -/
structure Emitted (components : List (List DeclId)) : Prop where
  inhabited : ∀ members ∈ components, members ≠ []
  joined : ∀ members ∈ components, ∀ node ∈ members, ∀ other ∈ members, reaches node other
  closed : ∀ earlier members later, components = earlier ++ members :: later →
    ∀ node ∈ members, ∀ target ∈ links.next node, target ∈ members ∨ target ∈ earlier.flatten

/-- What is numbered waits or is in a component, and what waits is numbered upwards. -/
structure Stacked : Prop where
  numbered : ∀ node, (search.index? node).isSome ↔
    node ∈ search.stack ∨ node ∈ search.components.flatten
  marked : ∀ node, search.isOnStack node = true ↔ node ∈ search.stack
  fresh : ∀ node ∈ search.stack, search.number node < search.next
  descending : search.stack.Pairwise fun later earlier => search.number earlier < search.number later
  distinct : (search.stack ++ search.components.flatten).Nodup
  listed : ∀ node ∈ search.stack ++ search.components.flatten,
    node ∈ links.nodes ∨ ∃ source, node ∈ links.next source

structure Orderly : Prop extends Stacked links search where
  layers : Layers links reaches search search.calls search.stack
  emitted : Emitted links reaches search.components

variable {links reaches search} {frame : Frame} {outer : List Frame} {frames : List Frame}
  {segment below stack : List DeclId} {node other target root : DeclId} {least : Nat}

/-! ### Updates -/

theorem lookup_cons_eq {α : Type} (key other : DeclId) (value : α) (table : List (DeclId × α)) :
    ((key, value) :: table).lookup other = if other = key then some value else table.lookup other := by
  rw [List.lookup_cons]
  by_cases same : other = key
  · simp [same]
  · rw [beq_false_of_ne same, if_neg same]

theorem index?_enter : (search.enter node).index? other =
    if other = node then some search.next else search.index? other :=
  lookup_cons_eq ..

theorem number_enter : (search.enter node).number other =
    if other = node then search.next else search.number other := by
  rw [Search.number, index?_enter]
  split <;> rfl

theorem lowlinkOf_enter : (search.enter node).lowlinkOf other =
    if other = node then search.next else search.lowlinkOf other := by
  simp only [lowlinkOf, enter, lookup_cons_eq]
  split <;> rfl

theorem isOnStack_enter : (search.enter node).isOnStack other =
    if other = node then true else search.isOnStack other := by
  simp only [isOnStack, enter, lookup_cons_eq]
  split <;> rfl

theorem lowlinkOf_lower : (search.lower node least).lowlinkOf other =
    if other = node then min (search.lowlinkOf node) least else search.lowlinkOf other := by
  simp only [lowlinkOf, lower, lookup_cons_eq]
  split <;> rfl

theorem lookup_unmarked (component : List DeclId) (marks : List (DeclId × Bool)) :
    (component.map (·, false) ++ marks).lookup other =
      if other ∈ component then some false else marks.lookup other := by
  induction component with
  | nil => simp
  | cons node rest ih =>
    rw [List.map_cons, List.cons_append, lookup_cons_eq, ih]
    by_cases same : other = node <;> simp [same]

theorem unwind_append (above : root ∉ segment) :
    unwind root (segment ++ root :: below) = (segment ++ [root], below) := by
  induction segment with
  | nil => simp [unwind]
  | cons node rest ih =>
    obtain ⟨different, above⟩ := List.ne_and_not_mem_of_not_mem_cons above
    simp [unwind, Ne.symm different, ih above]

/-- A node that heads a layer is emitted with the whole of it. -/
theorem emit_eq (waits : search.stack = segment ++ root :: below) (above : root ∉ segment) :
    search.emit root = { search with
      stack := below
      onStack := (segment ++ [root]).map (·, false) ++ search.onStack
      components := search.components ++ [segment ++ [root]] } := by
  simp only [emit, waits, unwind_append above]

theorem follow_enters (absent : search.index? target = none) :
    search.follow frame outer target =
      enter { search with calls := { frame with taken := frame.taken + 1 } :: outer } target := by
  rw [index?] at absent
  simp only [follow, index?, absent]

theorem follow_lowers (entered : search.index? target = some least)
    (marked : search.isOnStack target = true) : search.follow frame outer target =
      lower { search with calls := { frame with taken := frame.taken + 1 } :: outer } frame.node least := by
  rw [index?] at entered
  rw [isOnStack] at marked
  simp only [follow, index?, isOnStack, entered, marked, if_true]

theorem follow_passes (entered : (search.index? target).isSome)
    (unmarked : search.isOnStack target = false) : search.follow frame outer target =
      { search with calls := { frame with taken := frame.taken + 1 } :: outer } := by
  obtain ⟨number, entered⟩ := Option.isSome_iff_exists.mp entered
  rw [index?] at entered
  rw [isOnStack] at unmarked
  simp [follow, index?, isOnStack, entered, unmarked]

/-! ### Layers -/

theorem Seen.mono {after : Search} (seen : search.Seen node target)
    (entered : ∀ other, (search.index? other).isSome → after.index? other = search.index? other)
    (waiting : ∀ other, (search.index? other).isSome → other ∈ after.stack → other ∈ search.stack)
    (low : after.lowlinkOf node ≤ search.lowlinkOf node) : after.Seen node target := by
  have same := entered target seen.1
  refine ⟨same ▸ seen.1, fun mem => ?_⟩
  have deeper := seen.2 (waiting target seen.1 mem)
  have number : after.number target = search.number target := congrArg (·.getD 0) same
  omega

/-- A layer is told by the lowlink of its node and by the numbers of what waits below. -/
theorem Layer.mono {after : Search} (layer : Layer links reaches search frame outer segment below)
    (low : after.lowlinkOf frame.node = search.lowlinkOf frame.node)
    (numbers : ∀ node ∈ frame.node :: below, after.number node = search.number node)
    (seen : ∀ target, search.Seen frame.node target → after.Seen frame.node target) :
    Layer links reaches after frame outer segment below where
  taken target mem := seen target (layer.taken target mem)
  finished node mem target points := seen target (layer.finished node mem target points)
  low := by
    rw [low, numbers frame.node List.mem_cons_self]
    exact layer.low
  attained := by
    obtain ⟨node, mem, same, leads⟩ := layer.attained
    exact ⟨node, mem, by rw [numbers node mem, low, same], leads⟩
  down := layer.down
  up := layer.up
  entered := layer.entered

theorem Layers.mono {after : Search} (layers : Layers links reaches search frames stack)
    (low : ∀ node ∈ stack, after.lowlinkOf node = search.lowlinkOf node)
    (numbers : ∀ node ∈ stack, after.number node = search.number node)
    (seen : ∀ node ∈ stack, ∀ target, search.Seen node target → after.Seen node target) :
    Layers links reaches after frames stack := by
  induction layers with
  | nil => exact .nil
  | @cons frame outer segment below layer _ ih =>
    have inside : frame.node :: below ⊆ segment ++ frame.node :: below := List.subset_append_right ..
    have top := inside List.mem_cons_self
    have deeper : below ⊆ segment ++ frame.node :: below :=
      fun node mem => inside (List.mem_cons_of_mem _ mem)
    refine .cons (layer.mono (low _ top) (fun node mem => numbers node (inside mem)) (seen _ top)) ?_
    exact ih (fun node mem => low node (deeper mem)) (fun node mem => numbers node (deeper mem))
      (fun node mem => seen node (deeper mem))

theorem Layers.split (layers : Layers links reaches search (frame :: outer) stack) :
    ∃ segment below, stack = segment ++ frame.node :: below ∧
      Layer links reaches search frame outer segment below ∧ Layers links reaches search outer below := by
  cases layers with
  | cons layer rest => exact ⟨_, _, rfl, layer, rest⟩

/-- All that waits leads to the node that is being looked at. -/
theorem Layers.up (respects : links.Respects reaches)
    (layers : Layers links reaches search (frame :: outer) stack) (mem : node ∈ stack) :
    reaches node frame.node := by
  induction outer generalizing frame stack with
  | nil =>
    cases layers with
    | cons layer rest =>
      cases rest
      rcases List.mem_append.mp mem with mem | mem
      · exact layer.up node mem
      · rw [List.mem_singleton.mp mem]
        exact respects.refl frame.node
  | cons parent further ih =>
    cases layers with
    | cons layer rest =>
      rcases List.mem_append.mp mem with mem | mem
      · exact layer.up node mem
      · rcases List.mem_cons.mp mem with rfl | mem
        · exact respects.refl frame.node
        · exact respects.trans (ih rest mem) (layer.entered parent rfl)

theorem Layers.bump (layers : Layers links reaches search (frame :: outer) stack)
    (found : (links.next frame.node)[frame.taken]? = some target)
    (seen : search.Seen frame.node target) :
    Layers links reaches search ({ frame with taken := frame.taken + 1 } :: outer) stack := by
  cases layers with
  | @cons _ _ segment below layer rest =>
    have further : Layer links reaches search { frame with taken := frame.taken + 1 } outer segment
        below := by
      refine { layer with taken := fun other mem => ?_ }
      rw [List.take_add_one, found] at mem
      rcases List.mem_append.mp mem with mem | mem
      · exact layer.taken other mem
      · exact Option.some.inj (Option.mem_toList.mp mem) ▸ seen
    exact .cons further rest

/-- A node that is found to lead further back keeps its layer. -/
theorem Layer.lower (layer : Layer links reaches search frame outer segment below)
    (attained : least < search.lowlinkOf frame.node → ∃ node ∈ frame.node :: below,
      search.number node = least ∧ reaches frame.node node) :
    Layer links reaches (search.lower frame.node least) frame outer segment below := by
  have lowlink : (search.lower frame.node least).lowlinkOf frame.node =
      min (search.lowlinkOf frame.node) least := by
    rw [lowlinkOf_lower, if_pos rfl]
  have lowered {target : DeclId} (seen : search.Seen frame.node target) :
      (search.lower frame.node least).Seen frame.node target :=
    seen.mono (fun _ _ => rfl) (fun _ _ mem => mem) (by omega)
  refine ⟨fun target mem => lowered (layer.taken target mem),
    fun node mem target points => lowered (layer.finished node mem target points), ?_, ?_, layer.down,
    layer.up, layer.entered⟩
  · rw [lowlink]
    exact Nat.le_trans (Nat.min_le_left ..) layer.low
  · rw [lowlink]
    by_cases deeper : least < search.lowlinkOf frame.node
    · rw [Nat.min_eq_right (Nat.le_of_lt deeper)]
      exact attained deeper
    · rw [Nat.min_eq_left (Nat.le_of_not_lt deeper)]
      exact layer.attained

theorem Layers.lower (layers : Layers links reaches search frames stack) (apart : node ∉ stack) :
    Layers links reaches (search.lower node least) frames stack := by
  have kept {other : DeclId} (mem : other ∈ stack) :
      (search.lower node least).lowlinkOf other = search.lowlinkOf other := by
    have different : other ≠ node := fun same => apart (same ▸ mem)
    rw [lowlinkOf_lower, if_neg different]
  refine layers.mono (fun other mem => kept mem) (fun _ _ => rfl) fun other mem target seen => ?_
  exact seen.mono (fun _ _ => rfl) (fun _ _ mem => mem) (Nat.le_of_eq (kept mem))

/-- What a node points to has all been seen by the time it is left. -/
theorem Layer.seen (layer : Layer links reaches search frame outer segment below)
    (done : (links.next frame.node)[frame.taken]? = none) (mem : node ∈ segment ++ [frame.node])
    (points : target ∈ links.next node) : search.Seen frame.node target := by
  rcases List.mem_append.mp mem with mem | mem
  · exact layer.finished node mem target points
  · rw [List.mem_singleton.mp mem] at points
    refine layer.taken target ?_
    rwa [List.take_of_length_le (List.getElem?_eq_none_iff.mp done)]

theorem Layer.joined (respects : links.Respects reaches)
    (layer : Layer links reaches search frame outer segment below) :
    ∀ node ∈ segment ++ [frame.node], ∀ other ∈ segment ++ [frame.node], reaches node other := by
  intro node mem other otherMem
  have home : reaches node frame.node := by
    rcases List.mem_append.mp mem with mem | mem
    · exact layer.up node mem
    · exact List.mem_singleton.mp mem ▸ respects.refl frame.node
  have out : reaches frame.node other := by
    rcases List.mem_append.mp otherMem with mem | mem
    · exact layer.down other mem
    · exact List.mem_singleton.mp mem ▸ respects.refl frame.node
  exact respects.trans home out

/-- The layer of a node that is left becomes part of the one below it, if that leads as far back. -/
theorem Layer.join {parent : Frame} {further : List Frame} {around deeper : List DeclId}
    (respects : links.Respects reaches)
    (layer : Layer links reaches search frame (parent :: further) segment below)
    (parentLayer : Layer links reaches search parent further around deeper)
    (done : (links.next frame.node)[frame.taken]? = none) (home : reaches frame.node parent.node)
    (low : search.lowlinkOf parent.node ≤ search.lowlinkOf frame.node) :
    Layer links reaches search parent further (segment ++ frame.node :: around) deeper := by
  have inner {node : DeclId} (mem : node ∈ segment ++ frame.node :: around) :
      node ∈ segment ++ [frame.node] ∨ node ∈ around := by
    simpa [or_assoc] using mem
  have out : reaches parent.node frame.node := layer.entered parent rfl
  have joined := layer.joined respects
  have top : frame.node ∈ segment ++ [frame.node] := by simp
  refine ⟨parentLayer.taken, fun node mem target points => ?_, parentLayer.low, parentLayer.attained,
    fun node mem => ?_, fun node mem => ?_, parentLayer.entered⟩
  · rcases inner mem with mem | mem
    · have seen := layer.seen done mem points
      exact ⟨seen.1, fun waiting => Nat.le_trans low (seen.2 waiting)⟩
    · exact parentLayer.finished node mem target points
  · rcases inner mem with mem | mem
    · exact respects.trans out (joined _ top node mem)
    · exact parentLayer.down node mem
  · rcases inner mem with mem | mem
    · exact respects.trans (joined node mem _ top) home
    · exact parentLayer.up node mem

/-! ### Stacks -/

namespace Stacked

variable (stacked : Stacked links search)

include stacked

theorem relabel (lowlink : List (DeclId × Nat)) (calls : List Frame) :
    Stacked links { search with lowlink, calls } :=
  ⟨stacked.numbered, stacked.marked, stacked.fresh, stacked.descending, stacked.distinct, stacked.listed⟩

theorem isSome_of_mem (mem : node ∈ search.stack) : (search.index? node).isSome :=
  (stacked.numbered node).mpr (.inl mem)

theorem not_mem_of_none (absent : search.index? node = none) : node ∉ search.stack := by
  intro mem
  have entered := stacked.isSome_of_mem mem
  simp [absent] at entered

theorem index?_eq (mem : node ∈ search.stack) : search.index? node = some (search.number node) := by
  obtain ⟨number, same⟩ := Option.isSome_iff_exists.mp (stacked.isSome_of_mem mem)
  rw [Search.number, same, Option.getD_some]

theorem enter (absent : search.index? node = none)
    (known : node ∈ links.nodes ∨ ∃ source, node ∈ links.next source) :
    Stacked links (search.enter node) := by
  have off := stacked.not_mem_of_none absent
  have out : node ∉ search.components.flatten := by
    intro mem
    have entered := (stacked.numbered node).mpr (.inr mem)
    simp [absent] at entered
  have different {other : DeclId} (mem : other ∈ search.stack) : other ≠ node :=
    fun same => off (same ▸ mem)
  refine ⟨fun other => ?_, fun other => ?_, fun other mem => ?_, ?_, ?_, ?_⟩
  · rw [index?_enter]
    by_cases same : other = node
    · simp [same, Search.enter]
    · simpa [same, Search.enter] using stacked.numbered other
  · rw [isOnStack_enter]
    by_cases same : other = node
    · simp [same, Search.enter]
    · simpa [same, Search.enter] using stacked.marked other
  · rw [number_enter]
    rcases List.mem_cons.mp mem with rfl | mem
    · simp [Search.enter]
    · rw [if_neg (different mem)]
      exact Nat.lt_succ_of_lt (stacked.fresh other mem)
  · refine List.pairwise_cons.mpr ⟨fun earlier mem => ?_, stacked.descending.imp_of_mem ?_⟩
    · rw [number_enter, number_enter, if_neg (different mem), if_pos rfl]
      exact stacked.fresh earlier mem
    · intro later earlier laterMem earlierMem less
      rwa [number_enter, number_enter, if_neg (different earlierMem), if_neg (different laterMem)]
  · exact List.nodup_cons.mpr ⟨List.not_mem_append off out, stacked.distinct⟩
  · intro other mem
    rcases List.mem_cons.mp mem with rfl | mem
    · exact known
    · exact stacked.listed other mem

/-- What waits above a node has a greater number, and what waits below it a lesser one. -/
theorem number_lt (waits : search.stack = segment ++ root :: below) :
    (∀ node ∈ segment, search.number root < search.number node) ∧
      ∀ node ∈ below, search.number node < search.number root := by
  have order := waits ▸ stacked.descending
  obtain ⟨-, rest, across⟩ := List.pairwise_append.mp order
  exact ⟨fun node mem => across node mem root List.mem_cons_self, (List.pairwise_cons.mp rest).1⟩

theorem apart (waits : search.stack = segment ++ root :: below) : root ∉ segment ∧ root ∉ below := by
  obtain ⟨above, under⟩ := stacked.number_lt waits
  exact ⟨fun mem => Nat.lt_irrefl _ (above root mem), fun mem => Nat.lt_irrefl _ (under root mem)⟩

theorem emit (waits : search.stack = segment ++ root :: below) : Stacked links (search.emit root) := by
  obtain ⟨above, under⟩ := stacked.number_lt waits
  have top := (stacked.apart waits).1
  have gone {other : DeclId} (mem : other ∈ segment ++ [root]) : other ∉ below := by
    intro deeper
    have less := under other deeper
    rcases List.mem_append.mp mem with mem | mem
    · have greater := above other mem
      omega
    · rw [List.mem_singleton.mp mem] at less
      omega
  have members (other : DeclId) :
      other ∈ search.stack ↔ other ∈ segment ++ [root] ∨ other ∈ below := by
    simp [waits, or_assoc]
  rw [emit_eq waits top]
  refine ⟨fun other => ?_, fun other => ?_, fun other mem => ?_, ?_, ?_, fun other mem => ?_⟩
  · refine (stacked.numbered other).trans ?_
    rw [members, List.flatten_append, List.mem_append, List.flatten_singleton]
    grind
  · simp only [isOnStack, lookup_unmarked]
    by_cases mem : other ∈ segment ++ [root]
    · simp [mem, gone mem]
    · rw [if_neg mem]
      refine (stacked.marked other).trans ?_
      simp [members, mem]
  · exact stacked.fresh other ((members other).mpr (.inr mem))
  · have order := waits ▸ stacked.descending
    exact (List.pairwise_cons.mp (List.pairwise_append.mp order).2.1).2
  · have nodup := waits ▸ stacked.distinct
    refine List.Perm.nodup ?_ nodup
    simp only [List.flatten_append, List.flatten_singleton]
    grind
  · refine stacked.listed other ?_
    simp only [List.flatten_append, List.flatten_singleton, List.mem_append] at mem ⊢
    rw [members, List.mem_append]
    grind

end Stacked

end Search

end ActorIsolation
