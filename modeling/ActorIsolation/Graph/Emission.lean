import ActorIsolation.Graph.Layers

/-! Every step of a search keeps its stack in layers, so components come out whole and each after all that
it points to.
-/

set_option autoImplicit false

namespace ActorIsolation

namespace Search

variable {links : Links} {reaches : DeclId → DeclId → Prop} {search : Search} {frame : Frame}
  {outer frames : List Frame} {segment below stack : List DeclId} {node other target root : DeclId}

/-! ### Steps -/

theorem Emitted.append {components : List (List DeclId)} {members : List DeclId}
    (emitted : Emitted links reaches components) (inhabited : members ≠ [])
    (joined : ∀ node ∈ members, ∀ other ∈ members, reaches node other)
    (closed : ∀ node ∈ members, ∀ target ∈ links.next node,
      target ∈ members ∨ target ∈ components.flatten) :
    Emitted links reaches (components ++ [members]) := by
  refine ⟨fun other mem => ?_, fun other mem => ?_, fun earlier other later split => ?_⟩
  · rcases List.mem_append.mp mem with mem | mem
    · exact emitted.inhabited other mem
    · exact List.mem_singleton.mp mem ▸ inhabited
  · rcases List.mem_append.mp mem with mem | mem
    · exact emitted.joined other mem
    · exact List.mem_singleton.mp mem ▸ joined
  · rcases List.eq_nil_or_concat later with rfl | ⟨rest, last, rfl⟩
    · obtain ⟨rfl, same⟩ := List.append_inj' split rfl
      exact (List.cons.inj same).1 ▸ closed
    · rw [List.concat_eq_append, ← List.cons_append, ← List.append_assoc] at split
      exact emitted.closed earlier other rest (List.append_inj' split rfl).1

namespace Orderly

variable (orderly : Orderly links reaches search)

include orderly

theorem seen_enter (absent : search.index? node = none) (mem : other ∈ search.stack)
    (seen : search.Seen other target) : (search.enter node).Seen other target := by
  have different {entered : DeclId} (numbered : (search.index? entered).isSome) : entered ≠ node := by
    rintro rfl
    simp [absent] at numbered
  refine seen.mono (fun entered numbered => ?_) (fun entered numbered waits => ?_) ?_
  · rw [index?_enter, if_neg (different numbered)]
  · exact (List.mem_cons.mp waits).resolve_left (different numbered)
  · exact Nat.le_of_eq (by rw [lowlinkOf_enter, if_neg (different (orderly.isSome_of_mem mem))])

theorem layers_enter (absent : search.index? node = none) :
    Layers links reaches (search.enter node) search.calls search.stack := by
  have different {other : DeclId} (mem : other ∈ search.stack) : other ≠ node :=
    fun same => orderly.not_mem_of_none absent (same ▸ mem)
  refine orderly.layers.mono (fun other mem => ?_) (fun other mem => ?_)
    (fun other mem target seen => orderly.seen_enter absent mem seen)
  · rw [lowlinkOf_enter, if_neg (different mem)]
  · rw [number_enter, if_neg (different mem)]

omit orderly in
theorem layers_calls {others : List Frame} (layers : Layers links reaches search frames stack) :
    Layers links reaches { search with calls := others } frames stack :=
  layers.mono (fun _ _ => rfl) (fun _ _ => rfl) (fun _ _ _ seen => seen)

omit orderly in
theorem layer_enter (respects : links.Respects reaches) (led : ∀ parent ∈ frames.head?,
    reaches parent.node node) : Layer links reaches (search.enter node) ⟨node, 0⟩ frames [] below where
  taken target mem := by simp at mem
  finished node mem := by simp at mem
  low := by simp [lowlinkOf_enter, number_enter]
  attained := ⟨node, List.mem_cons_self, by simp [lowlinkOf_enter, number_enter], respects.refl node⟩
  down node mem := by simp at mem
  up node mem := by simp at mem
  entered := led

theorem enter_root (respects : links.Respects reaches) (idle : search.calls = [])
    (absent : search.index? root = none) (listed : root ∈ links.nodes) :
    Orderly links reaches (search.enter root) := by
  have layers := orderly.layers_enter absent
  rw [idle] at layers
  refine ⟨orderly.toStacked.enter absent (.inl listed), ?_, orderly.emitted⟩
  have entered : Layers links reaches (search.enter root) (⟨root, 0⟩ :: []) ([] ++ root :: search.stack) :=
    .cons (layer_enter respects (by simp)) layers
  rwa [← idle] at entered

variable (respects : links.Respects reaches) (calls : search.calls = frame :: outer)

include respects calls

theorem follow_unentered (found : (links.next frame.node)[frame.taken]? = some target)
    (absent : search.index? target = none) : Orderly links reaches (search.follow frame outer target) := by
  have points := List.mem_of_getElem? found
  rw [follow_enters absent]
  have layers := orderly.layers_enter absent
  rw [calls] at layers
  obtain ⟨segment, below, waits, layer, -⟩ := layers.split
  have mem : frame.node ∈ search.stack := by simp [waits]
  have seen : (search.enter target).Seen frame.node target := by
    refine ⟨by simp [index?_enter], fun _ => ?_⟩
    have low := layer.low
    have entered : (search.enter target).number target = search.next := by simp [number_enter]
    have earlier := orderly.fresh frame.node mem
    have different : frame.node ≠ target := fun same => orderly.not_mem_of_none absent (same ▸ mem)
    rw [number_enter, if_neg different] at low
    omega
  have entered : Layers links reaches (search.enter target)
      (⟨target, 0⟩ :: { frame with taken := frame.taken + 1 } :: outer) ([] ++ target :: search.stack) := by
    refine .cons (layer_enter respects ?_) (layers.bump found seen)
    rintro parent ⟨⟩
    exact respects.link frame.node target points
  have stacked := orderly.toStacked.enter absent (.inr ⟨frame.node, points⟩)
  exact ⟨stacked.relabel _ _, layers_calls entered, orderly.emitted⟩

/-- A target that waits may lie deeper than all that the node was known to lead to. -/
theorem follow_waiting (found : (links.next frame.node)[frame.taken]? = some target)
    (waiting : target ∈ search.stack) : Orderly links reaches (search.follow frame outer target) := by
  have points := List.mem_of_getElem? found
  rw [follow_lowers (orderly.index?_eq waiting) ((orderly.marked target).mpr waiting)]
  have layers := orderly.layers
  rw [calls] at layers
  obtain ⟨segment, below, waits, layer, rest⟩ := layers.split
  let after := search.lower frame.node (search.number target)
  have top : Layer links reaches after frame outer segment below := by
    refine layer.lower fun deeper => ⟨target, ?_, rfl, respects.link frame.node target points⟩
    -- With a lesser number than the node itself, the target waits below it.
    rw [waits] at waiting
    refine (List.mem_append.mp waiting).resolve_left fun mem => ?_
    have greater := (orderly.number_lt waits).1 target mem
    have low := layer.low
    omega
  have seen : after.Seen frame.node target := by
    refine ⟨orderly.isSome_of_mem waiting, fun _ => ?_⟩
    have lowlink := @lowlinkOf_lower search frame.node frame.node (search.number target)
    rw [if_pos rfl] at lowlink
    exact lowlink ▸ Nat.min_le_right ..
  have all : Layers links reaches after (frame :: outer) search.stack := by
    rw [waits]
    exact .cons top (rest.lower (orderly.apart waits).2)
  exact ⟨orderly.toStacked.relabel _ _, layers_calls (all.bump found seen), orderly.emitted⟩

omit respects in
theorem follow_settled (found : (links.next frame.node)[frame.taken]? = some target)
    (entered : (search.index? target).isSome) (settled : target ∉ search.stack) :
    Orderly links reaches (search.follow frame outer target) := by
  have unmarked : search.isOnStack target = false := by
    rw [← Bool.not_eq_true, orderly.marked]
    exact settled
  rw [follow_passes entered unmarked]
  have layers := orderly.layers
  rw [calls] at layers
  have seen : search.Seen frame.node target := ⟨entered, fun mem => absurd mem settled⟩
  exact ⟨orderly.toStacked.relabel _ _, layers_calls (layers.bump found seen), orderly.emitted⟩

theorem follow (found : (links.next frame.node)[frame.taken]? = some target) :
    Orderly links reaches (search.follow frame outer target) := by
  cases entered : search.index? target with
  | none => exact orderly.follow_unentered respects calls found entered
  | some number =>
    by_cases waiting : target ∈ search.stack
    · exact orderly.follow_waiting respects calls found waiting
    · exact orderly.follow_settled calls found (by simp [entered]) waiting

omit calls respects in
/-- What the nodes of a layer point to is in it or in a component, if nothing deeper is pointed to. -/
theorem layer_closed (waits : search.stack = segment ++ frame.node :: below)
    (layer : Layer links reaches search frame outer segment below)
    (done : (links.next frame.node)[frame.taken]? = none)
    (root : search.number frame.node ≤ search.lowlinkOf frame.node) (mem : node ∈ segment ++ [frame.node])
    (points : target ∈ links.next node) :
    target ∈ segment ++ [frame.node] ∨ target ∈ search.components.flatten := by
  obtain ⟨entered, deeper⟩ := layer.seen done mem points
  refine ((orderly.numbered target).mp entered).imp_left fun waiting => ?_
  have least := deeper waiting
  rw [waits, ← List.singleton_append, ← List.append_assoc] at waiting
  refine (List.mem_append.mp waiting).resolve_right fun mem => ?_
  have less := (orderly.number_lt waits).2 target mem
  omega

omit orderly calls respects in
theorem tell_eq (search : Search) (frame : Frame) (outer : List Frame) :
    ∃ lowlink, tell { search with calls := outer } frame outer = { search with lowlink, calls := outer } := by
  cases outer with
  | nil => exact ⟨search.lowlink, rfl⟩
  | cons parent further => exact ⟨_, rfl⟩

omit orderly calls respects in
/-- The node that another was entered from has a lesser number, so it leads further back already. -/
theorem lowlinkOf_tell (rest : Layers links reaches search outer below)
    (under : ∀ node ∈ below, search.number node < search.number frame.node)
    (root : search.lowlinkOf frame.node = search.number frame.node) (node : DeclId) :
    (tell { search with calls := outer } frame outer).lowlinkOf node = search.lowlinkOf node := by
  cases outer with
  | nil => rfl
  | cons parent further =>
    obtain ⟨_, _, deeper, parentLayer, -⟩ := rest.split
    have less := under parent.node (by simp [deeper])
    have low := parentLayer.low
    change (lower { search with calls := parent :: further } parent.node _).lowlinkOf node = _
    rw [lowlinkOf_lower]
    split
    · rename_i same
      rw [same]
      change min (search.lowlinkOf parent.node) (search.lowlinkOf frame.node) = _
      omega
    · rfl

/-- A node that leads to none below its own number leaves with its component. -/
theorem leave_root (done : (links.next frame.node)[frame.taken]? = none)
    (root : search.lowlinkOf frame.node = search.number frame.node) :
    Orderly links reaches (search.leave frame outer) := by
  have layers := orderly.layers
  rw [calls] at layers
  obtain ⟨segment, below, waits, layer, rest⟩ := layers.split
  obtain ⟨lowlink, told⟩ := tell_eq search frame outer
  have lowlinks (node : DeclId) : lowlinkOf { search with lowlink, calls := outer } node =
      search.lowlinkOf node := by
    rw [← told, lowlinkOf_tell rest (orderly.number_lt waits).2 root]
  have numbered : index? { search with lowlink, calls := outer } frame.node =
      some (lowlinkOf { search with lowlink, calls := outer } frame.node) := by
    rw [lowlinks, root]
    exact orderly.index?_eq (by simp [waits])
  have leaves : search.leave frame outer = emit { search with lowlink, calls := outer } frame.node := by
    simp only [Search.leave, told]
    exact if_pos numbered
  have emitted := @emit_eq { search with lowlink, calls := outer } _ _ _ waits (orderly.apart waits).1
  rw [leaves]
  refine ⟨(orderly.toStacked.relabel _ _).emit waits, ?_, ?_⟩
  · rw [emitted]
    refine rest.mono (fun node _ => lowlinks node) (fun _ _ => rfl) fun node _ target seen => ?_
    refine seen.mono (fun _ _ => rfl) (fun other _ mem => ?_) (Nat.le_of_eq (lowlinks node))
    rw [waits]
    exact List.mem_append_right _ (List.mem_cons_of_mem _ mem)
  · rw [emitted]
    exact orderly.emitted.append (by simp) (layer.joined respects) fun node mem target points =>
      orderly.layer_closed waits layer done (Nat.le_of_eq root.symm) mem points

/-- A node that leads further back stays, and its layer becomes part of the one below it. -/
theorem leave_inner (done : (links.next frame.node)[frame.taken]? = none)
    (inner : search.lowlinkOf frame.node ≠ search.number frame.node) :
    Orderly links reaches (search.leave frame outer) := by
  have layers := orderly.layers
  rw [calls] at layers
  obtain ⟨segment, below, waits, layer, rest⟩ := layers.split
  obtain ⟨back, backMem, backNumber, backLeads⟩ := layer.attained
  have deeper : back ∈ below := by
    refine (List.mem_cons.mp backMem).resolve_left fun same => ?_
    rw [same] at backNumber
    exact inner backNumber.symm
  cases outer with
  | nil =>
    cases rest
    simp at deeper
  | cons parent further =>
    obtain ⟨around, under, waits', parentLayer, others⟩ := rest.split
    have whole : search.stack = (segment ++ frame.node :: around) ++ parent.node :: under := by
      simp [waits, waits']
    obtain ⟨aboveParent, -⟩ := orderly.number_lt whole
    let after := search.lower parent.node (search.lowlinkOf frame.node)
    have lowlink (node : DeclId) : after.lowlinkOf node = if node = parent.node then
        min (search.lowlinkOf parent.node) (search.lowlinkOf frame.node) else search.lowlinkOf node :=
      lowlinkOf_lower
    have different : frame.node ≠ parent.node := fun same => (orderly.apart whole).1 (by simp [same])
    have kept : after.lowlinkOf frame.node = search.lowlinkOf frame.node := by
      rw [lowlink, if_neg different]
    have leaves : search.leave frame (parent :: further) = { after with calls := parent :: further } := by
      refine if_neg fun (same : after.index? frame.node = some (after.lowlinkOf frame.node)) => inner ?_
      rw [kept] at same
      have numbered : after.index? frame.node = some (search.number frame.node) :=
        orderly.index?_eq (by simp [waits])
      exact Option.some.inj (same.symm.trans numbered)
    have lowered : Layer links reaches after parent further around under := by
      refine parentLayer.lower fun further => ⟨back, ?_, backNumber, ?_⟩
      · rw [waits'] at deeper
        refine (List.mem_append.mp deeper).resolve_left fun mem => ?_
        have greater := aboveParent back (by simp [mem])
        have low := parentLayer.low
        omega
      · exact respects.trans (layer.entered parent rfl) backLeads
    have left : Layer links reaches after frame (parent :: further) segment below :=
      layer.mono kept (fun _ _ => rfl) fun target seen =>
        seen.mono (fun _ _ => rfl) (fun _ _ mem => mem) (Nat.le_of_eq kept)
    have low : after.lowlinkOf parent.node ≤ after.lowlinkOf frame.node := by
      rw [kept, lowlink, if_pos rfl]
      exact Nat.min_le_right ..
    have home : reaches frame.node parent.node := respects.trans backLeads (rest.up respects deeper)
    rw [leaves]
    have all : Layers links reaches after (parent :: further) search.stack := by
      rw [whole]
      exact .cons (left.join respects lowered done home low) (others.lower (orderly.apart whole).2)
    exact ⟨orderly.toStacked.relabel _ _, layers_calls all, orderly.emitted⟩

theorem leave (done : (links.next frame.node)[frame.taken]? = none) :
    Orderly links reaches (search.leave frame outer) := by
  by_cases root : search.lowlinkOf frame.node = search.number frame.node
  · exact orderly.leave_root respects calls done root
  · exact orderly.leave_inner respects calls done root

omit calls in
theorem step : Orderly links reaches (search.step links) := by
  unfold Search.step
  split
  · exact orderly
  · rename_i frame outer calls
    split
    · rename_i found
      exact orderly.follow respects calls found
    · rename_i done
      exact orderly.leave respects calls done

omit calls in
theorem run : Orderly links reaches (search.run links) ∧ (search.run links).calls = [] := by
  fun_induction Search.run links search with
  | case1 search idle => exact ⟨orderly, idle⟩
  | case2 search waits ih => exact ih (orderly.step respects)

end Orderly

theorem index_step : (search.step links).index = search.index ∨
    ∃ entry, (search.step links).index = entry :: search.index := by
  unfold Search.step
  split
  · exact .inl rfl
  · split
    · unfold Search.follow
      dsimp only
      split
      · exact .inr ⟨_, rfl⟩
      · split <;> exact .inl rfl
    · exact .inl index_leave

theorem isSome_step (entered : (search.index? node).isSome) :
    ((search.step links).index? node).isSome := by
  rcases index_step with same | ⟨⟨other, number⟩, more⟩
  · rwa [index?, same]
  · rw [index?, more, lookup_cons_eq]
    split
    · rfl
    · exact entered

theorem isSome_run (entered : (search.index? node).isSome) :
    ((search.run links).index? node).isSome := by
  fun_induction Search.run links search with
  | case1 search idle => exact entered
  | case2 search waits ih => exact ih (isSome_step entered)

theorem orderly_start : Orderly links reaches {} where
  numbered node := by simp [index?]
  marked node := by simp [isOnStack]
  fresh node mem := by simp at mem
  descending := .nil
  distinct := .nil
  listed node mem := by simp at mem
  layers := .nil
  emitted := ⟨by simp, by simp, by simp⟩

end Search

namespace Links

variable {links : Links} {reaches : DeclId → DeclId → Prop} {search : Search} {root : DeclId}

theorem visit_orderly (respects : links.Respects reaches) (orderly : search.Orderly links reaches)
    (idle : search.calls = []) (listed : root ∈ links.nodes) :
    (links.visit search root).Orderly links reaches ∧ (links.visit search root).calls = [] := by
  unfold visit
  split
  · exact ⟨orderly, idle⟩
  · rename_i absent
    exact (orderly.enter_root respects idle (by simpa using absent) listed).run respects

theorem isSome_visit (search : Search) (root : DeclId) :
    ((links.visit search root).index? root).isSome := by
  unfold visit
  split
  · rename_i entered
    exact entered
  · exact Search.isSome_run (by simp [Search.index?_enter])

theorem isSome_visit_of_isSome {node : DeclId} (entered : (search.index? node).isSome) :
    ((links.visit search root).index? node).isSome := by
  unfold visit
  split
  · exact entered
  · refine Search.isSome_run ?_
    rw [Search.index?_enter]
    split
    · rfl
    · exact entered

/-- One root after the other, the search stays orderly and all that it set out from is numbered. -/
theorem foldl_visit (respects : links.Respects reaches) (roots : List DeclId)
    (listed : roots ⊆ links.nodes) (orderly : search.Orderly links reaches) (idle : search.calls = []) :
    let after := roots.foldl links.visit search
    after.Orderly links reaches ∧ after.calls = [] ∧
      (∀ root ∈ roots, (after.index? root).isSome) ∧
      ∀ node, (search.index? node).isSome → (after.index? node).isSome := by
  induction roots generalizing search with
  | nil => exact ⟨orderly, idle, by simp, fun _ entered => entered⟩
  | cons root rest ih =>
    obtain ⟨first, others⟩ := List.cons_subset.mp listed
    obtain ⟨visited, free⟩ := visit_orderly respects orderly idle first
    obtain ⟨final, quiet, covers, kept⟩ := ih others visited free
    refine ⟨final, quiet, List.forall_mem_cons.mpr ⟨kept root (isSome_visit search root), covers⟩, ?_⟩
    exact fun node entered => kept node (isSome_visit_of_isSome entered)

theorem search_orderly (respects : links.Respects reaches) :
    links.search.Orderly links reaches ∧ links.search.stack = [] ∧
      ∀ node ∈ links.nodes, (links.search.index? node).isSome := by
  obtain ⟨orderly, idle, covers, -⟩ : links.search.Orderly links reaches ∧ _ :=
    foldl_visit respects links.nodes (List.Subset.refl _) Search.orderly_start rfl
  have layers := orderly.layers
  rw [show links.search.calls = [] from idle] at layers
  refine ⟨orderly, ?_, covers⟩
  generalize links.search.stack = left at layers
  cases layers
  rfl

/-! ### Classes -/

theorem classes_emitted (respects : links.Respects reaches) :
    Search.Emitted links reaches links.classes :=
  (search_orderly respects).1.emitted

theorem respects_trivial (links : Links) : links.Respects fun _ _ => True :=
  ⟨fun _ => trivial, fun _ _ _ => trivial, fun _ _ => trivial⟩

theorem classes_nodup (links : Links) : links.classes.flatten.Nodup := by
  have distinct := (search_orderly links.respects_trivial).1.distinct
  exact (List.nodup_append.mp distinct).2.1

theorem mem_classes_of_node {node : DeclId} (listed : node ∈ links.nodes) :
    node ∈ links.classes.flatten := by
  obtain ⟨orderly, empty, covers⟩ := search_orderly links.respects_trivial
  have placed := (orderly.numbered node).mp (covers node listed)
  rw [empty] at placed
  exact placed.resolve_left (by simp)

theorem listed_of_mem_classes {node : DeclId} (mem : node ∈ links.classes.flatten) :
    node ∈ links.nodes ∨ ∃ source, node ∈ links.next source :=
  (search_orderly links.respects_trivial).1.listed node (List.mem_append_right _ mem)

/-- What a member of a class points to is in a class that is listed no later. -/
theorem target_placed {index : Nat} {members : List DeclId} {node target : DeclId}
    (found : links.classes[index]? = some members) (mem : node ∈ members)
    (points : target ∈ links.next node) :
    ∃ position others, position ≤ index ∧ links.classes[position]? = some others ∧ target ∈ others := by
  obtain ⟨bound, rfl⟩ := List.getElem?_eq_some_iff.mp found
  have split : links.classes = links.classes.take index ++ links.classes[index] ::
      links.classes.drop (index + 1) := by
    rw [← List.drop_eq_getElem_cons bound, List.take_append_drop]
  rcases (classes_emitted links.respects_trivial).closed _ _ _ split node mem target points with
    inside | before
  · exact ⟨index, _, Nat.le_refl index, found, inside⟩
  · obtain ⟨others, earlier, inside⟩ := List.mem_flatten.mp before
    obtain ⟨position, less, rfl⟩ := List.mem_take_iff_getElem.mp earlier
    exact ⟨position, _, by omega, List.getElem?_eq_getElem (by omega), inside⟩

end Links

end ActorIsolation
