import ActorIsolation.Proofs.Graph
import Mathlib.Data.List.Perm.Subperm
import Mathlib.Logic.Relation

/-! The way outwards from a declaration, through those that enclose it. The check for a way that does not
end counts its steps; it is shown to be exact: the way does not end just when it leads to a declaration that
is inside itself. So in an accepted graph every way ends at the top level, and a declaration's chain goes on
with its parent's.
-/

set_option autoImplicit false

namespace ActorIsolation

namespace Draft

variable {draft : Draft} {id inner outer start : DeclId} {decl : Declaration}

/-- The first declaration is directly inside the second. -/
def Inside (draft : Draft) (inner outer : DeclId) : Prop :=
  ∃ decl ∈ draft.decls, decl.id = inner ∧ decl.enclosing = some outer

def OnCycle (draft : Draft) (id : DeclId) : Prop := Relation.TransGen draft.Inside id id

def LeadsToCycle (draft : Draft) (id : DeclId) : Prop :=
  ∃ outer, Relation.ReflTransGen draft.Inside id outer ∧ draft.OnCycle outer

/-! ### Cycles -/

theorem inside_of_decl? (found : draft.decl? inner = some decl) (enclosed : decl.enclosing = some outer) :
    draft.Inside inner outer :=
  ⟨decl, List.mem_of_find?_eq_some found, by simpa using List.find?_some found, enclosed⟩

theorem OnCycle.leadsToCycle (cycle : draft.OnCycle id) : draft.LeadsToCycle id := ⟨id, .refl, cycle⟩

theorem OnCycle.inside (cycle : draft.OnCycle id) : ∃ outer, draft.Inside id outer := by
  obtain ⟨outer, step, _⟩ := Relation.TransGen.head'_iff.mp cycle
  exact ⟨outer, step⟩

theorem LeadsToCycle.inside (leads : draft.LeadsToCycle id) : ∃ outer, draft.Inside id outer := by
  obtain ⟨outer, path, cycle⟩ := leads
  cases path using Relation.ReflTransGen.head_induction_on with
  | refl => exact cycle.inside
  | head step _ => exact ⟨_, step⟩

theorem inside_rightUnique (distinct : (draft.decls.map (·.id)).Nodup) :
    Relator.RightUnique draft.Inside := by
  rintro inner first second ⟨decl, declared, rfl, toFirst⟩ ⟨other, declared', same, toSecond⟩
  obtain rfl := List.inj_on_of_nodup_map distinct declared' declared same
  exact Option.some.inj (toFirst.symm.trans toSecond)

theorem OnCycle.reaches (distinct : (draft.decls.map (·.id)).Nodup) (cycle : draft.OnCycle inner)
    (path : Relation.ReflTransGen draft.Inside inner outer) : draft.OnCycle outer := by
  induction path with
  | refl => exact cycle
  | tail _ step ih =>
    obtain ⟨next, first, back⟩ := Relation.TransGen.head'_iff.mp ih
    obtain rfl := inside_rightUnique distinct first step
    exact .tail' back step

/-- A way that reaches the top level meets no cycle. -/
theorem LeadsToCycle.not_top (distinct : (draft.decls.map (·.id)).Nodup) (leads : draft.LeadsToCycle inner)
    (path : Relation.ReflTransGen draft.Inside inner outer) : ∃ next, draft.Inside outer next := by
  obtain ⟨met, way, cycle⟩ := leads
  rcases Relation.ReflTransGen.total_of_right_unique (inside_rightUnique distinct) way path with
    beyond | before
  · exact (cycle.reaches distinct beyond).inside
  · exact LeadsToCycle.inside ⟨met, before, cycle⟩

/-! ### The check for an endless way -/

/-- What holds on the way from `start`: the declarations met so far are different ones, and all of them are
inside the next. -/
structure Follows (draft : Draft) (start : DeclId) (met : List DeclId) (next : Option DeclId) : Prop where
  starts : start ∈ met
  distinct : met.Nodup
  declared : met ⊆ draft.decls.map (·.id)
  leaves : ∀ id, next = some id → ∀ inner ∈ met, Relation.TransGen draft.Inside inner id

namespace Follows

variable {met : List DeclId} {next : Option DeclId}

theorem of_mem (declared : decl ∈ draft.decls) : draft.Follows decl.id [decl.id] decl.enclosing where
  starts := List.mem_singleton_self _
  distinct := List.nodup_singleton _
  declared := List.cons_subset.mpr ⟨List.mem_map_of_mem declared, List.nil_subset _⟩
  leaves id enclosed inner mem := by
    obtain rfl := List.mem_singleton.mp mem
    exact .single ⟨decl, declared, rfl, enclosed⟩

theorem length_le (follows : draft.Follows start met next) : met.length ≤ draft.decls.length := by
  simpa using (follows.distinct.subperm follows.declared).length_le

theorem leadsToCycle (follows : draft.Follows start met (some id)) (again : id ∈ met) :
    draft.LeadsToCycle start :=
  ⟨id, (follows.leaves id rfl start follows.starts).to_reflTransGen, follows.leaves id rfl id again⟩

theorem step (follows : draft.Follows start met (some id)) (fresh : id ∉ met)
    (found : draft.decl? id = some decl) : draft.Follows start (id :: met) decl.enclosing where
  starts := List.mem_cons_of_mem _ follows.starts
  distinct := List.nodup_cons.mpr ⟨fresh, follows.distinct⟩
  declared := by
    refine List.cons_subset.mpr ⟨List.mem_map.mpr ⟨decl, List.mem_of_find?_eq_some found, ?_⟩,
      follows.declared⟩
    simpa using List.find?_some found
  leaves outer enclosed inner mem := by
    have last := inside_of_decl? found enclosed
    rcases List.mem_cons.mp mem with rfl | before
    · exact .single last
    · exact .tail (follows.leaves id rfl inner before) last

end Follows

/-- A way that leads to no cycle is not taken for an endless one. -/
theorem leadsToCycle_of_wanders {met : List DeclId} {next : Option DeclId} {steps : Nat}
    (follows : draft.Follows start met next) (counted : met.length = steps + 1)
    (endless : draft.wanders start steps next) : draft.LeadsToCycle start := by
  induction steps, next using wanders.induct draft start generalizing met with
  | case1 steps => simp [wanders] at endless
  | case2 steps id exits =>
    rcases exits with back | many
    · exact follows.leadsToCycle (back ▸ follows.starts)
    · have := follows.length_le
      omega
  | case3 steps id goesOn ih =>
    rw [wanders, if_neg goesOn] at endless
    by_cases again : id ∈ met
    · exact follows.leadsToCycle again
    · cases found : draft.decl? id with
      | none => simp [found, wanders] at endless
      | some outer =>
        rw [found, Option.bind_some] at endless ih
        exact ih (follows.step again found) (by simp [counted]) endless

/-- A way that leads to a cycle goes on until the check gives up on it. -/
theorem wanders_of_leadsToCycle (distinct : (draft.decls.map (·.id)).Nodup)
    (leads : draft.LeadsToCycle start) {steps : Nat} {next : Option DeclId} (declared : decl ∈ draft.decls)
    (reached : Relation.ReflTransGen draft.Inside start decl.id) (enclosed : decl.enclosing = next) :
    draft.wanders start steps next := by
  induction steps, next using wanders.induct draft start generalizing decl with
  | case1 steps =>
    obtain ⟨outer, other, declared', same, goesOn⟩ := leads.not_top distinct reached
    obtain rfl := List.inj_on_of_nodup_map distinct declared' declared same
    rw [enclosed] at goesOn
    cases goesOn
  | case2 steps id exits => rw [wanders, if_pos exits]
  | case3 steps id goesOn ih =>
    rw [wanders, if_neg goesOn]
    have further : Relation.ReflTransGen draft.Inside start id :=
      reached.tail ⟨decl, declared, rfl, enclosed⟩
    -- What is reached leads on, so it is declared.
    obtain ⟨_, other, known, same, _⟩ := leads.not_top distinct further
    cases found : draft.decl? id with
    | none =>
      have absent := List.find?_eq_none.mp found other known
      simp [same] at absent
    | some outer =>
      rw [found, Option.bind_some] at ih
      obtain rfl : outer.id = id := by simpa using List.find?_some found
      exact ih (List.mem_of_find?_eq_some found) further rfl

theorem leadsToCycle_of_isEndless (declared : decl ∈ draft.decls) (endless : draft.isEndless decl) :
    draft.LeadsToCycle decl.id :=
  leadsToCycle_of_wanders (.of_mem declared) rfl endless

/-- The check for an endless way is exact once every id is of one declaration. -/
theorem isEndless_iff (distinct : (draft.decls.map (·.id)).Nodup) (declared : decl ∈ draft.decls) :
    draft.isEndless decl ↔ draft.LeadsToCycle decl.id :=
  ⟨leadsToCycle_of_isEndless declared, fun leads => wanders_of_leadsToCycle distinct leads declared .refl rfl⟩

/-! ### The declarations met on the way -/

section Outward

variable {decls larger : List Declaration} {other : DeclId} {last : Declaration}

theorem find?_others : (others decls id).find? (·.id = other) =
    if other = id then none else decls.find? (·.id = other) := by
  rw [others, List.find?_filter]
  split
  · rename_i same
    subst same
    rw [List.find?_eq_none]
    intro decl _
    simp
  · rename_i different
    congr 1
    funext decl
    by_cases here : decl.id = other
    · simp [here, different]
    · simp [here]

theorem outward_eq_nil (absent : decls.find? (·.id = id) = none) : outward decls id = [] := by
  rw [outward]
  split
  · rfl
  · rename_i found
    rw [absent] at found
    cases found

theorem outward_eq_cons (found : decls.find? (·.id = id) = some decl) :
    outward decls id = decl :: decl.enclosing.elim [] (outward (others decls id)) := by
  rw [outward]
  split
  · rename_i absent
    rw [found] at absent
    cases absent
  · rename_i present
    rw [found] at present
    cases present
    cases decl.enclosing <;> rfl

theorem find?_of_outward_eq_nil (empty : outward decls id = []) :
    decls.find? (·.id = id) = none := by
  cases found : decls.find? (·.id = id) with
  | none => rfl
  | some decl =>
    rw [outward_eq_cons found] at empty
    cases empty

theorem outward_subset (decls : List Declaration) (id : DeclId) : outward decls id ⊆ decls := by
  induction decls, id using outward.induct with
  | case1 decls id absent =>
    rw [outward_eq_nil absent]
    exact List.nil_subset _
  | case2 decls id decl found ih =>
    rw [outward_eq_cons found]
    refine List.cons_subset.mpr ⟨List.mem_of_find?_eq_some found, ?_⟩
    cases decl.enclosing with
    | none => exact List.nil_subset _
    | some parent => exact fun _ mem => (List.mem_filter.mp (ih parent mem)).1

/-- The way outwards ends at the top level, or before a parent that is missing or has been met. -/
theorem outward_last (decls : List Declaration) (id : DeclId)
    (ends : (outward decls id).getLast? = some last) {parent : DeclId}
    (inside : last.enclosing = some parent) :
    decls.find? (·.id = parent) = none ∨ parent ∈ (outward decls id).map (·.id) := by
  induction decls, id using outward.induct with
  | case1 decls id absent => simp [outward_eq_nil absent] at ends
  | case2 decls id decl found ih =>
    have same : decl.id = id := by simpa using List.find?_some found
    -- A parent that the rest of the way misses is missing altogether, or is where it set out.
    have missing : (others decls id).find? (·.id = parent) = none →
        decls.find? (·.id = parent) = none ∨ parent = id := by
      rw [find?_others]
      split
      · rename_i back
        exact fun _ => .inr back
      · exact .inl
    rw [outward_eq_cons found] at ends ⊢
    rw [List.map_cons, List.mem_cons, same]
    cases enclosed : decl.enclosing with
    | none =>
      obtain rfl : decl = last := by simpa [enclosed] using ends
      rw [enclosed] at inside
      cases inside
    | some next =>
      rw [enclosed, Option.elim_some] at ends
      rw [Option.elim_some]
      cases rest : outward (others decls id) next with
      | nil =>
        obtain rfl : decl = last := by simpa [rest] using ends
        obtain rfl : next = parent := Option.some.inj (enclosed.symm.trans inside)
        rcases missing (find?_of_outward_eq_nil rest) with absent | back
        · exact .inl absent
        · exact .inr (.inl back)
      | cons first further =>
        rw [rest, List.getLast?_cons_cons, ← rest] at ends
        rw [← rest]
        rcases ih next ends with absent | met
        · rcases missing absent with absent | back
          · exact .inl absent
          · exact .inr (.inl back)
        · exact .inr (.inr met)

/-- A way that reaches the top level is the same among more declarations. -/
theorem outward_extend (decls : List Declaration) (id : DeclId)
    (agree : ∀ id decl, decls.find? (·.id = id) = some decl →
      larger.find? (·.id = id) = some decl)
    (nonempty : outward decls id ≠ [])
    (top : ∀ last, (outward decls id).getLast? = some last → last.enclosing = none) :
    outward larger id = outward decls id := by
  induction decls, id using outward.induct generalizing larger with
  | case1 decls id absent => exact absurd (outward_eq_nil absent) nonempty
  | case2 decls id decl found ih =>
    rw [outward_eq_cons found] at top ⊢
    rw [outward_eq_cons (agree id decl found)]
    cases enclosed : decl.enclosing with
    | none => rfl
    | some parent =>
      rw [enclosed, Option.elim_some] at top
      rw [Option.elim_some, Option.elim_some]
      have further : outward (others decls id) parent ≠ [] := by
        intro empty
        have ends := top decl (by simp [empty])
        simp [enclosed] at ends
      have agreeOthers : ∀ other decl, (others decls id).find? (·.id = other) = some decl →
          (others larger id).find? (·.id = other) = some decl := by
        intro other decl
        rw [find?_others, find?_others]
        split
        · intro absent
          cases absent
        · exact agree other decl
      have tail : ∀ last, (outward (others decls id) parent).getLast? = some last →
          last.enclosing = none := by
        intro last ends
        apply top
        rw [List.getLast?_cons, ends]
        rfl
      rw [ih parent agreeOthers further tail]

theorem outward_reaches {inside : DeclId → DeclId → Prop} (decls : List Declaration) (id : DeclId)
    (steps : ∀ decl ∈ decls, ∀ parent, decl.enclosing = some parent → inside decl.id parent) :
    ∀ outer ∈ outward decls id, Relation.ReflTransGen inside id outer.id := by
  induction decls, id using outward.induct with
  | case1 decls id absent => simp [outward_eq_nil absent]
  | case2 decls id decl found ih =>
    have same : decl.id = id := by simpa using List.find?_some found
    intro outer met
    rw [outward_eq_cons found] at met
    rcases List.mem_cons.mp met with rfl | further
    · rw [same]
    · cases enclosed : decl.enclosing with
      | none => simp [enclosed] at further
      | some parent =>
        rw [enclosed, Option.elim_some] at further
        have step := steps decl (List.mem_of_find?_eq_some found) parent enclosed
        rw [same] at step
        refine .head step (ih parent (fun other mem => ?_) outer further)
        exact steps other (List.mem_filter.mp mem).1

theorem outward_reaches_last {inside : DeclId → DeclId → Prop} (decls : List Declaration) (id : DeclId)
    (steps : ∀ decl ∈ decls, ∀ parent, decl.enclosing = some parent → inside decl.id parent)
    {last : Declaration} (ends : (outward decls id).getLast? = some last) :
    ∀ outer ∈ outward decls id, Relation.ReflTransGen inside outer.id last.id := by
  induction decls, id using outward.induct with
  | case1 decls id absent => simp [outward_eq_nil absent]
  | case2 decls id decl found ih =>
    have same : decl.id = id := by simpa using List.find?_some found
    have reached := outward_reaches decls id steps last (List.mem_of_getLast? ends)
    intro outer met
    rw [outward_eq_cons found] at met ends
    rcases List.mem_cons.mp met with rfl | further
    · rw [same]
      exact reached
    · cases enclosed : decl.enclosing with
      | none => simp [enclosed] at further
      | some parent =>
        rw [enclosed, Option.elim_some] at further ends
        have tail : (outward (others decls id) parent).getLast? = some last := by
          rw [List.getLast?_cons] at ends
          cases rest : (outward (others decls id) parent).getLast? with
          | none => simp [List.getLast?_eq_none_iff.mp rest] at further
          | some final => simpa [rest] using ends
        exact ih parent (fun other mem => steps other (List.mem_filter.mp mem).1) tail outer further

end Outward

end Draft

namespace Graph

variable {graph : Graph} {id : DeclId} {decl : Declaration}

theorem not_isEndless (declared : decl ∈ graph.decls) : ¬ graph.isEndless decl := by
  have sound := graph.sound
  simp only [Draft.referenceDefects, List.append_eq_nil_iff, List.map_eq_nil_iff,
    List.filter_eq_nil_iff] at sound
  exact sound.1.1.2 decl declared

theorem not_onCycle : ¬ graph.OnCycle id := by
  intro cycle
  obtain ⟨_, decl, declared, rfl, _⟩ := cycle.inside
  exact not_isEndless declared ((Draft.isEndless_iff graph.ids_nodup declared).mpr cycle.leadsToCycle)

/-- In an accepted graph every chain ends at the top level. -/
theorem chain_ends {last : Declaration} (ends : (graph.chain id).getLast? = some last) :
    last.enclosing = none := by
  cases enclosed : last.enclosing with
  | none => rfl
  | some parent =>
    have known : last ∈ graph.decls :=
      Draft.outward_subset graph.decls id (List.mem_of_getLast? ends)
    have declared := dependency_declared known (Declaration.mem_dependencies.mpr (.inl enclosed))
    rcases Draft.outward_last graph.decls id ends enclosed with absent | met
    · rw [Draft.decl?, absent] at declared
      cases declared
    · -- The way would come back to a declaration it has met, which would be inside itself.
      obtain ⟨outer, among, rfl⟩ := List.mem_map.mp met
      have back : graph.Inside last.id outer.id := ⟨last, known, rfl, enclosed⟩
      have path : Relation.ReflTransGen graph.Inside outer.id last.id :=
        Draft.outward_reaches_last graph.decls id
          (fun decl declared parent enclosed => ⟨decl, declared, rfl, enclosed⟩) ends outer among
      exact absurd (.tail' path back) not_onCycle

/-- A declaration's chain goes on with its parent's. -/
theorem chain_eq_cons (found : graph.decl? id = some decl) :
    graph.chain id = decl :: decl.enclosing.elim [] graph.chain := by
  have unfolded : graph.chain id =
      decl :: decl.enclosing.elim [] (Draft.outward (Draft.others graph.decls id)) :=
    Draft.outward_eq_cons found
  have ends {last : Declaration} := @chain_ends graph id last
  rw [unfolded] at ends ⊢
  cases inside : decl.enclosing with
  | none => rfl
  | some parent =>
    rw [inside, Option.elim_some] at ends
    rw [Option.elim_some, Option.elim_some]
    have nonempty : Draft.outward (Draft.others graph.decls id) parent ≠ [] := by
      intro empty
      have top := @ends decl (by simp [empty])
      simp [inside] at top
    have top : ∀ last, (Draft.outward (Draft.others graph.decls id) parent).getLast? = some last →
        last.enclosing = none := by
      intro last tail
      apply ends
      rw [List.getLast?_cons, tail]
      rfl
    have agree : ∀ other decl, (Draft.others graph.decls id).find? (·.id = other) = some decl →
        graph.decls.find? (·.id = other) = some decl := by
      intro other decl
      rw [Draft.find?_others]
      split
      · intro absent
        cases absent
      · exact fun known => known
    rw [Draft.chain, Draft.outward_extend _ _ agree nonempty top]

theorem chain_eq_nil (absent : graph.decl? id = none) : graph.chain id = [] :=
  Draft.outward_eq_nil absent

end Graph

end ActorIsolation
