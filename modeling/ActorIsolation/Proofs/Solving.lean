import ActorIsolation.Isolation.Component
import ActorIsolation.Proofs.Rules
import Mathlib.Logic.Relation

/-! Solving one component. Whatever order the declarations are looked up in and however they hang
together, each answer that is kept is what the rules prescribe, given all the answers kept at the end,
or else belongs to a declaration that depends on itself. What is settled outside the region that the
component can ask about plays no part.
-/

set_option autoImplicit false

namespace ActorIsolation

namespace Graph

variable (graph : Graph)

/-- The isolation of the second declaration may decide that of the first. -/
def Depends (id next : DeclId) : Prop :=
  ∃ decl, graph.decl? id = some decl ∧ next ∈ decl.dependencies

def Entangled (id : DeclId) : Prop := Relation.TransGen graph.Depends id id

end Graph

/-- Declarations whose dependencies, unless they are settled, are among them. -/
structure Region (graph : Graph) (settled : IsolationTable) where
  Holds : DeclId → Prop
  declared : ∀ id, Holds id → (graph.decl? id).isSome
  closed : ∀ id next, Holds id → settled.lookup id = none → graph.Depends id next → Holds next

/-- Of the ids of a kind, another graph declares the same ones, and its rules treat them the same way,
under options that may differ as well. -/
def Alike (graph other : Graph) (options changed : Options) (Holds : DeclId → Prop) : Prop :=
  ∀ id, Holds id →
    (other.decl? id).map (·.ruling other changed) = (graph.decl? id).map (·.ruling graph options)

theorem Alike.refl {graph : Graph} {options : Options} {Holds : DeclId → Prop} :
    Alike graph graph options options Holds :=
  fun _ _ => rfl

namespace Solving

/-- What a conclusion leaves: one more answer, which is that of the ruling, or says that the
declaration depends on itself where there is no ruling or it has been seen to. -/
theorem conclude_spec (state : Solving) (id : DeclId) (ruling : Option Ruling) :
    ∃ isolation, (state.conclude id ruling).1 = isolation ∧
      (state.conclude id ruling).2.found = (id, isolation) :: state.found ∧
      (state.conclude id ruling).2.cyclic = state.cyclic ∧
      (isolation = .nonisolated .cycle ∧ (ruling = none ∨ id ∈ state.cyclic) ∨
        ∃ decided, ruling = some decided ∧ decided.isolation = isolation) := by
  cases ruling with
  | none => exact ⟨.nonisolated .cycle, rfl, rfl, rfl, .inl ⟨rfl, .inl rfl⟩⟩
  | some decided =>
    unfold conclude
    dsimp only
    split <;> split
    all_goals
      rename_i cyclic
      first
      | exact ⟨.nonisolated .cycle, rfl, rfl, rfl, .inl ⟨rfl, .inr cyclic⟩⟩
      | exact ⟨decided.isolation, rfl, rfl, rfl, .inr ⟨decided, rfl, rfl⟩⟩

section

variable {graph : Graph} (options : Options) {settled : IsolationTable} (region : Region graph settled)
  (state : Solving)

def Agrees (settled : IsolationTable) (answers : DeclId → Isolation) : Prop :=
  ∀ id isolation, state.known? settled id = some isolation → answers id = isolation

/-- What is kept of a declaration says that it depends on itself, which it does, or is prescribed by
the rules under whatever answers agree with what is known. -/
def Justified (graph : Graph) (settled : IsolationTable) (id : DeclId) (isolation : Isolation) :
    Prop :=
  isolation = .nonisolated .cycle ∧ graph.Entangled id ∨
    ∃ decl, graph.decl? id = some decl ∧ ∀ answers, state.Agrees settled answers →
      decl.prescribed graph options answers = isolation

structure Sound : Prop where
  distinct : (state.found.map (·.1)).Nodup
  fresh : ∀ id ∈ state.found.map (·.1), region.Holds id ∧ settled.lookup id = none
  justified : ∀ entry ∈ state.found, state.Justified options graph settled entry.1 entry.2
  cyclic : ∀ id ∈ state.cyclic, graph.Entangled id

/-- What solving does to the state while some declarations wait: nothing known is given up, and what
waits stays unknown. -/
structure Advances (path : List DeclId) (final : Solving) : Prop where
  sound : final.Sound options region
  grows : ∀ id isolation, state.known? settled id = some isolation →
    final.known? settled id = some isolation
  waits : ∀ id ∈ path, state.known? settled id = none → final.known? settled id = none

def Answered (settled : IsolationTable) (path : List DeclId) (id : DeclId) :
    Option Isolation → Prop
  | some isolation => state.known? settled id = some isolation
  | none => id ∈ path

def Met (path dependencies : List DeclId) (id : DeclId) (reply : Option Isolation)
    (final : Solving) : Prop :=
  id ∈ dependencies ∧ (state.Sound options region →
    state.Advances options region path final ∧ final.Answered settled path id reply)

end

section

variable {graph : Graph} {options : Options} {settled : IsolationTable} {region : Region graph settled}
  {state middle final : Solving} {path : List DeclId}

theorem Justified.mono {id : DeclId} {isolation : Isolation}
    (justified : state.Justified options graph settled id isolation)
    (grows : ∀ id isolation, state.known? settled id = some isolation →
      final.known? settled id = some isolation) :
    final.Justified options graph settled id isolation := by
  rcases justified with cyclic | ⟨decl, found, prescribed⟩
  · exact .inl cyclic
  · refine .inr ⟨decl, found, fun answers agrees => prescribed answers ?_⟩
    intro other known before
    exact agrees other known (grows other known before)

theorem Sound.advances (sound : state.Sound options region) :
    state.Advances options region path state :=
  ⟨sound, fun _ _ known => known, fun _ _ unknown => unknown⟩

theorem Advances.trans (first : state.Advances options region path middle)
    (second : middle.Advances options region path final) :
    state.Advances options region path final where
  sound := second.sound
  grows id isolation known := second.grows id isolation (first.grows id isolation known)
  waits id mem unknown := second.waits id mem (first.waits id mem unknown)

theorem Advances.narrow {id : DeclId} (advances : state.Advances options region (id :: path) final) :
    state.Advances options region path final where
  sound := advances.sound
  grows := advances.grows
  waits other mem := advances.waits other (List.mem_cons_of_mem _ mem)

theorem Sound.write (sound : state.Sound options region) (event : Event) :
    (state.write event).Sound options region :=
  ⟨sound.distinct, sound.fresh, sound.justified, sound.cyclic⟩

theorem Sound.markCyclic {ids : List DeclId} (sound : state.Sound options region)
    (entangled : ∀ id ∈ ids, graph.Entangled id) :
    state.Advances options region path (state.markCyclic ids) := by
  refine ⟨⟨sound.distinct, sound.fresh, sound.justified, ?_⟩, fun _ _ known => known,
    fun _ _ unknown => unknown⟩
  intro id mem
  rcases List.mem_append.mp mem with mem | mem
  · exact entangled id mem
  · exact sound.cyclic id mem

theorem Sound.settle {id : DeclId} {isolation : Isolation} (sound : state.Sound options region)
    (inside : region.Holds id) (unknown : state.known? settled id = none) (waiting : id ∉ path)
    (justified : state.Justified options graph settled id isolation)
    (found : final.found = (id, isolation) :: state.found) (cyclic : final.cyclic = state.cyclic) :
    state.Advances options region path final ∧ final.known? settled id = some isolation := by
  obtain ⟨unsettled, unfound⟩ := Option.or_eq_none_iff.mp unknown
  have absent : id ∉ state.found.map (·.1) := by
    rw [← lookup_isSome, unfound]
    simp
  -- The new entry hides nothing, since there was none for `id`.
  have elsewhere : ∀ other, other ≠ id →
      final.known? settled other = state.known? settled other := by
    intro other different
    simp [known?, found, List.lookup_cons, beq_false_of_ne different]
  have grows : ∀ other known, state.known? settled other = some known →
      final.known? settled other = some known := by
    intro other known before
    have different : other ≠ id := by
      rintro rfl
      simp [unknown] at before
    rwa [elsewhere other different]
  refine ⟨⟨⟨?_, ?_, ?_, ?_⟩, grows, ?_⟩, ?_⟩
  · rw [found]
    exact List.nodup_cons.mpr ⟨absent, sound.distinct⟩
  · rw [found]
    exact List.forall_mem_cons.mpr ⟨⟨inside, unsettled⟩, sound.fresh⟩
  · rw [found]
    exact List.forall_mem_cons.mpr ⟨justified.mono grows,
      fun entry mem => (sound.justified entry mem).mono grows⟩
  · rw [cyclic]
    exact sound.cyclic
  · intro other mem before
    have different : other ≠ id := by
      rintro rfl
      exact waiting mem
    rwa [elsewhere other different]
  · simp [known?, unsettled, found]

theorem attempt_advances {dependencies : List DeclId} {α : Type} {inquiry : Inquiry α}
    {result : Option α}
    (trail : Inquiry.Trail (fun event state => state.write event)
      (fun id state => state.Met options region path dependencies id) inquiry state result final)
    (sound : state.Sound options region) :
    state.Advances options region path final ∧
      (result = none → ∃ other ∈ dependencies, other ∈ path) ∧
      ∀ value, result = some value → ∀ answers, final.Agrees settled answers →
        inquiry.against answers = value := by
  induction trail with
  | done value state =>
    refine ⟨sound.advances, by simp, ?_⟩
    intro _ same _ _
    exact Option.some.inj same
  | answered met rest ih =>
    obtain ⟨-, spec⟩ := met
    obtain ⟨first, known⟩ := spec sound
    obtain ⟨second, refused, valued⟩ := ih first.sound
    refine ⟨first.trans second, refused, ?_⟩
    intro value same answers agrees
    -- The answer given here is still known in the end, so agreeing answers repeat it.
    rw [Inquiry.against, agrees _ _ (second.grows _ _ known)]
    exact valued value same answers agrees
  | unanswered met =>
    obtain ⟨dependency, spec⟩ := met
    obtain ⟨advances, waiting⟩ := spec sound
    exact ⟨advances, fun _ => ⟨_, dependency, waiting⟩, by simp⟩
  | @noted event next state final result rest ih =>
    obtain ⟨advances, refused, valued⟩ := ih (sound.write event)
    exact ⟨⟨advances.sound, advances.grows, advances.waits⟩, refused, valued⟩

end

end Solving

/-! ### Looking a declaration up -/

section

variable {graph : Graph} {options : Options} {settled : IsolationTable} {path : List DeclId}
  {id : DeclId} {state : Solving}

theorem lookUp_known {isolation : Isolation} (known : state.known? settled id = some isolation) :
    lookUp graph options settled path id state = (some isolation, state) := by
  rw [lookUp]
  simp [known]

theorem lookUp_waiting (unknown : state.known? settled id = none) (waiting : id ∈ path) :
    lookUp graph options settled path id state =
      (none, state.markCyclic (path.takeWhile (· ≠ id) ++ [id])) := by
  rw [lookUp]
  simp [unknown, waiting]

theorem lookUp_ruled {decl : Declaration} (unknown : state.known? settled id = none)
    (free : id ∉ path) (found : graph.decl? id = some decl) :
    lookUp graph options settled path id state =
      let attempted := (decl.ruling graph options).attempt
        (fun other state => lookUp graph options settled (id :: path) other state)
        (fun event state => state.write event) state
      (some (attempted.2.conclude id attempted.1).1, (attempted.2.conclude id attempted.1).2) := by
  rw [lookUp]
  simp only [unknown, free, dif_neg, not_false_iff]
  split
  · rename_i none
    simp [found] at none
  · rename_i other same
    rw [found] at same
    cases same
    rfl

/-- Innermost first, each declaration of a path is needed for all that wait further out. -/
def Graph.Chain (graph : Graph) (path : List DeclId) : Prop :=
  path.Pairwise fun inner outer => Relation.TransGen graph.Depends outer inner

theorem Graph.Chain.push {next : DeclId} (chain : graph.Chain (id :: path))
    (depends : graph.Depends id next) : graph.Chain (next :: id :: path) := by
  refine List.pairwise_cons.mpr ⟨?_, chain⟩
  intro outer mem
  rcases List.mem_cons.mp mem with rfl | mem
  · exact .single depends
  · exact ((List.pairwise_cons.mp chain).1 outer mem).tail depends

/-- All from the declaration that waits inwards depend on themselves. -/
theorem Graph.Chain.entangled (chain : graph.Chain (id :: path)) (waiting : id ∈ path)
    {inner : DeclId} (mem : inner ∈ path.takeWhile (· ≠ id) ++ [id]) : graph.Entangled inner := by
  obtain ⟨before, after, rfl, early⟩ := List.eq_append_cons_of_mem waiting
  have inward : (before ++ id :: after).takeWhile (· ≠ id) = before := by
    have different : ∀ inner ∈ before, decide (inner ≠ id) = true := by
      intro inner mem
      exact decide_eq_true fun same => early (same ▸ mem)
    rw [List.takeWhile_append_of_pos different]
    simp
  -- `id` is needed for each of them by the chain, and each of them for `id`, further out.
  obtain ⟨outward, chain⟩ := List.pairwise_cons.mp chain
  rw [inward] at mem
  rcases List.mem_append.mp mem with mem | mem
  · have around := (List.pairwise_append.mp chain).2.2 inner mem id (by simp)
    exact (outward inner (by simp [mem])).trans around
  · rw [List.mem_singleton.mp mem]
    exact outward id waiting

variable {region : Region graph settled}

theorem lookUp_advances (chain : graph.Chain (id :: path)) (inside : region.Holds id)
    (sound : state.Sound options region) :
    state.Advances options region path (lookUp graph options settled path id state).2 ∧
      (lookUp graph options settled path id state).2.Answered settled path id
        (lookUp graph options settled path id state).1 := by
  induction path, id, state using lookUp.induct graph options settled with
  | case1 path id state isolation known =>
    rw [lookUp_known known]
    exact ⟨sound.advances, known⟩
  | case2 path id state unknown waiting =>
    rw [lookUp_waiting unknown waiting]
    exact ⟨sound.markCyclic fun inner mem => chain.entangled waiting mem, waiting⟩
  | case3 path id state unknown free undeclared =>
    have declared := region.declared id inside
    simp [undeclared] at declared
  | case4 path id state unknown free decl found _ _ _ _ _ _ ih =>
    rw [lookUp_ruled unknown free found]
    dsimp only
    have unsettled := (Option.or_eq_none_iff.mp unknown).1
    -- Every question of the rules goes to a dependency, one step further in on the chain.
    have met : ∀ other (state : Solving), other ∈ decl.dependencies →
        state.Met options region (id :: path) decl.dependencies other
          (lookUp graph options settled (id :: path) other state).1
          (lookUp graph options settled (id :: path) other state).2 := by
      intro other state dependency
      have depends : graph.Depends id other := ⟨decl, found, dependency⟩
      exact ⟨dependency,
        ih other state (chain.push depends) (region.closed id other inside unsettled depends)⟩
    have trail := @Inquiry.attempt_trail _ _ _ (fun event state => Solving.write state event) _ _ met
      (decl.ruling graph options) (ruling_asksOnly graph options decl) state
    revert trail
    generalize (decl.ruling graph options).attempt _ _ state = attempted
    obtain ⟨ruling, final⟩ := attempted
    intro trail
    obtain ⟨advances, refused, valued⟩ := Solving.attempt_advances trail sound
    obtain ⟨isolation, answer, kept, cyclic, reason⟩ := final.conclude_spec id ruling
    have justified : final.Justified options graph settled id isolation := by
      rcases reason with ⟨same, noRuling | seen⟩ | ⟨decided, same, rfl⟩
      · -- No ruling: some dependency waits, so it needs `id` in turn.
        obtain ⟨other, dependency, waiting⟩ := refused noRuling
        have depends : graph.Depends id other := ⟨decl, found, dependency⟩
        rcases List.mem_cons.mp waiting with rfl | waiting
        · exact .inl ⟨same, .single depends⟩
        · exact .inl ⟨same, .head depends ((List.pairwise_cons.mp chain).1 other waiting)⟩
      · exact .inl ⟨same, advances.sound.cyclic id seen⟩
      · refine .inr ⟨decl, found, fun answers agrees => ?_⟩
        rw [← ruling_against, valued decided same answers agrees]
    -- While `id` waited nobody could settle it, so the answer is new.
    have unknownStill := advances.waits id (by simp) unknown
    obtain ⟨settles, known⟩ :=
      advances.sound.settle inside unknownStill free justified kept cyclic
    rw [answer]
    exact ⟨advances.narrow.trans settles, known⟩

/-- Only what is settled in the region, and what is declared there, plays a part in a look-up. -/
theorem lookUp_congr {other : Graph} {changed : Options} {others : IsolationTable}
    (alike : Alike graph other options changed region.Holds)
    (agree : ∀ id, region.Holds id → settled.lookup id = others.lookup id) (inside : region.Holds id) :
    lookUp graph options settled path id state = lookUp other changed others path id state := by
  have same : ∀ id (state : Solving), region.Holds id →
      state.known? settled id = state.known? others id := by
    intro id state inside
    rw [Solving.known?, Solving.known?, agree id inside]
  induction path, id, state using lookUp.induct graph options settled with
  | case1 path id state isolation known =>
    rw [lookUp_known known, lookUp_known (same id state inside ▸ known)]
  | case2 path id state unknown waiting =>
    rw [lookUp_waiting unknown waiting, lookUp_waiting (same id state inside ▸ unknown) waiting]
  | case3 path id state unknown free undeclared =>
    have declared := region.declared id inside
    simp [undeclared] at declared
  | case4 path id state unknown free decl found _ _ _ _ _ _ ih =>
    have unsettled := (Option.or_eq_none_iff.mp unknown).1
    -- An unsettled declaration asks inside the region only, where both sides agree.
    have agreed : ∀ next state, next ∈ decl.dependencies →
        lookUp graph options settled (id :: path) next state =
          lookUp other changed others (id :: path) next state := by
      intro next state dependency
      exact ih next state (region.closed id next inside unsettled ⟨decl, found, dependency⟩)
    obtain ⟨counterpart, otherFound, ruled⟩ : ∃ counterpart, other.decl? id = some counterpart ∧
        counterpart.ruling other changed = decl.ruling graph options :=
      Option.map_eq_some_iff.mp (by rw [alike id inside, found]; rfl)
    rw [lookUp_ruled unknown free found, lookUp_ruled (same id state inside ▸ unknown) free otherFound,
      (ruling_asksOnly graph options decl).attempt_congr agreed, ruled]

/-! ### Solving a component -/

variable {members : List DeclId}

theorem solveComponent_congr {other : Graph} {changed : Options} {others : IsolationTable}
    (alike : Alike graph other options changed region.Holds)
    (agree : ∀ id, region.Holds id → settled.lookup id = others.lookup id)
    (inside : ∀ member ∈ members, region.Holds member) (index : Nat) :
    solveComponent graph options settled index members =
      solveComponent other changed others index members := by
  have looks := List.foldl_ext
    (fun state member => (lookUp graph options settled [] member state).2)
    (fun state member => (lookUp other changed others [] member state).2)
    { events := [.opened ⟨.resolveComponent, index⟩] }
    (fun state member mem => by rw [lookUp_congr alike agree (inside member mem)])
  simp only [solveComponent, looks]

theorem solveComponent_sound (options : Options) (inside : ∀ member ∈ members, region.Holds member)
    (index : Nat) : (solveComponent graph options settled index members).Sound options region ∧
      ∀ member ∈ members,
        ((solveComponent graph options settled index members).known? settled member).isSome := by
  -- The invariant is soundness. On an empty path nothing waits, so every look-up has an answer.
  have run : ∀ (rest : List DeclId) (state : Solving), (∀ member ∈ rest, region.Holds member) →
      state.Sound options region →
        let final := rest.foldl
          (fun state member => (lookUp graph options settled [] member state).2) state
        state.Advances options region [] final ∧
          ∀ member ∈ rest, (final.known? settled member).isSome := by
    intro rest
    induction rest with
    | nil =>
      intro state _ sound
      exact ⟨sound.advances, by simp⟩
    | cons member rest ih =>
      intro state inside sound
      obtain ⟨within, insideRest⟩ := List.forall_mem_cons.mp inside
      obtain ⟨first, answered⟩ := lookUp_advances (List.pairwise_singleton _ member) within sound
      obtain ⟨second, known⟩ := ih _ insideRest first.sound
      refine ⟨first.trans second, List.forall_mem_cons.mpr ⟨?_, known⟩⟩
      cases reply : (lookUp graph options settled [] member state).1 with
      | none =>
        rw [reply] at answered
        cases answered
      | some isolation =>
        rw [reply] at answered
        rw [List.foldl_cons, second.grows member isolation answered]
        rfl
  have start : Solving.Sound options region { events := [.opened ⟨.resolveComponent, index⟩] } :=
    ⟨.nil, by simp, by simp, by simp⟩
  obtain ⟨advances, known⟩ := run members _ inside start
  exact ⟨advances.sound.write _, known⟩

end

end ActorIsolation
