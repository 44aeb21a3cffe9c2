import ActorIsolation.Proofs.LookUp
import ActorIsolation.Proofs.Resolver

/-! Cycles are not met alone. When a declaration is seen to depend on itself, so is everything between it
and the question that came back to it. A declaration that is taken as cyclic has therefore asked about
another one that is, and its rules ask the same again when they are given the answers of the resolution.
-/

set_option autoImplicit false

namespace ActorIsolation

namespace Inquiry

variable {α β : Type} (answers : DeclId → Isolation)

/-- The questions of an inquiry, in order, when every question has one fixed answer. -/
def asked : Inquiry α → List DeclId
  | .done _ => []
  | .ask id next => id :: (next (answers id)).asked
  | .note _ next => (next ()).asked

@[simp] theorem asked_done (value : α) : (Inquiry.done value).asked answers = [] := rfl

@[simp] theorem asked_isolation (id : DeclId) : (Inquiry.isolation id).asked answers = [id] := rfl

@[simp] theorem asked_bind (inquiry : Inquiry α) (next : α → Inquiry β) :
    (inquiry >>= next).asked answers =
      inquiry.asked answers ++ (next (inquiry.against answers)).asked answers := by
  induction inquiry with
  | done value => rfl
  | ask id answered ih => exact congrArg (id :: ·) (ih (answers id))
  | note event noted ih => exact ih ()

end Inquiry

variable {graph : Graph} {options : Options} {settled : IsolationTable} {path : List DeclId}
  {id : DeclId} {state : Solving}

/-! ### Marks -/

theorem stretch_holds {inner outer : List DeclId} {waiting : DeclId} (apart : waiting ∉ inner)
    (reached : waiting ∈ (inner ++ waiting :: outer).takeWhile (· ≠ id) ++ [id]) :
    id :: inner ⊆ (inner ++ waiting :: outer).takeWhile (· ≠ id) ++ [id] := by
  have outside : id ∉ inner := by
    intro inside
    obtain ⟨before, after, rfl, early⟩ := List.eq_append_cons_of_mem inside
    have stops : (before ++ id :: after ++ waiting :: outer).takeWhile (· ≠ id) = before := by
      have different : ∀ other ∈ before, decide (other ≠ id) = true :=
        fun other mem => decide_eq_true fun same => early (same ▸ mem)
      rw [List.append_assoc, List.takeWhile_append_of_pos different]
      simp
    rw [stops] at reached
    exact apart (by simpa using Or.imp_right Or.inl (List.mem_append.mp reached))
  have different : ∀ other ∈ inner, decide (other ≠ id) = true :=
    fun other mem => decide_eq_true fun same => outside (same ▸ mem)
  rw [List.takeWhile_append_of_pos different]
  intro other mem
  rcases List.mem_cons.mp mem with rfl | mem
  · simp
  · simp [mem]

/-- A look-up that marks a declaration which waits for it marks what is looked up, and all that waits in
between. -/
theorem lookUp_marks {inner outer : List DeclId} {waiting : DeclId}
    (within : path = inner ++ waiting :: outer) (apart : waiting ∉ inner)
    (marked : waiting ∈ (lookUp graph options settled path id state).2.cyclic) :
    waiting ∈ state.cyclic ∨
      id :: inner ⊆ (lookUp graph options settled path id state).2.cyclic := by
  induction path, id, state using lookUp.induct graph options settled generalizing inner with
  | case1 path id state isolation known =>
    rw [lookUp_known known] at marked
    exact .inl marked
  | case2 path id state unknown waits =>
    subst within
    rw [lookUp_waiting unknown waits] at marked ⊢
    rcases List.mem_append.mp marked with reached | before
    · exact .inr (List.subset_append_of_subset_left _ (stretch_holds apart reached))
    · exact .inl before
  | case3 path id state unknown free undeclared =>
    rw [lookUp_undeclared unknown free undeclared] at marked
    exact .inl marked
  | case4 path id state unknown free decl found _ _ _ _ _ _ ih =>
    subst within
    have apartToo : waiting ∉ id :: inner := by
      rintro (_ | ⟨_, inside⟩)
      · exact free (by simp)
      · exact apart inside
    -- From the first question on that marks it, everything further in is marked too.
    have consulted := @consult_keeps graph options settled (id :: (inner ++ waiting :: outer)) state _
      (fun middle => waiting ∈ middle.cyclic → waiting ∈ state.cyclic ∨ id :: inner ⊆ middle.cyclic)
      (fun other middle before marked => by
        rcases ih other middle rfl apartToo marked with earlier | all
        · exact (before earlier).imp_right fun all _ mem => lookUp_cyclic (all mem)
        · exact .inr (List.subset_of_cons_subset all))
      (fun _ _ before => before) (decl.ruling graph options) .inl
    rw [lookUp_consults unknown free found] at marked ⊢
    dsimp only at marked ⊢
    obtain ⟨_, -, -, same, -⟩ := (consult graph options settled (id :: (inner ++ waiting :: outer))
      (decl.ruling graph options) state).2.conclude_spec id (consult graph options settled
        (id :: (inner ++ waiting :: outer)) (decl.ruling graph options) state).1
    rw [same] at marked ⊢
    exact consulted marked

theorem lookUp_unanswered (unanswered : (lookUp graph options settled path id state).1 = none) :
    id ∈ (lookUp graph options settled path id state).2.cyclic := by
  cases known : state.known? settled id with
  | some isolation => simp [lookUp_known known] at unanswered
  | none =>
    by_cases waits : id ∈ path
    · rw [lookUp_waiting known waits]
      simp [Solving.markCyclic]
    · cases found : graph.decl? id with
      | none => simp [lookUp_undeclared known waits found] at unanswered
      | some decl => simp [lookUp_consults known waits found] at unanswered

theorem consult_cyclic {α : Type} {cyclic : DeclId} (inquiry : Inquiry α)
    (before : cyclic ∈ state.cyclic) :
    cyclic ∈ (consult graph options settled path inquiry state).2.cyclic :=
  @consult_keeps _ _ _ _ _ _ (fun state => cyclic ∈ state.cyclic) (fun _ _ => lookUp_cyclic)
    (fun _ _ before => before) inquiry before

/-- When an inquiry about a declaration comes to no end, or marks the declaration, it has asked about one
that is marked. -/
theorem consult_marks {α : Type} {inquiry : Inquiry α} {allowed : DeclId → Prop}
    (asks : inquiry.AsksOnly allowed) (declared : ∀ id, allowed id → (graph.decl? id).isSome)
    (regular : id ∉ state.cyclic)
    (cyclic : (consult graph options settled (id :: path) inquiry state).1 = none ∨
      id ∈ (consult graph options settled (id :: path) inquiry state).2.cyclic) :
    ∃ next ∈ (consult graph options settled (id :: path) inquiry state).2.cyclic,
      ∀ answers, (consult graph options settled (id :: path) inquiry state).2.Agrees settled answers →
        next ∈ inquiry.asked answers := by
  induction inquiry generalizing state with
  | done value =>
    rcases cyclic with endless | marked
    · cases endless
    · exact absurd marked regular
  | ask other next ih =>
    unfold consult Inquiry.attempt at cyclic ⊢
    cases reply : lookUp graph options settled (id :: path) other state with
    | mk answer middle =>
      cases answer with
      | none =>
        have marked := @lookUp_unanswered graph options settled (id :: path) other state (by rw [reply])
        rw [reply] at marked
        exact ⟨other, marked, fun _ _ => List.mem_cons_self⟩
      | some isolation =>
        simp only [reply] at cyclic ⊢
        by_cases here : id ∈ middle.cyclic
        · -- It was this question that came back to the declaration.
          have marked := @lookUp_marks graph options settled (id :: path) other state [] path id rfl
            List.not_mem_nil (by rwa [reply])
          rw [reply] at marked
          have first := marked.resolve_left regular List.mem_cons_self
          exact ⟨other, consult_cyclic (next isolation) first, fun _ _ => List.mem_cons_self⟩
        · obtain ⟨later, marked, asked⟩ := ih isolation (asks.2 isolation) here cyclic
          refine ⟨later, marked, fun answers agrees => ?_⟩
          have known := @lookUp_knows graph options settled (id :: path) other state isolation
            (declared other asks.1) (by rw [reply])
          rw [reply] at known
          rw [Inquiry.asked, agrees other isolation (consult_grows (next isolation) known)]
          exact List.mem_cons_of_mem _ (asked answers agrees)
  | note event next ih => exact ih () asks regular cyclic

/-! ### Looking up -/

namespace Solving

/-- What is marked waits or is taken as cyclic, and whatever is taken as cyclic has asked about something
that is marked. -/
structure Spread (graph : Graph) (options : Options) (settled : IsolationTable) (path : List DeclId)
    (state : Solving) : Prop where
  marked : ∀ id ∈ state.cyclic, id ∈ path ∨ state.known? settled id = some (.nonisolated .cycle)
  asked : ∀ entry ∈ state.found, entry.2.origin = .cycle → ∃ decl, graph.decl? entry.1 = some decl ∧
    ∃ next ∈ state.cyclic, ∀ answers, state.Agrees settled answers →
      next ∈ (decl.ruling graph options).asked answers

theorem Agrees.of_conclude {ruling : Option Ruling} {answers : DeclId → Isolation}
    (unknown : state.known? settled id = none)
    (agrees : (state.conclude id ruling).2.Agrees settled answers) : state.Agrees settled answers := by
  intro other isolation known
  refine agrees other isolation ?_
  rwa [conclude_known]
  rintro rfl
  simp [unknown] at known

theorem Spread.conclude {decl : Declaration} {ruling : Option Ruling}
    (spread : state.Spread graph options settled (id :: path))
    (found : graph.decl? id = some decl) (unknown : state.known? settled id = none)
    (regular : ∀ decided, ruling = some decided → decided.isolation.origin ≠ .cycle)
    (asked : ruling = none ∨ id ∈ state.cyclic → ∃ next ∈ state.cyclic, ∀ answers,
      state.Agrees settled answers → next ∈ (decl.ruling graph options).asked answers) :
    (state.conclude id ruling).2.Spread graph options settled path := by
  obtain ⟨isolation, answer, entries, cyclic, outcome⟩ := state.conclude_spec id ruling
  have unsettled := (Option.or_eq_none_iff.mp unknown).1
  constructor
  · intro other mem
    rw [cyclic] at mem
    by_cases here : other = id
    · subst here
      have recovers := (state.conclude_complaints other ruling).2 (.inr mem)
      right
      simp [known?, unsettled, entries, ← answer, recovers]
    · rw [conclude_known here]
      exact (spread.marked other mem).imp_left fun waits => (List.mem_cons.mp waits).resolve_left here
  · rw [entries, cyclic]
    have earlier (answers : DeclId → Isolation) :=
      @Agrees.of_conclude settled id state ruling answers unknown
    refine List.forall_mem_cons.mpr ⟨fun recovered => ⟨decl, found, ?_⟩, fun entry mem recovered => ?_⟩
    · rcases outcome with ⟨-, reason⟩ | ⟨decided, ended, rfl⟩
      · obtain ⟨next, marked, asks⟩ := asked reason
        exact ⟨next, marked, fun answers agrees => asks answers (earlier answers agrees)⟩
      · exact absurd recovered (regular decided ended)
    · obtain ⟨other, named, next, marked, asks⟩ := spread.asked entry mem recovered
      exact ⟨other, named, next, marked, fun answers agrees => asks answers (earlier answers agrees)⟩

end Solving

theorem lookUp_spread (spread : state.Spread graph options settled path) :
    (lookUp graph options settled path id state).2.Spread graph options settled path := by
  refine @lookUp_keepsAlong graph options settled path id state (Solving.Spread graph options settled)
    ?_ ?_ ?_ ?_ spread
  · exact fun path id state spread =>
      ⟨fun other mem => (spread.marked other mem).imp_left (List.mem_cons_of_mem _), spread.asked⟩
  · intro path id state waits spread
    constructor
    · intro other mem
      rcases List.mem_append.mp mem with reached | before
      · refine .inl ?_
        rcases List.mem_append.mp reached with inner | here
        · exact (List.takeWhile_sublist _).subset inner
        · exact List.mem_singleton.mp here ▸ waits
      · exact spread.marked other before
    · intro entry mem recovered
      obtain ⟨decl, found, next, marked, asks⟩ := spread.asked entry mem recovered
      exact ⟨decl, found, next, List.mem_append_right _ marked, asks⟩
  · exact fun path state event spread => ⟨spread.marked, spread.asked⟩
  · intro path id decl state free found unknown start attempted after
    have waits : attempted.2.known? settled id = none := consult_waits _ List.mem_cons_self unknown
    refine after.conclude found waits (fun decided ended => ?_) fun reason => ?_
    · -- The rules themselves never speak of cycles.
      let answers (other : DeclId) : Isolation := (attempted.2.known? settled other).getD .fallback
      have agrees : attempted.2.Agrees settled answers := by
        intro other isolation known
        simp only [answers, known, Option.getD_some]
      rw [← consult_prescribed found ended agrees]
      exact prescribed_origin graph options answers decl
    · have regular : id ∉ state.cyclic := by
        intro marked
        rcases start.marked id marked with waiting | known
        · exact free waiting
        · simp [unknown] at known
      exact consult_marks (ruling_asksOnly graph options decl)
        (fun other => Graph.dependency_declared (Graph.mem_of_decl? found)) regular reason

theorem solution_spread {index : Nat} {component : Component}
    (found : graph.plan.components[index]? = some component) :
    (solution graph options index).Spread graph options
      (tableOf graph options (List.range index).reverse) [] := by
  rw [solution_eq found]
  exact solveComponent_keeps (fun _ _ _ => lookUp_spread)
    (fun state event spread => ⟨spread.marked, spread.asked⟩) ⟨by simp, by simp⟩

/-! ### The resolution of a graph -/

theorem agrees_resolution {index : Nat} (bound : index < graph.plan.size) :
    (solution graph options index).Agrees (tableOf graph options (List.range index).reverse)
      (graph.resolution options).isolation := by
  intro id isolation known
  have all : (tableOf graph options (List.range graph.plan.size)).lookup id = some isolation := by
    rcases Option.or_eq_some_iff.mp known with settled | ⟨-, kept⟩
    · refine lookup_tableOf_mono (fun earlier mem => ?_) settled
      simp only [List.mem_reverse, List.mem_range] at mem ⊢
      omega
    · have member := (solved graph options index id).mp
        (lookup_isSome.mp (Option.isSome_of_eq_some kept))
      rw [lookup_tableOf member, if_pos (List.mem_range.mpr bound), kept]
  rw [Resolution.isolation, get?_resolution, all, Option.getD_some]

/-- A declaration that is taken as cyclic asks about one that is too. -/
theorem cycle_asked {decl : Declaration} (declared : decl ∈ graph.decls)
    (cyclic : ((graph.resolution options).isolation decl.id).origin = .cycle) :
    ∃ next ∈ (decl.ruling graph options).asked (graph.resolution options).isolation,
      (graph.resolution options).isolation next = .nonisolated .cycle := by
  have found := Graph.decl?_of_mem declared
  obtain ⟨index, member⟩ := Graph.exists_member (Option.isSome_of_eq_some found)
  have agrees := @agrees_resolution graph options index (member_bound member)
  obtain ⟨isolation, kept⟩ := Option.isSome_iff_exists.mp
    (lookup_isSome.mpr ((solved graph options index decl.id).mpr member))
  rw [Resolution.isolation, get?_resolution_of_member member, kept] at cyclic
  obtain ⟨component, placed, -⟩ := member
  have spread := @solution_spread graph options index component placed
  obtain ⟨same, named, next, marked, asks⟩ := spread.asked (decl.id, isolation) (mem_of_lookup kept) cyclic
  obtain rfl : decl = same := Option.some.inj (found.symm.trans named)
  refine ⟨next, asks _ agrees, ?_⟩
  rcases spread.marked next marked with waits | known
  · cases waits
  · exact agrees next _ known

end ActorIsolation
