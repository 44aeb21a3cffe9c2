import ActorIsolation.Proofs.Solving

/-! What looking declarations up keeps. A property of the state that every conclusion keeps is kept by
a whole look-up; so are the answers known before, and so is the silence about what waits. The log plays
no part in the outcome, and each issue is about a declaration that has been answered.
-/

set_option autoImplicit false

namespace ActorIsolation

variable {graph : Graph} {options : Options} {settled : IsolationTable} {path : List DeclId}
  {id : DeclId} {state : Solving}

theorem lookUp_undeclared (unknown : state.known? settled id = none) (free : id ∉ path)
    (undeclared : graph.decl? id = none) :
    lookUp graph options settled path id state = (some .fallback, state) := by
  rw [lookUp]
  simp only [unknown, free, dif_neg, not_false_iff]
  split
  · rfl
  · rename_i found
    simp [undeclared] at found

/-- The outcome of an inquiry whose questions are looked up while the declarations of `path` wait. -/
def consult {α : Type} (graph : Graph) (options : Options) (settled : IsolationTable)
    (path : List DeclId) (inquiry : Inquiry α) (state : Solving) : Option α × Solving :=
  inquiry.attempt (fun other state => lookUp graph options settled path other state)
    (fun event state => state.write event) state

theorem lookUp_consults {decl : Declaration} (unknown : state.known? settled id = none)
    (free : id ∉ path) (found : graph.decl? id = some decl) :
    lookUp graph options settled path id state =
      let attempted := consult graph options settled (id :: path) (decl.ruling graph options) state
      (some (attempted.2.conclude id attempted.1).1, (attempted.2.conclude id attempted.1).2) :=
  lookUp_ruled unknown free found

theorem consult_keeps {α : Type} {kept : Solving → Prop}
    (looked : ∀ other state, kept state → kept (lookUp graph options settled path other state).2)
    (written : ∀ state event, kept state → kept (state.write event)) (inquiry : Inquiry α)
    (start : kept state) : kept (consult graph options settled path inquiry state).2 :=
  Inquiry.attempt_keeps looked (fun event state => written state event) inquiry state start

/-- A property of the path and the state is kept by a look-up when entering a declaration, marking,
writing and concluding keep it. -/
theorem lookUp_keepsAlong {kept : List DeclId → Solving → Prop}
    (entered : ∀ path id state, kept path state → kept (id :: path) state)
    (marked : ∀ path id state, id ∈ path → kept path state →
      kept path (state.markCyclic (path.takeWhile (· ≠ id) ++ [id])))
    (written : ∀ path state event, kept path state → kept path (state.write event))
    (concluded : ∀ path id decl state, id ∉ path → graph.decl? id = some decl →
      state.known? settled id = none → kept path state →
      let attempted := consult graph options settled (id :: path) (decl.ruling graph options) state
      kept (id :: path) attempted.2 → kept path (attempted.2.conclude id attempted.1).2)
    (start : kept path state) : kept path (lookUp graph options settled path id state).2 := by
  induction path, id, state using lookUp.induct graph options settled with
  | case1 path id state isolation known =>
    rwa [lookUp_known known]
  | case2 path id state unknown waits =>
    rw [lookUp_waiting unknown waits]
    exact marked path id state waits start
  | case3 path id state unknown free undeclared =>
    rwa [lookUp_undeclared unknown free undeclared]
  | case4 path id state unknown free decl found _ _ _ _ _ _ ih =>
    rw [lookUp_consults unknown free found]
    refine concluded path id decl state free found unknown start ?_
    exact consult_keeps (fun other state => ih other state) (written _) _ (entered path id state start)

theorem lookUp_keeps {kept : Solving → Prop} {outer : List DeclId}
    (marked : ∀ state ids, kept state → kept (state.markCyclic ids))
    (written : ∀ state event, kept state → kept (state.write event))
    (concluded : ∀ path id decl state, outer ⊆ path → id ∉ path → graph.decl? id = some decl →
      state.known? settled id = none → kept state →
      let attempted := consult graph options settled (id :: path) (decl.ruling graph options) state
      kept attempted.2 → kept (attempted.2.conclude id attempted.1).2)
    (waiting : outer ⊆ path) (start : kept state) :
    kept (lookUp graph options settled path id state).2 := by
  refine (@lookUp_keepsAlong graph options settled path id state
    (fun path state => outer ⊆ path ∧ kept state) ?_ ?_ ?_ ?_ ⟨waiting, start⟩).2
  · exact fun path id state holds => ⟨List.subset_cons_of_subset id holds.1, holds.2⟩
  · exact fun path id state _ holds => ⟨holds.1, marked state _ holds.2⟩
  · exact fun path state event holds => ⟨holds.1, written state event holds.2⟩
  · exact fun path id decl state free found unknown holds after =>
      ⟨holds.1, concluded path id decl state holds.1 free found unknown holds.2 after.2⟩

theorem solveComponent_keeps {kept : Solving → Prop} {members : List DeclId} {index : Nat}
    (looked : ∀ member ∈ members, ∀ state, kept state →
      kept (lookUp graph options settled [] member state).2)
    (written : ∀ state event, kept state → kept (state.write event))
    (start : kept { events := [.opened ⟨.resolveComponent, index⟩] }) :
    kept (solveComponent graph options settled index members) := by
  have run : ∀ (rest : List DeclId) (state : Solving), rest ⊆ members → kept state →
      kept (rest.foldl (fun state member => (lookUp graph options settled [] member state).2)
        state) := by
    intro rest
    induction rest with
    | nil => exact fun _ _ holds => holds
    | cons member rest ih =>
      intro state listed holds
      obtain ⟨first, others⟩ := List.cons_subset.mp listed
      exact ih _ others (looked member first state holds)
  exact written _ _ (run members _ (List.Subset.refl _) start)

namespace Solving

theorem conclude_known {ruling : Option Ruling} {other : DeclId} (different : other ≠ id) :
    (state.conclude id ruling).2.known? settled other = state.known? settled other := by
  obtain ⟨isolation, -, found, -⟩ := state.conclude_spec id ruling
  simp [known?, found, List.lookup_cons, beq_false_of_ne different]

/-- What a conclusion complains about: what the ruling found fault with, and a cycle where there is no
ruling or the declaration has been seen to depend on itself. -/
def complaints (state : Solving) (id : DeclId) (ruling : Option Ruling) :
    List ResolutionIssueKind :=
  (ruling.bind (·.complaint)).toList ++ if ruling = none ∨ id ∈ state.cyclic then [.cycle] else []

theorem conclude_complaints (state : Solving) (id : DeclId) (ruling : Option Ruling) :
    (state.conclude id ruling).2.issues =
        state.issues ++ (state.complaints id ruling).map (⟨id, ·⟩) ∧
      ((ruling = none ∨ id ∈ state.cyclic) →
        (state.conclude id ruling).1 = .nonisolated .cycle) := by
  cases ruling with
  | none => exact ⟨rfl, fun _ => rfl⟩
  | some decided =>
    obtain ⟨isolation, complaint⟩ := decided
    cases complaint <;> by_cases cyclic : id ∈ state.cyclic <;>
      simp [conclude, complaints, cyclic, settleCycle, settle, complain, write]

theorem conclude_issues (state : Solving) (id : DeclId) (ruling : Option Ruling) :
    ∃ more, (state.conclude id ruling).2.issues = state.issues ++ more ∧
      (∀ issue ∈ more, issue.decl = id) ∧
      ((ruling = none ∨ id ∈ state.cyclic) →
        (state.conclude id ruling).1 = .nonisolated .cycle ∧ ⟨id, .cycle⟩ ∈ more) := by
  obtain ⟨issues, recovers⟩ := state.conclude_complaints id ruling
  refine ⟨_, issues, by simp, fun cyclic => ⟨recovers cyclic, ?_⟩⟩
  simp [complaints, cyclic]

end Solving

theorem lookUp_grows {known : DeclId} {isolation : Isolation}
    (before : state.known? settled known = some isolation) :
    (lookUp graph options settled path id state).2.known? settled known = some isolation := by
  refine @lookUp_keeps graph options settled path id state
    (fun state => state.known? settled known = some isolation) [] (fun _ _ before => before)
    (fun _ _ before => before) ?_ (List.nil_subset _) before
  intro path id decl state _ _ _ unknown start attempted after
  have different : known ≠ id := by
    rintro rfl
    simp [unknown] at start
  rwa [Solving.conclude_known different]

theorem lookUp_waits {waiting : DeclId} (waits : waiting ∈ path)
    (before : state.known? settled waiting = none) :
    (lookUp graph options settled path id state).2.known? settled waiting = none := by
  refine @lookUp_keeps graph options settled path id state
    (fun state => state.known? settled waiting = none) [waiting] (fun _ _ before => before)
    (fun _ _ before => before) ?_ (by simpa using waits) before
  intro path id decl state outer free _ _ _ attempted after
  have different : waiting ≠ id := by
    rintro rfl
    exact free (outer (by simp))
  rwa [Solving.conclude_known different]

theorem consult_grows {α : Type} {known : DeclId} {isolation : Isolation} (inquiry : Inquiry α)
    (before : state.known? settled known = some isolation) :
    (consult graph options settled path inquiry state).2.known? settled known = some isolation :=
  @consult_keeps _ _ _ _ _ _ (fun state => state.known? settled known = some isolation)
    (fun _ _ => lookUp_grows) (fun _ _ before => before) inquiry before

theorem consult_waits {α : Type} {waiting : DeclId} (inquiry : Inquiry α) (waits : waiting ∈ path)
    (before : state.known? settled waiting = none) :
    (consult graph options settled path inquiry state).2.known? settled waiting = none :=
  @consult_keeps _ _ _ _ _ _ (fun state => state.known? settled waiting = none)
    (fun _ _ => lookUp_waits waits) (fun _ _ before => before) inquiry before

theorem lookUp_cyclic {cyclic : DeclId} (before : cyclic ∈ state.cyclic) :
    cyclic ∈ (lookUp graph options settled path id state).2.cyclic := by
  refine @lookUp_keeps graph options settled path id state (fun state => cyclic ∈ state.cyclic) []
    (fun _ _ before => List.mem_append_right _ before) (fun _ _ before => before) ?_
    (List.nil_subset _) before
  intro path id decl state _ _ _ _ _ attempted after
  obtain ⟨_, -, -, same, -⟩ := attempted.2.conclude_spec id attempted.1
  rwa [same]

/-- An answer about a declaration is known from then on. -/
theorem lookUp_knows {isolation : Isolation} (declared : (graph.decl? id).isSome)
    (answer : (lookUp graph options settled path id state).1 = some isolation) :
    (lookUp graph options settled path id state).2.known? settled id = some isolation := by
  cases known : state.known? settled id with
  | some before =>
    rw [lookUp_known known] at answer ⊢
    rw [known]
    exact answer
  | none =>
    by_cases waiting : id ∈ path
    · simp [lookUp_waiting known waiting] at answer
    · obtain ⟨decl, found⟩ := Option.isSome_iff_exists.mp declared
      have unsettled := (Option.or_eq_none_iff.mp known).1
      rw [lookUp_consults known waiting found] at answer ⊢
      dsimp only at answer ⊢
      revert answer
      generalize consult _ _ _ _ _ state = attempted
      intro answer
      obtain ⟨decided, same, kept, -⟩ := attempted.2.conclude_spec id attempted.1
      simp [Solving.known?, unsettled, kept, ← same, answer]

theorem lookUp_answered {isolation : Isolation} (declared : (graph.decl? id).isSome)
    (answer : (lookUp graph options settled path id state).1 = some isolation) :
    ((lookUp graph options settled path id state).2.known? settled id).isSome :=
  Option.isSome_of_eq_some (lookUp_knows declared answer)

/-- A consultation that ends comes to what its inquiry comes to, under all answers that agree with what
is known then. -/
theorem consult_against {α : Type} {inquiry : Inquiry α} {allowed : DeclId → Prop}
    {answers : DeclId → Isolation} {value : α} (asks : inquiry.AsksOnly allowed)
    (declared : ∀ id, allowed id → (graph.decl? id).isSome)
    (ended : (consult graph options settled path inquiry state).1 = some value)
    (agrees : (consult graph options settled path inquiry state).2.Agrees settled answers) :
    inquiry.against answers = value := by
  induction inquiry generalizing state with
  | done value => exact Option.some.inj ended
  | ask other next ih =>
    unfold consult Inquiry.attempt at ended agrees
    cases reply : lookUp graph options settled path other state with
    | mk answer middle =>
      cases answer with
      | none => simp [reply] at ended
      | some isolation =>
        simp only [reply] at ended agrees
        have known := @lookUp_knows graph options settled path other state isolation
          (declared other asks.1) (by rw [reply])
        rw [reply] at known
        -- The answer given here is still known in the end, so agreeing answers repeat it.
        rw [Inquiry.against, agrees other isolation (consult_grows (next isolation) known)]
        exact ih isolation (asks.2 isolation) ended agrees
  | note event next ih => exact ih () asks ended agrees

theorem consult_prescribed {decl : Declaration} {answers : DeclId → Isolation} {ruling : Ruling}
    (found : graph.decl? id = some decl)
    (ended : (consult graph options settled path (decl.ruling graph options) state).1 = some ruling)
    (agrees : (consult graph options settled path (decl.ruling graph options) state).2.Agrees settled
      answers) : decl.prescribed graph options answers = ruling.isolation := by
  have declared : ∀ other ∈ decl.dependencies, (graph.decl? other).isSome :=
    fun other => Graph.dependency_declared (Graph.mem_of_decl? found)
  rw [← ruling_against, consult_against (ruling_asksOnly graph options decl) declared ended agrees]

/-! ### Issues -/

def Solving.Answers (state : Solving) : Prop :=
  ∀ issue ∈ state.issues, issue.decl ∈ state.found.map (·.1)

theorem lookUp_answers (answers : state.Answers) :
    (lookUp graph options settled path id state).2.Answers := by
  refine @lookUp_keeps graph options settled path id state Solving.Answers []
    (fun _ _ answers => answers) (fun _ _ answers => answers) ?_ (List.nil_subset _) answers
  intro path id decl state _ _ _ _ _ attempted after issue mem
  obtain ⟨more, issues, about, -⟩ := attempted.2.conclude_issues id attempted.1
  obtain ⟨isolation, -, found, -⟩ := attempted.2.conclude_spec id attempted.1
  rw [issues] at mem
  rw [found]
  rcases List.mem_append.mp mem with mem | mem
  · exact List.mem_cons_of_mem _ (after issue mem)
  · simp [about issue mem]

theorem solveComponent_answers (index : Nat) (members : List DeclId) :
    (solveComponent graph options settled index members).Answers :=
  solveComponent_keeps (fun _ _ _ => lookUp_answers) (fun _ _ answers => answers)
    (by simp [Solving.Answers])

/-! ### The log -/

def Solving.after (log : List Event) (state : Solving) : Solving :=
  { state with events := log ++ state.events }

theorem Solving.conclude_after (log : List Event) (ruling : Option Ruling) :
    (state.after log).conclude id ruling =
      ((state.conclude id ruling).1, (state.conclude id ruling).2.after log) := by
  cases ruling with
  | none => simp [conclude, settleCycle, settle, complain, write, after]
  | some decided =>
    obtain ⟨isolation, complaint⟩ := decided
    cases complaint <;> by_cases cyclic : id ∈ state.cyclic <;>
      simp [conclude, cyclic, settleCycle, settle, complain, write, after]

/-- What was written before a look-up plays no part in it. -/
theorem lookUp_after (log : List Event) : lookUp graph options settled path id (state.after log) =
    ((lookUp graph options settled path id state).1,
      (lookUp graph options settled path id state).2.after log) := by
  induction path, id, state using lookUp.induct graph options settled with
  | case1 path id state isolation known =>
    rw [lookUp_known known, lookUp_known (show (state.after log).known? settled id = _ from known)]
  | case2 path id state unknown waiting =>
    rw [lookUp_waiting unknown waiting,
      lookUp_waiting (show (state.after log).known? settled id = _ from unknown) waiting]
    rfl
  | case3 path id state unknown free undeclared =>
    rw [lookUp_undeclared unknown free undeclared,
      lookUp_undeclared (show (state.after log).known? settled id = _ from unknown) free undeclared]
  | case4 path id state unknown free decl found _ _ _ _ _ _ ih =>
    rw [lookUp_ruled unknown free found,
      lookUp_ruled (show (state.after log).known? settled id = _ from unknown) free found,
      Inquiry.attempt_commutes ih (by simp [Solving.write, Solving.after])]
    simp only [Solving.conclude_after]

theorem Solving.conclude_events (state : Solving) (id : DeclId) (ruling : Option Ruling) :
    (state.conclude id ruling).2.events =
      state.events ++ ((state.complaints id ruling).map (remarkOn id)).map .remarked := by
  cases ruling with
  | none => rfl
  | some decided =>
    obtain ⟨isolation, complaint⟩ := decided
    cases complaint <;> by_cases cyclic : id ∈ state.cyclic <;>
      simp [conclude, complaints, cyclic, settleCycle, settle, complain, write]

def Solving.Remarks (log : List Event) (state : Solving) : Prop :=
  ∃ remarks : List Remark, state.events = log ++ remarks.map .remarked

theorem lookUp_remarks {log : List Event} (remarks : state.Remarks log) :
    (lookUp graph options settled path id state).2.Remarks log := by
  induction path, id, state using lookUp.induct graph options settled with
  | case1 path id state isolation known =>
    rwa [lookUp_known known]
  | case2 path id state unknown waiting =>
    rwa [lookUp_waiting unknown waiting]
  | case3 path id state unknown free undeclared =>
    rwa [lookUp_undeclared unknown free undeclared]
  | case4 path id state unknown free decl found _ _ _ _ _ _ ih =>
    rw [lookUp_consults unknown free found]
    -- The rules themselves are mute, so only the look-ups below and the conclusion write.
    have ruled : (consult graph options settled (id :: path) (decl.ruling graph options)
        state).2.Remarks log := (ruling_mute graph options decl).attempt_keeps ih state remarks
    obtain ⟨earlier, same⟩ := ruled
    unfold Solving.Remarks
    rw [Solving.conclude_events, same, List.append_assoc, ← List.map_append]
    exact ⟨_, rfl⟩

theorem solveComponent_events (index : Nat) (members : List DeclId) : ∃ remarks : List Remark,
    (solveComponent graph options settled index members).events =
      .opened ⟨.resolveComponent, index⟩ :: remarks.map .remarked ++
        [.closed ⟨.resolveComponent, index⟩
          (if (solveComponent graph options settled index members).issues.isEmpty then .ok
            else .issues)] := by
  have run : ∀ (rest : List DeclId) (log : List Event) (state : Solving), state.Remarks log →
      (rest.foldl (fun state member => (lookUp graph options settled [] member state).2)
        state).Remarks log := by
    intro rest log
    induction rest with
    | nil => exact fun _ remarks => remarks
    | cons member rest ih => exact fun _ remarks => ih _ (lookUp_remarks remarks)
  obtain ⟨remarks, same⟩ := run members [.opened ⟨.resolveComponent, index⟩]
    { events := [.opened ⟨.resolveComponent, index⟩] } ⟨[], rfl⟩
  exact ⟨remarks, congrArg (· ++ _) same⟩

theorem solveComponent_index (members : List DeclId) (index other : Nat) :
    (solveComponent graph options settled index members).found =
        (solveComponent graph options settled other members).found ∧
      (solveComponent graph options settled index members).issues =
        (solveComponent graph options settled other members).issues := by
  have run : ∀ (rest : List DeclId) (log : List Event) (state : Solving), rest.foldl
      (fun state member => (lookUp graph options settled [] member state).2) (state.after log) =
        (rest.foldl (fun state member => (lookUp graph options settled [] member state).2)
          state).after log := by
    intro rest log
    induction rest with
    | nil => exact fun _ => rfl
    | cons member rest ih =>
      intro state
      simp only [List.foldl_cons, lookUp_after, ih]
  have start (index : Nat) : ({ events := [.opened ⟨.resolveComponent, index⟩] } : Solving) =
      ({} : Solving).after [.opened ⟨.resolveComponent, index⟩] := rfl
  simp only [solveComponent, start, run]
  exact ⟨rfl, rfl⟩

end ActorIsolation
