import ActorIsolation.Proofs.Locality
import ActorIsolation.Proofs.Report

/-! Violations are confined to what they are about. What is found at a call is fixed by the declarations
and by the call itself: neither the other calls of the graph nor the order in which the calls are
examined makes a difference to it, although all of them share a ledger. Sorting at the end keeps the
violations about one call together and leaves them in the order in which they were found.
-/

set_option autoImplicit false

namespace ActorIsolation

open Analysis (Yields)

/-! ### Findings that no ledger changes -/

section

variable {α : Type} {answers : DeclId → Isolation} {kept : Ledger → Prop}

/-- From every ledger with the property `kept`, the analysis comes to the same value. -/
def Analysis.Constant (answers : DeclId → Isolation) (kept : Ledger → Prop) (analysis : Analysis α) :
    Prop :=
  ∃ value, Yields answers kept (· = value) analysis

/-- An analysis without a result may still put records into the log. -/
theorem Analysis.Constant.composable
    (enter : ∀ ledger record, kept ledger → kept (ledger.enter record)) :
    Composable fun _ analysis => Analysis.Constant answers kept analysis where
  pure value := ⟨value, .pure rfl⟩
  bind := by
    rintro _ _ _ _ ⟨value, yields⟩ rest
    obtain ⟨final, yieldsFinal⟩ := rest value
    refine ⟨final, yields.bind fun found same => ?_⟩
    rw [same]
    exact yieldsFinal
  domain id := ⟨_, .domain id⟩
  report event := ⟨(), .imp (.report event) fun _ _ => rfl⟩
  audit record := ⟨(), .imp (.audit enter record) fun _ _ => rfl⟩

end

namespace Boundary

open UseSite Walk

variable {graph : Graph} {options : Options} {answers : DeclId → Isolation}

theorem scan_constant :
    Analysis.Constant answers (Honest graph options answers) (scan graph options) :=
  (Analysis.Constant.composable fun _ record honest => honest.enter record).scan
    fun _ _ type _ => ⟨_, verdict_yields type _⟩

theorem edgeViolations_yields (edge : CallEdge) : Yields answers (Honest graph options answers)
    (· = demanded graph options answers edge (transferred graph edge))
    (edgeViolations graph options edge) := by
  have value (value : ValueRef) : Yields answers (Honest graph options answers)
      (· = demandedFor graph options answers edge value)
      (valueViolations graph options edge (answers edge.caller).domain (answers edge.callee).domain
        value) := by
    refine (verdict_yields _ _).bind fun verdict same => ?_
    rw [demandedFor, leadsToBad_iff, ← same]
    cases verdict with
    | sendable => exact .pure (by simp)
    | notSendable =>
      refine .pure ?_
      rw [if_pos rfl]
      rfl
    | uncheckedSendable =>
      refine (uncheckedAssertions_yields _).bind fun asserted _ => ?_
      exact (KeepsHonest.composable.auditAll _).bind fun _ _ => .pure (by simp)
  refine Yields.tracked _ _ ((Yields.domain _).bind fun source same => ?_)
  refine (Yields.domain _).bind fun target sameTarget => ?_
  subst same
  subst sameTarget
  rw [demanded, Graph.crosses_iff.symm]
  split
  · refine (Yields.forEach_exact value _).bind fun found same => .pure ?_
    rw [same]
    simp only [CallEdge.isAsynchronous, Bool.or_eq_true, decide_eq_true_eq]
    rfl
  · exact .pure rfl

/-! ### The examination in pieces -/

inductive Piece where
  | declarations
  | call (edge : CallEdge)

namespace Piece

def call? : Piece → Option EdgeId
  | .declarations => none
  | .call edge => some edge.id

def examine (graph : Graph) (options : Options) : Piece → Analysis (List Violation)
  | .declarations => scan graph options
  | .call edge => edgeViolations graph options edge

def found (graph : Graph) (options : Options) (answers : DeclId → Isolation) (piece : Piece) :
    List Violation :=
  ((piece.examine graph options).against answers {}).1

end Piece

def violationsInPieces (graph : Graph) (options : Options) (pieces : List Piece) :
    Analysis (List Violation) := do
  let found ← Analysis.forEach (Piece.examine graph options) pieces
  return Violation.sort found

end Boundary

def Violation.call? (violation : Violation) : Option EdgeId :=
  match violation.subject with
  | .decl _ => none
  | .edge id => some id

theorem Rank.delimited_subject : Rank.Delimited (rank : Subject → List Nat) := by
  intro left right rest others same
  cases left <;> cases right <;> simp [rank] at same
  case decl.decl left right => exact ⟨by cases left; cases right; simp_all, same.2⟩
  case edge.edge left right => exact ⟨by cases left; cases right; simp_all, same.2⟩

/-- Violations that sorting does not tell apart are about the same. -/
theorem Violation.call?_of_order {left right : Violation} (same : left.order = right.order) :
    left.call? = right.call? := by
  simp only [order, List.append_assoc] at same
  rw [call?, call?, (Rank.delimited_subject same).1]

def Graph.pieces (graph : Graph) : List Boundary.Piece :=
  .declarations :: graph.edges.map .call

namespace Boundary

open UseSite Walk

variable {graph : Graph} {options : Options} {answers : DeclId → Isolation}

/-- What is found at a piece does not depend on what was asked before. -/
theorem Piece.examine_yields (piece : Piece) : Yields answers (Honest graph options answers)
    (· = piece.found graph options answers) (piece.examine graph options) := by
  have start : Honest graph options answers {} := by simp [Honest]
  have constant : Analysis.Constant answers (Honest graph options answers)
      (piece.examine graph options) := by
    cases piece with
    | declarations => exact scan_constant
    | call edge => exact ⟨_, edgeViolations_yields edge⟩
  obtain ⟨value, yields⟩ := constant
  refine yields.imp fun found same => ?_
  rw [same, Piece.found, (yields {} start).1]

/-- What is found at declarations: what is demanded of shared state, and what no ledger has a part in. -/
theorem found_declarations {contracts defaults : List Violation}
    (contracted : Yields answers (fun _ => True) (· = contracts) (contractViolations graph options))
    (defaulted : Yields answers (fun _ => True) (· = defaults) (defaultViolations graph options)) :
    Piece.found graph options answers .declarations =
      graph.decls.flatMap (demandedAt graph options answers) ++ contracts ++ defaults := by
  have shared : Analysis.Accounts answers (InOrder graph options answers) {} _
      (sharedMutableViolations graph options) :=
    .forEach_exact (fun grows recorded => recorded.mono grows)
      (fun decl declared ledger audited => mutableViolations_accounts declared audited) .empty
  simp only [Piece.found, Piece.examine, scan, Analysis.tracked, Analysis.against_bind,
    Analysis.against_report, Analysis.against_pure]
  rw [shared.result.1, (contracted _ trivial).1, (defaulted _ trivial).1]

theorem found_call (edge : CallEdge) :
    Piece.found graph options answers (.call edge) =
      demanded graph options answers edge (transferred graph edge) :=
  (edgeViolations_yields edge {} (by simp [Walk.Honest])).1

theorem Piece.call?_of_mem_found {piece : Piece} {violation : Violation}
    (mem : violation ∈ piece.found graph options answers) : violation.call? = piece.call? := by
  cases piece with
  | declarations =>
    have accounts := scan_accounts (.empty : InOrder graph options answers {})
    obtain ⟨id, subject⟩ := accounts.result.1 violation mem
    rw [Violation.call?, subject, Piece.call?]
  | call edge =>
    rw [Piece.found, Piece.examine, (edgeViolations_yields edge {} (by simp [Honest])).1] at mem
    rw [Violation.call?, subject_of_demanded mem, Piece.call?]

theorem pieces_distinct (graph : Graph) : (graph.pieces.map Piece.call?).Nodup := by
  refine List.nodup_cons.mpr ⟨by simp [Piece.call?], ?_⟩
  rw [List.map_map]
  refine List.pairwise_map.mpr (graph.edges_ascending.imp fun less same => ?_)
  have same := Option.some.inj same
  rw [same] at less
  exact Nat.lt_irrefl _ less

theorem filter_found {pieces : List Piece} (distinct : (pieces.map Piece.call?).Nodup) {piece : Piece}
    (mem : piece ∈ pieces) :
    (Violation.sort (pieces.flatMap (Piece.found graph options answers))).filter
        (·.call? = piece.call?) =
      Violation.sort (piece.found graph options answers) := by
  rw [Violation.sort, filter_sortOn,
    filter_flatMap distinct (fun _ _ => Piece.call?_of_mem_found) mem]
  rfl

/-- The order in which the pieces are examined does not show. -/
theorem sort_found_perm {pieces others : List Piece} (perm : pieces.Perm others)
    (distinct : (pieces.map Piece.call?).Nodup) :
    Violation.sort (pieces.flatMap (Piece.found graph options answers)) =
      Violation.sort (others.flatMap (Piece.found graph options answers)) := by
  refine sortOn_eq_of_filter (fun _ _ => Violation.call?_of_order) fun about => ?_
  by_cases known : ∃ piece ∈ pieces, piece.call? = about
  · obtain ⟨piece, mem, rfl⟩ := known
    rw [filter_flatMap distinct (fun _ _ => Piece.call?_of_mem_found) mem,
      filter_flatMap ((perm.map _).nodup_iff.mp distinct) (fun _ _ => Piece.call?_of_mem_found)
        (perm.mem_iff.mp mem)]
  · have none {list : List Piece} (unknown : ∀ piece ∈ list, piece.call? ≠ about) :
        (list.flatMap (Piece.found graph options answers)).filter (·.call? = about) = [] := by
      refine List.filter_eq_nil_iff.mpr fun violation mem => ?_
      obtain ⟨piece, listed, mem⟩ := List.mem_flatMap.mp mem
      simpa [Piece.call?_of_mem_found mem] using unknown piece listed
    have unknown : ∀ piece ∈ pieces, piece.call? ≠ about :=
      fun piece mem same => known ⟨piece, mem, same⟩
    rw [none unknown, none fun piece mem => unknown piece (perm.mem_iff.mpr mem)]

theorem violationsInPieces_yields (pieces : List Piece) : Yields answers
    (Honest graph options answers)
    (· = Violation.sort (pieces.flatMap (Piece.found graph options answers)))
    (violationsInPieces graph options pieces) := by
  refine (Yields.forEach_exact Piece.examine_yields pieces).bind fun found same => .pure ?_
  rw [same]

theorem violations_yields : Yields answers (Honest graph options answers)
    (· = Violation.sort (graph.pieces.flatMap (Piece.found graph options answers)))
    (violations graph options) := by
  refine (Piece.examine_yields .declarations).bind fun atDecls sameDecls => ?_
  refine (Yields.forEach_exact (fun edge => Piece.examine_yields (.call edge)) _).bind
    fun atEdges sameEdges => .pure ?_
  rw [sameDecls, sameEdges, Graph.pieces, List.flatMap_cons, List.flatMap_map]

end Boundary

open Boundary Walk in
theorem Pass.violations_eq (graph : Graph) (options : Options) (strategy : Strategy) :
    (Pass.run graph options strategy).violations = Violation.sort (graph.pieces.flatMap
      (Piece.found graph options (graph.resolution options).isolation)) := by
  have found := congrArg Findings.violations (Pass.run_eq graph options strategy).1
  refine found.trans ?_
  have yields : Yields (graph.resolution options).isolation
      (Honest graph options (graph.resolution options).isolation) (·.2 = Violation.sort
        (graph.pieces.flatMap (Piece.found graph options (graph.resolution options).isolation)))
      (examination graph options) := by
    refine Yields.bind (KeepsHonest.composable.conformances fun _ _ _ _ type _ =>
      KeepsHonest.sendability type _) fun issues _ => ?_
    exact violations_yields.bind fun found same => .pure same
  exact (yields {} (by simp [Honest])).1

/-! ### The same declarations with other calls -/

/-- The same declarations with other call edges between them. -/
def Graph.withCalls (graph : Graph) (calls : List CallEdge)
    (ascending : calls.Pairwise fun left right => left.id.number < right.id.number)
    (sound : { graph.toDraft with edges := calls }.referenceDefects = []) : Graph :=
  { graph with edges := calls, edges_ascending := ascending, sound := sound }

theorem Graph.eq_withCalls {graph other : Graph} (decls : other.decls = graph.decls)
    (extensions : other.extensions = graph.extensions) :
    ∃ calls ascending sound, other = graph.withCalls calls ascending sound := by
  obtain ⟨⟨_, _, edges⟩, _, planned, _, _, _, _⟩ := graph
  obtain ⟨⟨_, _, calls⟩, _, plannedToo, _, _, ascending, sound⟩ := other
  cases decls
  cases extensions
  cases planned
  cases plannedToo
  exact ⟨calls, ascending, sound, rfl⟩

section

variable {graph : Graph} {options : Options} {calls : List CallEdge}
  {ascending : calls.Pairwise fun left right => left.id.number < right.id.number}
  {sound : { graph.toDraft with edges := calls }.referenceDefects = []}

open Walk in
theorem declOutcome_withCalls : declOutcome (graph.withCalls calls ascending sound) options =
    declOutcome graph options := by
  have fields : fieldsOutcome (graph.withCalls calls ascending sound) = fieldsOutcome graph := by
    funext visit owner kind fields outcome
    induction fields generalizing outcome with
    | nil => rfl
    | cons field rest ih =>
      unfold fieldsOutcome
      refine bind_congr fun next => ?_
      simp only [ih]
  funext visit decl site
  unfold declOutcome
  rw [fields]
  rfl

open Walk in
theorem evaluate_withCalls (path : List UseSite) (key : UseSite)
    (inside : path ≠ [] → key.site ∈ homes graph options)
    (insideToo : path ≠ [] → key.site ∈ homes (graph.withCalls calls ascending sound) options) :
    evaluate (graph.withCalls calls ascending sound) options path key insideToo =
      evaluate graph options path key inside := by
  -- The walk itself looks at declarations only; by induction on the room left, so does what it visits.
  induction measure : roomFor graph options path using Nat.strongRecOn generalizing path key with
  | ind _ ih =>
    subst measure
    unfold evaluate
    refine bind_congr fun ledger => ?_
    split
    · rfl
    · split
      · rfl
      · rename_i fresh
        split
        · rename_i absent
          split
          · rfl
          · rename_i found
            cases absent.symm.trans found
        · rename_i decl found
          split
          · rename_i absent
            cases absent.symm.trans found
          · rename_i known
            cases known.symm.trans found
            have visits (id : DeclId) := ih _
              (roomFor_cons_lt graph options inside (depthOf?_eq_none fresh) found) (key :: path)
              ⟨id, options.moduleOf decl.id⟩ (fun _ => home_mem graph options found)
              (fun _ => home_mem graph options found) rfl
            rw [declOutcome_withCalls]
            simp only [visits]

theorem sendabilityFrom_withCalls :
    sendabilityFrom (graph.withCalls calls ascending sound) options = sendabilityFrom graph options := by
  funext type site
  have visits (id : DeclId) := @evaluate_withCalls graph options calls ascending sound [] ⟨id, site⟩
    (by simp) (by simp)
  simp only [sendabilityFrom, visits]

open Boundary in
theorem examine_withCalls : Piece.examine (graph.withCalls calls ascending sound) options =
    Piece.examine graph options := by
  funext piece
  cases piece with
  | declarations =>
    have state : sharedStateViolations (graph.withCalls calls ascending sound) options =
        sharedStateViolations graph options := by
      funext decl domain
      unfold sharedStateViolations
      rw [sendabilityFrom_withCalls]
      rfl
    have each : mutableViolations (graph.withCalls calls ascending sound) options =
        mutableViolations graph options := by
      funext decl
      unfold mutableViolations
      rw [state]
      rfl
    unfold Piece.examine scan sharedMutableViolations
    rw [each]
    rfl
  | call edge =>
    have values : valueViolations (graph.withCalls calls ascending sound) options =
        valueViolations graph options := by
      funext edge source target value
      unfold valueViolations
      rw [sendabilityFrom_withCalls]
      rfl
    unfold Piece.examine edgeViolations crossingViolations
    rw [values]
    rfl

theorem isolation_withCalls : ((graph.withCalls calls ascending sound).resolution options).isolation =
    (graph.resolution options).isolation := by
  funext id
  have same : graph.SameClosure (graph.withCalls calls ascending sound) id :=
    ⟨fun _ _ => rfl, fun _ _ _ _ _ _ => rfl⟩
  rw [Resolution.isolation, Resolution.isolation, get?_resolution_congr same]

end

open Boundary in
/-- Two graphs differ in their calls only. Their reports have the same violations about declarations, and
the same ones about each call that both of them have, in the same order. Moreover, whatever an analyzer
was asked before, and in whatever order it examines the declarations and the calls, what it has found
is the report once it is sorted. -/
theorem violations_confined {graph other : Graph} (decls : other.decls = graph.decls)
    (extensions : other.extensions = graph.extensions) (options : Options)
    (strategy another : Strategy) :
    let report := (Pass.run graph options strategy).violations
    let counterpart := (Pass.run other options another).violations
    counterpart.filter (·.call? = none) = report.filter (·.call? = none) ∧
      (∀ edge ∈ graph.edges, edge ∈ other.edges →
        counterpart.filter (·.call? = some edge.id) = report.filter (·.call? = some edge.id)) ∧
      ∀ (history : List AnalyzerCall) (pieces : List Piece), pieces.Perm graph.pieces →
        let session := history.foldl (AnalyzerCall.perform graph options)
          { source := .table (graph.resolution options) }
        (session.run graph options (violationsInPieces graph options pieces)).1 = report := by
  intro report counterpart
  obtain ⟨calls, ascending, sound, rfl⟩ := Graph.eq_withCalls decls extensions
  have found : Piece.found (graph.withCalls calls ascending sound) options
      ((graph.withCalls calls ascending sound).resolution options).isolation =
        Piece.found graph options (graph.resolution options).isolation := by
    funext piece
    rw [Piece.found, Piece.found, examine_withCalls, isolation_withCalls]
  have agree {piece : Piece} (mem : piece ∈ graph.pieces)
      (listed : piece ∈ (graph.withCalls calls ascending sound).pieces) :
      counterpart.filter (·.call? = piece.call?) = report.filter (·.call? = piece.call?) := by
    simp only [report, counterpart, Pass.violations_eq]
    rw [filter_found (pieces_distinct _) listed, filter_found (pieces_distinct graph) mem, found]
  refine ⟨?_, fun edge mem listed => ?_, fun history pieces perm => ?_⟩
  · exact @agree .declarations List.mem_cons_self List.mem_cons_self
  · exact @agree (.call edge) (List.mem_cons_of_mem _ (List.mem_map.mpr ⟨edge, mem, rfl⟩))
      (List.mem_cons_of_mem _ (List.mem_map.mpr ⟨edge, listed, rfl⟩))
  · obtain ⟨table, honest⟩ := Session.honest_after graph options (graph.resolution options) history
      { source := .table (graph.resolution options) } rfl (by simp [Walk.Honest])
    have run := (Session.run_table graph options (graph.resolution options)
      (violationsInPieces graph options pieces) _ table).1
    refine run.trans ((violationsInPieces_yields pieces _ honest).1.trans ?_)
    rw [sort_found_perm perm ((perm.map _).nodup_iff.mpr (pieces_distinct graph))]
    exact (Pass.violations_eq graph options strategy).symm

/-- One more call: what the entry point hands over comes back. -/
def busyCache : Graph :=
  vouchedCache.withCalls
    [{ id := ⟨0⟩, caller := ⟨5⟩, callee := ⟨6⟩,
       arguments := [⟨"entry", .nominal ⟨2⟩⟩, ⟨"done", .function false⟩] },
      { id := ⟨1⟩, caller := ⟨6⟩, callee := ⟨5⟩, arguments := [⟨"entry", .nominal ⟨2⟩⟩] }]
    (by decide) (by decide +kernel)

open Boundary in
theorem busyCache_violations_confined :
    vouchedCache.decls = busyCache.decls ∧ vouchedCache.extensions = busyCache.extensions ∧
      (Pass.run busyCache mainFirst .parallel).violations.length = 3 ∧
      (∃ edge ∈ busyCache.edges, edge ∈ vouchedCache.edges ∧
        (Pass.run vouchedCache mainFirst .sequential).violations.filter (·.call? = some edge.id) =
          (Pass.run busyCache mainFirst .parallel).violations.filter (·.call? = some edge.id)) ∧
      (Session.run busyCache mainFirst
        (violationsInPieces busyCache mainFirst busyCache.pieces.reverse)
        { source := .table (busyCache.resolution mainFirst) }).1 =
          (Pass.run busyCache mainFirst .parallel).violations := by
  obtain ⟨-, atCalls, inPieces⟩ :=
    @violations_confined busyCache vouchedCache rfl rfl mainFirst .parallel .sequential
  have first : vouchedCache.edges.head (by decide) ∈ busyCache.edges := List.mem_cons_self
  refine ⟨rfl, rfl, by decide +kernel, ⟨_, first, List.head_mem _, atCalls _ first (List.head_mem _)⟩, ?_⟩
  exact inPieces [] _ (List.reverse_perm _)

end ActorIsolation
