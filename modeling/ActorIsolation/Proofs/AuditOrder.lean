import ActorIsolation.Proofs.Exploration
import ActorIsolation.Proofs.History
import ActorIsolation.Proofs.Report

/-! The audit log and the order of work. As long as no refused type that is looked at leads back to itself,
each call puts the same records into the log whatever was asked before, so the log of an analyzer does
not depend on the order of the calls. Without that condition it may.
-/

set_option autoImplicit false

namespace ActorIsolation

open Analysis (Accounts)

/-- From every ledger with the property `kept`, the analysis comes to the same value and puts the same
records into the log. -/
def Analysis.Steady {α : Type} (answers : DeclId → Isolation) (kept : Ledger → Prop)
    (analysis : Analysis α) : Prop :=
  ∃ (value : α) (records : Set AuditRecord), ∀ ledger, kept ledger → Accounts answers kept ledger
    (fun found after => found = value ∧
      ∀ record, record ∈ after.audit ↔ record ∈ ledger.audit ∨ record ∈ records) analysis

namespace Analysis.Steady

variable {answers : DeclId → Isolation} {kept : Ledger → Prop}

theorem of_yields {α : Type} {analysis : Analysis α} {value : α}
    (yields : ∀ kept, Yields answers kept (· = value) analysis) : Steady answers kept analysis := by
  refine ⟨value, ∅, fun ledger start => (Accounts.of_yields yields start).imp ?_⟩
  rintro found after - - ⟨same, rfl⟩
  exact ⟨same, by simp⟩

theorem composable (enter : ∀ ledger record, kept ledger → kept (ledger.enter record)) :
    Composable fun _ analysis => Steady answers kept analysis where
  pure value := of_yields fun _ => .pure rfl
  bind := by
    rintro _ _ _ _ ⟨value, records, first⟩ rest
    obtain ⟨final, further, second⟩ := rest value
    refine ⟨final, records ∪ further, fun ledger start => (first ledger start).bind ?_⟩
    rintro _ middle keptMiddle - ⟨rfl, entered⟩
    refine (second middle keptMiddle).imp fun found after _ _ result => ⟨result.1, fun record => ?_⟩
    rw [result.2, entered, Set.mem_union, or_assoc]
  domain id := of_yields fun _ => .domain id
  report event := @of_yields _ _ Unit _ () fun _ => .imp (.report event) fun _ _ => rfl
  audit record := by
    refine ⟨(), {record}, fun ledger start => ?_⟩
    have further := audit_extends answers record ledger
    refine ⟨(Yields.audit enter record ledger start).2, further.grows, rfl, fun other => ?_⟩
    simpa using further.mem_audit other

end Analysis.Steady

namespace AnalyzerCall

variable (graph : Graph) (options : Options) (resolution : Resolution)

def logAfter (calls : List AnalyzerCall) : List AuditRecord :=
  (calls.foldl (perform graph options) { source := .table resolution }).ledger.audit

/-- No refused type that the walk sees on behalf of the call leads back to itself. -/
def Calm (answers : DeclId → Isolation) (call : AnalyzerCall) : Prop :=
  ∀ asked ∈ call.asks graph options, ∀ id ∈ asked.1.nominals,
    UseSite.Calm graph options answers ⟨id, asked.2⟩

variable {graph options resolution}

theorem steady_of_calm {answers : DeclId → Isolation} {call : AnalyzerCall}
    (calm : call.Calm graph options answers) :
    Analysis.Steady answers (Walk.Explored graph options answers) (call.analysis graph options) := by
  refine (Analysis.Steady.composable fun _ record explored => explored.enter record).call call
    fun asked mem => ?_
  exact ⟨_, _, fun ledger explored => Walk.sendabilityFrom_surveys asked.1 asked.2 (calm asked mem) explored⟩

theorem perform_steady {call : AnalyzerCall} (calm : call.Calm graph options resolution.isolation)
    {session : Session} (table : session.source = .table resolution)
    (explored : Walk.Explored graph options resolution.isolation session.ledger) :
    (perform graph options session call).source = .table resolution ∧
      Walk.Explored graph options resolution.isolation (perform graph options session call).ledger ∧
      ∀ record, record ∈ (perform graph options session call).ledger.audit ↔
        record ∈ session.ledger.audit ∨ record ∈ logAfter graph options resolution [call] := by
  obtain ⟨value, records, steady⟩ := steady_of_calm calm
  have run {session : Session} (table : session.source = .table resolution) :=
    Session.run_table graph options resolution (call.analysis graph options) session table
  obtain ⟨-, ledger, source⟩ := run table
  have accounts := steady session.ledger explored
  have alone := (steady {} .empty).result.2
  refine ⟨source, ?_, fun record => ?_⟩
  · rw [perform, ledger]
    exact accounts.kept
  · have logged : record ∈ logAfter graph options resolution [call] ↔ record ∈ records := by
      rw [logAfter, List.foldl_cons, List.foldl_nil, perform,
        (@run { source := .table resolution } rfl).2.1, alone record]
      simp
    rw [perform, ledger, accounts.result.2, logged]

theorem mem_foldl_perform {calls : List AnalyzerCall}
    (calm : ∀ call ∈ calls, call.Calm graph options resolution.isolation)
    {session : Session} (table : session.source = .table resolution)
    (explored : Walk.Explored graph options resolution.isolation session.ledger) :
    Ascends (calls.foldl (perform graph options) session).ledger.audit ∧
      ∀ record, record ∈ (calls.foldl (perform graph options) session).ledger.audit ↔
        record ∈ session.ledger.audit ∨
          ∃ call ∈ calls, record ∈ logAfter graph options resolution [call] := by
  induction calls generalizing session with
  | nil => exact ⟨explored.audited.ascends, by simp⟩
  | cons call rest ih =>
    obtain ⟨calmFirst, calmRest⟩ := List.forall_mem_cons.mp calm
    obtain ⟨source, exploredAfter, entered⟩ := perform_steady calmFirst table explored
    obtain ⟨ascends, others⟩ := ih calmRest source exploredAfter
    refine ⟨ascends, fun record => ?_⟩
    rw [List.foldl_cons, others, entered]
    simp [or_assoc]

theorem mem_logAfter {calls : List AnalyzerCall}
    (calm : ∀ call ∈ calls, call.Calm graph options resolution.isolation) :
    Ascends (logAfter graph options resolution calls) ∧
      ∀ record, record ∈ logAfter graph options resolution calls ↔
        ∃ call ∈ calls, record ∈ logAfter graph options resolution [call] := by
  obtain ⟨ascends, entered⟩ :=
    @mem_foldl_perform graph options resolution calls calm { source := .table resolution } rfl .empty
  exact ⟨ascends, fun record => (entered record).trans (by simp)⟩

end AnalyzerCall

open AnalyzerCall in
/-- As long as no refused type that is looked at leads back to itself, an analyzer's log does not depend
on the order of the calls. It holds what each call alone would have put there. -/
theorem log_in_any_order (graph : Graph) (options : Options) (resolution : Resolution)
    {calls others : List AnalyzerCall} (perm : calls.Perm others)
    (calm : ∀ call ∈ calls, call.Calm graph options resolution.isolation) :
    logAfter graph options resolution calls = logAfter graph options resolution others ∧
      ∀ record, record ∈ logAfter graph options resolution calls ↔
        ∃ call ∈ calls, record ∈ logAfter graph options resolution [call] := by
  obtain ⟨ascends, entered⟩ := mem_logAfter calm
  obtain ⟨ascendsToo, enteredToo⟩ := mem_logAfter fun call mem => calm call (perm.mem_iff.mpr mem)
  refine ⟨ascends.eq Rank.delimited_record.injective ascendsToo fun record => ?_, entered⟩
  rw [entered, enteredToo]
  simp only [perm.mem_iff]

/-- An outer box and an inner one lead to each other, and the outer one is refused for what is sealed in
it. The inner one wraps a handle, for which only its author's word is taken. Boxes and nodes hold such
wrappers as well, but no box leads back to itself. -/
def tangledBoxes : Graph where
  decls :=
    [{ id := ⟨1⟩, name := "Sealed", kind := .type .classType },
      { id := ⟨2⟩, name := "Handle", kind := .type .classType, sendable := .unchecked },
      { id := ⟨3⟩, name := "Wrapper", kind := .type .struct },
      { id := ⟨4⟩, name := "handle", kind := .storedProperty, enclosing := some ⟨3⟩,
        type := some (.nominal ⟨2⟩) },
      { id := ⟨5⟩, name := "Outer", kind := .type .struct },
      { id := ⟨6⟩, name := "inner", kind := .storedProperty, enclosing := some ⟨5⟩,
        type := some (.optional (.nominal ⟨8⟩)) },
      { id := ⟨7⟩, name := "sealed", kind := .storedProperty, enclosing := some ⟨5⟩,
        type := some (.nominal ⟨1⟩) },
      { id := ⟨8⟩, name := "Inner", kind := .type .struct },
      { id := ⟨9⟩, name := "outer", kind := .storedProperty, enclosing := some ⟨8⟩,
        type := some (.optional (.nominal ⟨5⟩)) },
      { id := ⟨10⟩, name := "wrapper", kind := .storedProperty, enclosing := some ⟨8⟩,
        type := some (.nominal ⟨3⟩) },
      { id := ⟨11⟩, name := "main", kind := .function },
      { id := ⟨12⟩, name := "run", kind := .function },
      { id := ⟨13⟩, name := "Box", kind := .type .struct },
      { id := ⟨14⟩, name := "wrapper", kind := .storedProperty, enclosing := some ⟨13⟩,
        type := some (.nominal ⟨3⟩) },
      { id := ⟨15⟩, name := "sealed", kind := .storedProperty, enclosing := some ⟨13⟩,
        type := some (.nominal ⟨1⟩) },
      { id := ⟨16⟩, name := "Node", kind := .type .struct },
      { id := ⟨17⟩, name := "next", kind := .storedProperty, enclosing := some ⟨16⟩,
        type := some (.optional (.nominal ⟨16⟩)) },
      { id := ⟨18⟩, name := "wrapper", kind := .storedProperty, enclosing := some ⟨16⟩,
        type := some (.nominal ⟨3⟩) }]
  extensions := [{ id := ⟨0⟩, extended := ⟨16⟩ }]
  edges :=
    [{ id := ⟨0⟩, caller := ⟨11⟩, callee := ⟨12⟩, kind := .spawn,
       arguments := [⟨"inner", .nominal ⟨8⟩⟩] },
      { id := ⟨1⟩, caller := ⟨11⟩, callee := ⟨12⟩, kind := .spawn,
        arguments := [⟨"outer", .nominal ⟨5⟩⟩] }]
  plan := _
  plan_eq := rfl
  decls_ascending := by decide
  extensions_ascending := by decide
  edges_ascending := by decide
  sound := by decide +kernel

def tangledTable : Resolution := (Resolver.byLevels tangledBoxes {}).snapshot

open AnalyzerCall in
/-- The two calls hand over an inner box and an outer one. Whether the walk comes to the wrapper, and puts
the word for its handle on record, depends on which of them it starts with. -/
theorem tangledBoxes_log_depends_on_order :
    logAfter tangledBoxes {} tangledTable (tangledBoxes.edges.map .callEdge) = [] ∧
      logAfter tangledBoxes {} tangledTable (tangledBoxes.edges.map .callEdge).reverse =
        [⟨⟨2⟩, .field ⟨3⟩ ⟨4⟩⟩] := by
  constructor
  · decide +kernel
  · decide +kernel

section

open Relation (ReflTransGen TransGen)
open UseSite

def plainBoxes : List DeclId := [⟨1⟩, ⟨2⟩, ⟨3⟩, ⟨13⟩, ⟨16⟩]

/-- Only nodes lead to nodes; all other fields lead to smaller numbers. -/
theorem plainBoxes_sees {answers : DeclId → Isolation} {here next : UseSite}
    (sees : Sees tangledBoxes {} answers here next) (inside : here.decl ∈ plainBoxes) :
    next.decl ∈ plainBoxes ∧ next.site = .here ∧
      (next.decl.number < here.decl.number ∨ here.decl = ⟨16⟩) := by
  have checked : ∀ decl ∈ tangledBoxes.decls, decl.id ∈ plainBoxes →
      ∀ field ∈ tangledBoxes.storedFields decl.id, ∀ type ∈ field.type, ∀ id ∈ type.nominals,
        id ∈ plainBoxes ∧ (id.number < decl.id.number ∨ decl.id = ⟨16⟩) := by
    decide
  obtain ⟨found, -, fields, -, -, typed, mentioned⟩ := sees
  obtain rfl := Graph.id_of_decl? found
  have listed : _ ∈ countedFields tangledBoxes answers _ :=
    fields ▸ List.mem_append_right _ List.mem_cons_self
  obtain ⟨within, smaller⟩ := checked _ (List.mem_of_find?_eq_some found) inside _
    (List.mem_filter.mp listed).1 _ typed _ mentioned
  exact ⟨within, rfl, smaller⟩

theorem plainBoxes_reached {answers : DeclId → Isolation} {here there : UseSite}
    (leads : ReflTransGen (Sees tangledBoxes {} answers) here there) (inside : here.decl ∈ plainBoxes) :
    there.decl ∈ plainBoxes := by
  induction leads with
  | refl => exact inside
  | tail _ sees ih => exact (plainBoxes_sees sees ih).1

theorem plainBoxes_onwards {answers : DeclId → Isolation} {here there : UseSite}
    (leads : TransGen (Sees tangledBoxes {} answers) here there) (inside : here.decl ∈ plainBoxes) :
    there.site = .here ∧ (there.decl.number < here.decl.number ∨ here.decl = ⟨16⟩) := by
  have bound : ∀ id ∈ plainBoxes, id.number ≤ 16 := by decide
  induction leads with
  | single sees => exact (plainBoxes_sees sees inside).2
  | tail before sees ih =>
    have within := plainBoxes_reached before.to_reflTransGen inside
    obtain ⟨-, home, smaller⟩ := plainBoxes_sees sees within
    refine ⟨home, ih.2.imp_left fun less => ?_⟩
    rcases smaller with evenLess | node
    · exact evenLess.trans less
    · rw [node] at less
      exact absurd (bound _ inside) (Nat.not_le.mpr less)

theorem plainBoxes_calm {here : UseSite} (inside : here.decl ∈ plainBoxes) :
    Calm tangledBoxes {} tangledTable.isolation here := by
  intro there leads refused loops
  obtain ⟨home, smaller⟩ := plainBoxes_onwards loops (plainBoxes_reached leads inside)
  have node : there = ⟨⟨16⟩, .here⟩ := by
    obtain ⟨decl, site⟩ := there
    simpa using ⟨smaller.resolve_left (Nat.lt_irrefl _), home⟩
  have accepted : verdictOn tangledBoxes {} tangledTable.isolation (.nominal ⟨16⟩) .here =
      .sendable := by
    rw [← Session.verdict_eq]
    decide +kernel
  have refusal : verdictOn tangledBoxes {} tangledTable.isolation (.nominal ⟨16⟩) .here =
      .notSendable :=
    verdictOn_eq_notSendable.mpr (.inr ⟨⟨16⟩, by simp [TypeRef.nominals], node ▸ refused⟩)
  cases accepted.symm.trans refusal

open AnalyzerCall in
theorem plainBoxes_log_in_any_order :
    (∀ call ∈ [sendability (.nominal ⟨13⟩) .here, sendability (.nominal ⟨16⟩) .here],
      call.Calm tangledBoxes {} tangledTable.isolation) ∧
      logAfter tangledBoxes {} tangledTable
          [sendability (.nominal ⟨13⟩) .here, sendability (.nominal ⟨16⟩) .here] =
        logAfter tangledBoxes {} tangledTable
          [sendability (.nominal ⟨16⟩) .here, sendability (.nominal ⟨13⟩) .here] ∧
      logAfter tangledBoxes {} tangledTable [sendability (.nominal ⟨13⟩) .here] =
        [⟨⟨2⟩, .field ⟨3⟩ ⟨4⟩⟩] := by
  have calm : ∀ call ∈ [sendability (.nominal ⟨13⟩) .here, sendability (.nominal ⟨16⟩) .here],
      call.Calm tangledBoxes {} tangledTable.isolation := by
    intro call mem asked question id mentioned
    have inside : ∀ call ∈ [sendability (.nominal ⟨13⟩) .here, sendability (.nominal ⟨16⟩) .here],
        ∀ asked ∈ call.asks tangledBoxes {}, ∀ id ∈ asked.1.nominals, id ∈ plainBoxes := by
      decide
    exact plainBoxes_calm (inside call mem asked question id mentioned)
  exact ⟨calm, (log_in_any_order tangledBoxes {} tangledTable (.swap _ _ []) calm).1, by decide +kernel⟩

end

end ActorIsolation
