import ActorIsolation.Analysis
import ActorIsolation.Proofs.Inquiry
import ActorIsolation.Proofs.Order
import Mathlib.Data.List.Forall2

/-! Analyses under fixed answers: the value and the ledger they end with, and properties of the ledger
that hold throughout.
-/

set_option autoImplicit false

namespace ActorIsolation

/-- The ledger after these records have been put into it, in whatever order. -/
structure Ledger.Extends (before : Ledger) (records : List AuditRecord) (after : Ledger) : Prop where
  verdicts : after.verdicts = before.verdicts
  mem_audit : ∀ record, record ∈ after.audit ↔ record ∈ before.audit ∨ record ∈ records
  ascends : Ascends before.audit → Ascends after.audit

theorem Ledger.Extends.grows {before after : Ledger} {records : List AuditRecord}
    (further : before.Extends records after) : before.audit ⊆ after.audit :=
  fun record mem => (further.mem_audit record).mpr (.inl mem)

namespace Analysis

variable {α β : Type} (answers : DeclId → Isolation)

/-- The value of an analysis and the ledger after it, when isolation questions have fixed answers. -/
def against (analysis : Analysis α) (ledger : Ledger) : α × Ledger :=
  (StateT.run analysis ledger).against answers

@[simp] theorem against_pure (value : α) (ledger : Ledger) :
    (pure value : Analysis α).against answers ledger = (value, ledger) := rfl

@[simp] theorem against_bind (analysis : Analysis α) (next : α → Analysis β) (ledger : Ledger) :
    (analysis >>= next).against answers ledger =
      (next (analysis.against answers ledger).1).against answers
        (analysis.against answers ledger).2 := by
  simp [against, StateT.run_bind]

@[simp] theorem against_get (ledger : Ledger) :
    (get : Analysis Ledger).against answers ledger = (ledger, ledger) := rfl

@[simp] theorem against_set (entered ledger : Ledger) :
    (set entered : Analysis PUnit).against answers ledger = (⟨⟩, entered) := rfl

@[simp] theorem against_report (event : Event) (ledger : Ledger) :
    (report event).against answers ledger = ((), ledger) := rfl

def notes (analysis : Analysis α) (ledger : Ledger) : List Event :=
  (StateT.run analysis ledger).notes answers

@[simp] theorem notes_pure (value : α) (ledger : Ledger) :
    (pure value : Analysis α).notes answers ledger = [] := rfl

@[simp] theorem notes_bind (analysis : Analysis α) (next : α → Analysis β) (ledger : Ledger) :
    (analysis >>= next).notes answers ledger = analysis.notes answers ledger ++
      (next (analysis.against answers ledger).1).notes answers (analysis.against answers ledger).2 := by
  simp [notes, against, StateT.run_bind]

@[simp] theorem notes_get (ledger : Ledger) :
    (get : Analysis Ledger).notes answers ledger = [] := rfl

@[simp] theorem notes_set (entered ledger : Ledger) :
    (set entered : Analysis PUnit).notes answers ledger = [] := rfl

@[simp] theorem notes_report (event : Event) (ledger : Ledger) :
    (report event).notes answers ledger = [event] := rfl

theorem tracked_against (query : Query) (finding : α → Finding) (work : Analysis α) (ledger : Ledger) :
    (tracked query finding work).against answers ledger = work.against answers ledger := by
  simp only [tracked, against_bind, against_report, against_pure]

theorem tracked_notes (query : Query) (finding : α → Finding) (work : Analysis α) (ledger : Ledger) :
    (tracked query finding work).notes answers ledger = .opened query ::
      (work.notes answers ledger ++ [.closed query (finding (work.against answers ledger).1)]) := by
  simp only [tracked, against_report, notes_bind, notes_report, notes_pure, List.singleton_append,
    List.append_nil]

theorem audit_against (record : AuditRecord) (ledger : Ledger) :
    (audit record).against answers ledger =
      ((), if record ∈ ledger.audit then ledger else ledger.enter record) := by
  simp only [audit, against_bind, against_get]
  by_cases present : record ∈ ledger.audit <;> simp [present]

theorem audit_extends (record : AuditRecord) (ledger : Ledger) :
    ledger.Extends [record] ((audit record).against answers ledger).2 := by
  rw [audit_against]
  by_cases present : record ∈ ledger.audit
  · rw [if_pos present]
    refine ⟨rfl, fun other => ⟨.inl, fun mem => mem.elim id fun same => ?_⟩, id⟩
    rw [List.mem_singleton.mp same]
    exact present
  · rw [if_neg present]
    refine ⟨rfl, fun other => ?_, fun ascends => ascends.insertAscending⟩
    rw [Ledger.enter, mem_insertAscending Rank.delimited_record.injective, List.mem_singleton]
    exact or_comm

theorem auditAll_extends (records : List AuditRecord) (ledger : Ledger) :
    ledger.Extends records ((auditAll records).against answers ledger).2 := by
  induction records generalizing ledger with
  | nil => exact ⟨rfl, by simp [auditAll], id⟩
  | cons record rest ih =>
    rw [auditAll, against_bind]
    have first := audit_extends answers record ledger
    have others := ih ((audit record).against answers ledger).2
    refine ⟨others.verdicts.trans first.verdicts, fun other => ?_, fun ascends => ?_⟩
    · rw [others.mem_audit, first.mem_audit, List.mem_singleton, List.mem_cons, or_assoc]
    · exact others.ascends (first.ascends ascends)

theorem forEach_against {γ : Type} {work : γ → Analysis (List β)} {lists : γ → List β}
    (quiet : ∀ item ledger, (work item).against answers ledger = (lists item, ledger))
    (items : List γ) (ledger : Ledger) :
    (forEach work items).against answers ledger = (items.flatMap lists, ledger) := by
  induction items with
  | nil => rfl
  | cons item rest ih => simp only [forEach, against_bind, quiet, ih, against_pure, List.flatMap_cons]

theorem forEach_map {γ : Type} (work : β → Analysis (List γ)) (move : α → β)
    (items : List α) : forEach work (items.map move) = forEach (work ∘ move) items := by
  induction items with
  | nil => rfl
  | cons item rest ih => simp only [List.map_cons, forEach, ih, Function.comp]

/-- From a ledger with the property `kept`, the analysis comes to a value with the property `result`
and leaves a ledger with the property `kept`. -/
def Yields (kept : Ledger → Prop) (result : α → Prop) (analysis : Analysis α) : Prop :=
  ∀ ledger, kept ledger →
    result (analysis.against answers ledger).1 ∧ kept (analysis.against answers ledger).2

variable {answers} {kept : Ledger → Prop}

namespace Yields

variable {result middle : α → Prop} {analysis : Analysis α}

theorem pure {value : α} (holds : result value) :
    Yields answers kept result (Pure.pure value) :=
  fun _ start => ⟨holds, start⟩

theorem bind {next : α → Analysis β} {final : β → Prop}
    (first : Yields answers kept middle analysis)
    (rest : ∀ value, middle value → Yields answers kept final (next value)) :
    Yields answers kept final (analysis >>= next) := by
  intro ledger start
  obtain ⟨holds, after⟩ := first ledger start
  rw [against_bind]
  exact rest _ holds _ after

theorem imp {weaker : α → Prop} (yields : Yields answers kept result analysis)
    (weaken : ∀ value, result value → weaker value) : Yields answers kept weaker analysis :=
  fun ledger start => ⟨weaken _ (yields ledger start).1, (yields ledger start).2⟩

theorem trivial (yields : Yields answers kept result analysis) :
    Yields answers kept (fun _ => True) analysis :=
  yields.imp fun _ _ => True.intro

theorem domain (id : DeclId) :
    Yields answers kept (· = (answers id).domain) (Analysis.domain id) :=
  fun _ start => ⟨rfl, start⟩

theorem report (event : Event) : Yields answers kept (fun _ => True) (Analysis.report event) :=
  fun _ start => ⟨True.intro, start⟩

theorem tracked (query : Query) (finding : α → Finding) (work : Yields answers kept result analysis) :
    Yields answers kept result (Analysis.tracked query finding analysis) := by
  refine (report _).bind fun _ _ => work.bind fun value holds => ?_
  exact (report _).bind fun _ _ => pure holds

theorem audit (entered : ∀ ledger record, kept ledger → kept (ledger.enter record))
    (record : AuditRecord) : Yields answers kept (fun _ => True) (Analysis.audit record) := by
  intro ledger start
  refine ⟨True.intro, ?_⟩
  rw [audit_against]
  split
  · exact start
  · exact entered ledger record start

theorem auditAll (entered : ∀ ledger record, kept ledger → kept (ledger.enter record))
    (records : List AuditRecord) :
    Yields answers kept (fun _ => True) (Analysis.auditAll records) := by
  induction records with
  | nil => exact pure True.intro
  | cons record rest ih => exact (audit entered record).bind fun _ _ => ih

theorem forEach {γ : Type} {work : γ → Analysis (List β)} {items : List γ}
    (each : ∀ item, Yields answers kept (fun _ => True) (work item)) :
    Yields answers kept (fun _ => True) (Analysis.forEach work items) := by
  induction items with
  | nil => exact pure True.intro
  | cons item rest ih =>
    exact (each item).bind fun _ _ => ih.bind fun _ _ => pure True.intro

theorem forEach_all {γ : Type} {work : γ → Analysis (List β)} {items : List γ} {holds : β → Prop}
    (each : ∀ item, Yields answers kept (fun list => ∀ found ∈ list, holds found) (work item)) :
    Yields answers kept (fun list => ∀ found ∈ list, holds found) (Analysis.forEach work items) := by
  induction items with
  | nil => exact pure (by simp)
  | cons item rest ih =>
    refine (each item).bind fun list first => ih.bind fun others all => pure ?_
    intro found mem
    exact (List.mem_append.mp mem).elim (first found) (all found)

theorem forEach_exact {γ : Type} {work : γ → Analysis (List β)} {lists : γ → List β}
    (each : ∀ item, Yields answers kept (· = lists item) (work item)) (items : List γ) :
    Yields answers kept (· = items.flatMap lists) (Analysis.forEach work items) := by
  induction items with
  | nil => exact pure rfl
  | cons item rest ih =>
    refine (each item).bind fun list same => ih.bind fun others sameOthers => pure ?_
    rw [same, sameOthers, List.flatMap_cons]

end Yields

/-- Started with this ledger, the analysis leaves one with the property `kept`. No record is lost on the
way, and `result` holds of the value and of the ledger that is left. -/
structure Accounts (answers : DeclId → Isolation) (kept : Ledger → Prop) (ledger : Ledger)
    (result : α → Ledger → Prop) (analysis : Analysis α) : Prop where
  kept : kept (analysis.against answers ledger).2
  grows : ledger.audit ⊆ (analysis.against answers ledger).2.audit
  result : result (analysis.against answers ledger).1 (analysis.against answers ledger).2

namespace Accounts

variable {ledger : Ledger} {result middle : α → Ledger → Prop} {analysis : Analysis α}

theorem pure {value : α} (start : kept ledger) (holds : result value ledger) :
    Accounts answers kept ledger result (Pure.pure value) where
  kept := start
  grows := List.Subset.refl _
  result := holds

theorem bind {next : α → Analysis β} {final : β → Ledger → Prop}
    (first : Accounts answers kept ledger middle analysis)
    (rest : ∀ value after, kept after → ledger.audit ⊆ after.audit → middle value after →
      Accounts answers kept after final (next value)) :
    Accounts answers kept ledger final (analysis >>= next) := by
  have second := rest _ _ first.kept first.grows first.result
  constructor
  · rw [against_bind]
    exact second.kept
  · rw [against_bind]
    exact List.Subset.trans first.grows second.grows
  · rw [against_bind]
    exact second.result

theorem get (start : kept ledger) : Accounts answers kept ledger
    (fun current after => ledger = current ∧ ledger = after) MonadState.get where
  kept := start
  grows := List.Subset.refl _
  result := ⟨rfl, rfl⟩

/-- A property of ledgers that is kept together with the records need not be followed step by step. -/
theorem of_growing {holds : α → Prop}
    (yields : Yields answers (fun after => kept after ∧ ledger.audit ⊆ after.audit) holds analysis)
    (start : kept ledger) :
    Accounts answers kept ledger (fun value _ => holds value) analysis := by
  obtain ⟨value, after, grows⟩ := yields ledger ⟨start, List.Subset.refl _⟩
  exact ⟨after, grows, value⟩

theorem imp {weaker : α → Ledger → Prop} (accounts : Accounts answers kept ledger result analysis)
    (weaken : ∀ value after, kept after → ledger.audit ⊆ after.audit → result value after →
      weaker value after) : Accounts answers kept ledger weaker analysis where
  kept := accounts.kept
  grows := accounts.grows
  result := weaken _ _ accounts.kept accounts.grows accounts.result

/-- An analysis that keeps every property of the ledger leaves it as it is. -/
theorem of_yields {holds : α → Prop} (yields : ∀ kept, Yields answers kept holds analysis)
    (start : kept ledger) :
    Accounts answers kept ledger (fun value after => holds value ∧ ledger = after) analysis := by
  obtain ⟨value, same⟩ := yields (· = ledger) ledger rfl
  constructor
  · rw [same]
    exact start
  · rw [same]
    exact List.Subset.refl _
  · exact ⟨value, same.symm⟩

theorem and_yields {honest : Ledger → Prop} {holds : α → Prop}
    (accounts : Accounts answers kept ledger result analysis)
    (yields : Yields answers honest holds analysis) (start : honest ledger) :
    Accounts answers kept ledger (fun value after => holds value ∧ result value after) analysis where
  kept := accounts.kept
  grows := accounts.grows
  result := ⟨(yields ledger start).1, accounts.result⟩

theorem and_accounts {other : Ledger → Prop} (accounts : Accounts answers kept ledger result analysis)
    (others : Accounts answers other ledger middle analysis) :
    Accounts answers kept ledger (fun value after => middle value after ∧ result value after)
      analysis where
  kept := accounts.kept
  grows := accounts.grows
  result := ⟨others.result, accounts.result⟩

theorem tracked (query : Query) (finding : α → Finding)
    (work : Accounts answers kept ledger result analysis) :
    Accounts answers kept ledger result (Analysis.tracked query finding analysis) := by
  constructor
  · rw [tracked_against]
    exact work.kept
  · rw [tracked_against]
    exact work.grows
  · rw [tracked_against]
    exact work.result

/-- What holds after one item goes on to hold if it cannot be undone by further records. -/
theorem forEach {γ : Type} {work : γ → Analysis (List β)} {items : List γ}
    {result : γ → List β → Ledger → Prop}
    (stable : ∀ {item list before after}, before.audit ⊆ after.audit →
      result item list before → result item list after)
    (each : ∀ item ∈ items, ∀ ledger, kept ledger →
      Accounts answers kept ledger (result item) (work item)) (start : kept ledger) :
    Accounts answers kept ledger (fun joined after => ∃ lists, joined = lists.flatten ∧
      List.Forall₂ (fun item list => result item list after) items lists)
      (Analysis.forEach work items) := by
  induction items generalizing ledger with
  | nil => exact .pure start ⟨[], rfl, .nil⟩
  | cons item rest ih =>
    have first := each item List.mem_cons_self ledger start
    refine first.bind fun list after keptFirst _ holds => ?_
    have others := ih (fun other mem => each other (List.mem_cons_of_mem _ mem)) keptFirst
    refine others.bind ?_
    rintro joined last keptLast grows ⟨lists, same, all⟩
    exact .pure keptLast ⟨list :: lists, by simp [same], .cons (stable grows holds) all⟩

theorem forEach_exact {γ : Type} {work : γ → Analysis (List β)} {items : List γ}
    {lists : γ → List β} {recorded : γ → Ledger → Prop}
    (stable : ∀ {item before after}, before.audit ⊆ after.audit →
      recorded item before → recorded item after)
    (each : ∀ item ∈ items, ∀ ledger, kept ledger → Accounts answers kept ledger
      (fun list after => list = lists item ∧ recorded item after) (work item)) (start : kept ledger) :
    Accounts answers kept ledger
      (fun joined after => joined = items.flatMap lists ∧ ∀ item ∈ items, recorded item after)
      (Analysis.forEach work items) := by
  refine (forEach (fun grows holds => ⟨holds.1, stable grows holds.2⟩) each start).imp ?_
  rintro joined after - - ⟨found, rfl, all⟩
  clear each
  induction all with
  | nil => simp
  | cons here _ ih => simpa [here.1, here.2] using ih

end Accounts

end Analysis

end ActorIsolation
