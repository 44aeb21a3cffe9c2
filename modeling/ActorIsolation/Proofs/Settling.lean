import ActorIsolation.Proofs.Accounting
import ActorIsolation.Proofs.Composition
import ActorIsolation.Proofs.Statistics

/-! Verdicts are settled once. A type that no other waits for is settled as soon as it has been looked
at, and what is settled is neither looked at again nor changed. So the looks that are counted are about
different use sites, each of a declared type that some question mentions.
-/

set_option autoImplicit false

namespace ActorIsolation

/-! ### Ledgers -/

namespace Ledger

def Distinct (ledger : Ledger) : Prop := (ledger.verdicts.map (·.1)).Nodup

variable {ledger before after : Ledger} {key : UseSite} {verdict : Sendability}

theorem verdict?_grows (grows : before.verdicts <:+ after.verdicts) (distinct : after.Distinct)
    (known : before.verdict? key = some verdict) : after.verdict? key = some verdict :=
  (lookup_iff_mem distinct).mpr (grows.subset (mem_of_lookup known))

theorem isSome_verdict?_grows (grows : before.verdicts <:+ after.verdicts) (distinct : after.Distinct)
    (known : (before.verdict? key).isSome) : (after.verdict? key).isSome := by
  obtain ⟨verdict, found⟩ := Option.isSome_iff_exists.mp known
  exact Option.isSome_of_eq_some (verdict?_grows grows distinct found)

theorem verdict?_remember : (ledger.remember key verdict).verdict? key = some verdict := by
  simp [verdict?, remember]

theorem verdict?_remember_other {other : UseSite} (different : other ≠ key) :
    (ledger.remember key verdict).verdict? other = ledger.verdict? other := by
  simp [verdict?, remember, List.lookup_cons, beq_false_of_ne different]

theorem Distinct.remember (distinct : ledger.Distinct) (unsettled : ledger.verdict? key = none) :
    (ledger.remember key verdict).Distinct := by
  refine List.nodup_cons.mpr ⟨fun listed => ?_, distinct⟩
  have settled : (ledger.verdict? key).isSome := lookup_isSome.mpr listed
  simp [unsettled] at settled

end Ledger

/-- The use sites of the declared types that these types mention, each used from the module beside it. -/
def mentionedSites (graph : Graph) (queries : List (TypeRef × ModuleId)) : List UseSite :=
  queries.flatMap fun query =>
    (query.1.nominals.filter fun id => (graph.decl? id).isSome).map (⟨·, query.2⟩)

variable {graph : Graph} {options : Options} {answers : DeclId → Isolation} {α β : Type}
  {path : List UseSite} {asked more : List (TypeRef × ModuleId)} {key : UseSite}

@[simp] theorem mentionedSites_nil : mentionedSites graph [] = [] := rfl

theorem mem_mentionedSites : key ∈ mentionedSites graph asked ↔
    (graph.decl? key.decl).isSome ∧ ∃ query ∈ asked, key.decl ∈ query.1.nominals ∧
      query.2 = key.site := by
  obtain ⟨decl, site⟩ := key
  simp only [mentionedSites, List.mem_flatMap, List.mem_map, List.mem_filter, UseSite.mk.injEq]
  constructor
  · rintro ⟨query, listed, _, ⟨named, declared⟩, rfl, rfl⟩
    exact ⟨declared, query, listed, named, rfl⟩
  · rintro ⟨declared, query, listed, named, rfl⟩
    exact ⟨query, listed, decl, ⟨named, declared⟩, rfl, rfl⟩

/-! ### Steps -/

/-- What questions for verdicts on these types do to a ledger and write down while the types of `path`
wait. Verdicts are added and none is changed, and nothing that waits is settled. What is mentioned is
settled in the end, and the work that is counted is about mentioned use sites that were not settled
before, each once. -/
structure Settlement (graph : Graph) (path : List UseSite) (queries : List (TypeRef × ModuleId))
    (before after : Ledger) (notes : List Event) : Prop where
  grows : before.verdicts <:+ after.verdicts
  distinct : after.Distinct
  waiting : ∀ key ∈ path, after.verdict? key = none
  settled : ∀ key ∈ mentionedSites graph queries, (after.verdict? key).isSome
  counted : ∃ sites : List UseSite, sites.Nodup ∧ sites ⊆ mentionedSites graph queries ∧
    (∀ key ∈ sites, before.verdict? key = none) ∧
    finishedIn .sendable notes = sites.map (·.decl.number)

namespace Settlement

variable {before middle after : Ledger} {notes further : List Event}

theorem quiet (same : after.verdicts = before.verdicts) (silent : finishedIn .sendable notes = [])
    (distinct : before.Distinct) (waiting : ∀ key ∈ path, before.verdict? key = none) :
    Settlement graph path [] before after notes where
  grows := same ▸ List.suffix_rfl
  distinct := by rwa [Ledger.Distinct, same]
  waiting key waits := by
    rw [Ledger.verdict?, same]
    exact waiting key waits
  settled := by simp
  counted := ⟨[], .nil, by simp, by simp, silent⟩

theorem trans (first : Settlement graph path asked before middle notes)
    (second : Settlement graph path more middle after further) :
    Settlement graph path (asked ++ more) before after (notes ++ further) := by
  have both : mentionedSites graph (asked ++ more) =
      mentionedSites graph asked ++ mentionedSites graph more := List.flatMap_append
  obtain ⟨early, onceEarly, askedEarly, freshEarly, toldEarly⟩ := first.counted
  obtain ⟨late, onceLate, askedLate, freshLate, toldLate⟩ := second.counted
  refine ⟨first.grows.trans second.grows, second.distinct, second.waiting, ?_, early ++ late, ?_, ?_,
    ?_, ?_⟩
  · intro key mentioned
    rw [both] at mentioned
    rcases List.mem_append.mp mentioned with mentioned | mentioned
    · exact Ledger.isSome_verdict?_grows second.grows second.distinct (first.settled key mentioned)
    · exact second.settled key mentioned
  · -- What the first questions settled is not looked at for the second ones.
    refine List.nodup_append.mpr ⟨onceEarly, onceLate, fun key mem other later same => ?_⟩
    have settled := first.settled key (askedEarly mem)
    rw [same, freshLate other later] at settled
    cases settled
  · rw [both]
    exact List.append_subset.mpr ⟨List.subset_append_of_subset_left _ askedEarly,
      List.subset_append_of_subset_right _ askedLate⟩
  · intro key mem
    rcases List.mem_append.mp mem with mem | mem
    · exact freshEarly key mem
    · cases known : before.verdict? key with
      | none => rfl
      | some verdict =>
        have kept := Ledger.verdict?_grows first.grows first.distinct known
        rw [freshLate key mem] at kept
        cases kept
  · rw [finishedIn_append, toldEarly, toldLate, List.map_append]

theorem silent (step : Settlement graph path [] before after notes) :
    finishedIn .sendable notes = [] := by
  obtain ⟨sites, -, asked, -, told⟩ := step.counted
  rw [told, List.eq_nil_of_subset_nil asked]
  rfl

theorem congr (step : Settlement graph path asked before after notes)
    (same : ∀ key, key ∈ mentionedSites graph asked ↔ key ∈ mentionedSites graph more) :
    Settlement graph path more before after notes := by
  obtain ⟨sites, once, asked, fresh, told⟩ := step.counted
  refine ⟨step.grows, step.distinct, step.waiting, ?_, sites, once, ?_, fresh, told⟩
  · exact fun key mentioned => step.settled key ((same key).mpr mentioned)
  · exact fun key mem => (same key).mp (asked mem)

theorem inwards {inner : List UseSite} (step : Settlement graph inner asked before after notes)
    (waits : path ⊆ inner) : Settlement graph path asked before after notes :=
  ⟨step.grows, step.distinct, fun key mem => step.waiting key (waits mem), step.settled, step.counted⟩

end Settlement

/-! ### Analyses -/

namespace Analysis

def Settles (answers : DeclId → Isolation) (graph : Graph) (path : List UseSite)
    (queries : List (TypeRef × ModuleId)) (analysis : Analysis α) : Prop :=
  ∀ ledger, ledger.Distinct → (∀ key ∈ path, ledger.verdict? key = none) →
    Settlement graph path queries ledger (analysis.against answers ledger).2
      (analysis.notes answers ledger)

def Silent (answers : DeclId → Isolation) (analysis : Analysis α) : Prop :=
  ∀ ledger, (analysis.against answers ledger).2 = ledger ∧ analysis.notes answers ledger = []

theorem Silent.sequential : Sequential fun _ analysis => Silent answers analysis where
  pure _ _ := ⟨rfl, rfl⟩
  bind first rest ledger := by
    obtain ⟨same, quiet⟩ := first ledger
    rw [against_bind, notes_bind, same, quiet]
    exact rest _ ledger
  domain _ _ := ⟨rfl, rfl⟩

namespace Settles

variable {analysis : Analysis α} {next : α → Analysis β}

theorem bind (first : Settles answers graph path asked analysis)
    (rest : ∀ value, Settles answers graph path more (next value)) :
    Settles answers graph path (asked ++ more) (analysis >>= next) := by
  intro ledger distinct waiting
  have early := first ledger distinct waiting
  rw [against_bind, notes_bind]
  exact early.trans (rest _ _ early.distinct early.waiting)

theorem andThen (first : Settles answers graph path asked analysis)
    (rest : ∀ value, Settles answers graph path [] (next value)) :
    Settles answers graph path asked (analysis >>= next) := by
  have both := first.bind rest
  rwa [List.append_nil] at both

theorem of_silent (silent : Silent answers analysis) : Settles answers graph path [] analysis := by
  intro ledger distinct waiting
  obtain ⟨same, quiet⟩ := silent ledger
  exact .quiet (by rw [same]) (by rw [quiet, finishedIn_nil]) distinct waiting

theorem after {result : α → Prop} (silent : Silent answers analysis)
    (yields : Yields answers (fun _ => True) result analysis)
    (rest : ∀ value, result value → Settles answers graph path asked (next value)) :
    Settles answers graph path asked (analysis >>= next) := by
  intro ledger distinct waiting
  obtain ⟨same, quiet⟩ := silent ledger
  rw [against_bind, notes_bind, same, quiet]
  exact rest _ (yields ledger True.intro).1 ledger distinct waiting

theorem pure (value : α) : Settles answers graph path [] (Pure.pure value) :=
  of_silent (Silent.sequential.pure value)

theorem sequential : Sequential fun _ analysis => Settles answers graph path [] analysis where
  pure := pure
  bind first rest := first.bind rest
  domain id := of_silent (Silent.sequential.domain id)

theorem report {event : Event} (other : event.subject? .sendable = none) :
    Settles answers graph path [] (Analysis.report event) := by
  intro ledger distinct waiting
  exact .quiet rfl (by simp [finishedIn, other]) distinct waiting

theorem audit (record : AuditRecord) : Settles answers graph path [] (Analysis.audit record) := by
  intro ledger distinct waiting
  refine .quiet (audit_extends answers record ledger).verdicts ?_ distinct waiting
  simp only [Analysis.audit, notes_bind, against_get, notes_get, List.nil_append]
  by_cases present : record ∈ ledger.audit <;> simp [present, finishedIn, Event.subject?]

theorem auditAll (records : List AuditRecord) :
    Settles answers graph path [] (Analysis.auditAll records) := by
  induction records with
  | nil => exact pure ()
  | cons record rest ih => exact (audit record).bind fun _ => ih

theorem tracked {query : Query} {finding : α → Finding} (other : query.kind ≠ .sendable)
    (work : Settles answers graph path asked analysis) :
    Settles answers graph path asked (Analysis.tracked query finding analysis) := by
  have opens : Settles answers graph path [] (Analysis.report (.opened query)) := report rfl
  have closes (value : α) :
      Settles answers graph path [] (Analysis.report (.closed query (finding value))) :=
    report (if_neg other)
  exact opens.bind fun _ => work.andThen fun value => (closes value).bind fun _ => pure value

theorem forEach {γ : Type} {work : γ → Analysis (List β)} {questions : γ → List (TypeRef × ModuleId)}
    {items : List γ} (each : ∀ item ∈ items, Settles answers graph path (questions item) (work item)) :
    Settles answers graph path (items.flatMap questions) (Analysis.forEach work items) := by
  induction items with
  | nil => exact pure []
  | cons item rest ih =>
    obtain ⟨first, others⟩ := List.forall_mem_cons.mp each
    have later := ih others
    exact first.bind fun _ => later.andThen fun _ => pure _

end Settles

end Analysis

/-! ### The walk -/

namespace Walk

open Analysis (Settles)

variable {ledger : Ledger}

theorem conclude_settlement (depth : Nat) (outcome : Outcome) (distinct : ledger.Distinct)
    (waiting : ∀ key ∈ path, ledger.verdict? key = none) (unsettled : ledger.verdict? key = none)
    (free : key ∉ path) : Settlement graph path [] ledger
      ((conclude depth key outcome).against answers ledger).2
      ((conclude depth key outcome).notes answers ledger) := by
  unfold conclude
  split
  · have remembered : Settlement graph path [] ledger (ledger.remember key outcome.verdict) [] := by
      refine ⟨List.suffix_cons .., distinct.remember unsettled, ?_, by simp, [], .nil, by simp,
        by simp, rfl⟩
      intro other waits
      have different : other ≠ key := fun same => free (same ▸ waits)
      rw [Ledger.verdict?_remember_other different]
      exact waiting other waits
    have recorded : Settles answers graph path [] (do
        if outcome.verdict.isSendable then Analysis.auditAll outcome.audits
        return Outcome.settled outcome.verdict) := by
      split
      · exact (Settles.auditAll _).bind fun _ => .pure _
      · exact .pure _
    exact remembered.trans (recorded _ remembered.distinct remembered.waiting)
  · exact Settles.pure outcome ledger distinct waiting

/-- While a type is looked at, it waits itself. It may be settled then, but nothing further out is. -/
theorem look_settlement {visit : DeclId → Analysis Outcome}
    (visited : ∀ id, Settles answers graph (key :: path) [] (visit id)) (decl : Declaration)
    (distinct : ledger.Distinct) (waiting : ∀ key ∈ path, ledger.verdict? key = none)
    (unsettled : ledger.verdict? key = none) (free : key ∉ path) :
    let look := declOutcome graph options visit decl key.site >>= conclude path.length key
    Settlement graph path [] ledger (look.against answers ledger).2 (look.notes answers ledger) := by
  intro look
  have looks : Settles answers graph (key :: path) [] (declOutcome graph options visit decl key.site) :=
    Settles.sequential.declOutcome visited decl key.site
  -- The type is on its own path, so what is looked at for its sake does not settle it.
  have looked := looks ledger distinct (List.forall_mem_cons.mpr ⟨unsettled, waiting⟩)
  have still := looked.waiting key List.mem_cons_self
  have outwards := looked.inwards (List.subset_cons_self key path)
  rw [Analysis.against_bind, Analysis.notes_bind]
  exact outwards.trans (conclude_settlement _ _ outwards.distinct outwards.waiting still free)

/-- While another type waits, a look at a type counts as no work of its own. -/
theorem evaluate_waits (path : List UseSite) (key : UseSite)
    (inside : path ≠ [] → key.site ∈ homes graph options) (busy : path ≠ []) :
    Settles answers graph path [] (evaluate graph options path key inside) := by
  -- By induction on the room left, as for the verdicts.
  induction measure : roomFor graph options path using Nat.strongRecOn generalizing path key with
  | ind _ ih =>
    subst measure
    intro ledger distinct waiting
    unfold evaluate
    rw [Analysis.against_bind, Analysis.notes_bind, Analysis.against_get, Analysis.notes_get,
      List.nil_append]
    cases known : ledger.verdict? key with
    | some verdict => exact Settles.pure _ ledger distinct waiting
    | none =>
      dsimp only
      split
      · exact Settles.pure _ ledger distinct waiting
      · rename_i fresh
        split
        · exact Settles.pure _ ledger distinct waiting
        · rename_i decl found
          have free := depthOf?_eq_none fresh
          have visited (id : DeclId) := ih _ (roomFor_cons_lt graph options inside free found)
            (key :: path) ⟨id, options.moduleOf decl.id⟩ (fun _ => home_mem graph options found)
            (List.cons_ne_nil key path) rfl
          rw [tracked, if_neg (by simpa using busy)]
          exact look_settlement visited decl distinct waiting known free

/-- With nobody further out every outcome is final, so a type that is looked at is settled. -/
theorem conclude_outermost (outcome : Outcome) :
    (((conclude 0 key outcome).against answers ledger).2.verdict? key).isSome := by
  have final : outcome.isFinalAt 0 := by
    unfold Outcome.isFinalAt
    split <;> simp
  have further := (conclude_settles answers ledger key (.inr final)).2
  rw [Ledger.verdict?, further.verdicts, ← Ledger.verdict?, Ledger.verdict?_remember]
  rfl

theorem mentionedSites_nominal (key : UseSite) :
    mentionedSites graph [(.nominal key.decl, key.site)] =
      if (graph.decl? key.decl).isSome then [key] else [] := by
  cases declared : (graph.decl? key.decl).isSome <;>
    simp [mentionedSites, TypeRef.nominals, declared]

theorem look_outermost {after : Ledger} {notes : List Event} {finding : Finding}
    (step : Settlement graph [] [] ledger after notes) (declared : (graph.decl? key.decl).isSome)
    (unsettled : ledger.verdict? key = none) (settled : (after.verdict? key).isSome) :
    Settlement graph [] [(.nominal key.decl, key.site)] ledger after
      (.opened ⟨.sendable, key.decl.number⟩ ::
        (notes ++ [.closed ⟨.sendable, key.decl.number⟩ finding])) := by
  have mentioned := @mentionedSites_nominal graph key
  rw [if_pos declared] at mentioned
  refine ⟨step.grows, step.distinct, step.waiting, ?_, [key], List.nodup_singleton key, ?_, ?_, ?_⟩
  · simpa [mentioned] using settled
  · exact mentioned ▸ List.Subset.refl _
  · simpa using unsettled
  · change finishedIn .sendable (notes ++ [.closed ⟨.sendable, key.decl.number⟩ finding]) = _
    rw [finishedIn_append, step.silent]
    rfl

theorem evaluate_outermost (key : UseSite) (inside : [] ≠ [] → key.site ∈ homes graph options) :
    Settles answers graph [] [(.nominal key.decl, key.site)]
      (evaluate graph options [] key inside) := by
  intro ledger distinct waiting
  have mentioned := @mentionedSites_nominal graph key
  unfold evaluate
  rw [Analysis.against_bind, Analysis.notes_bind, Analysis.against_get, Analysis.notes_get,
    List.nil_append]
  cases known : ledger.verdict? key with
  | some verdict =>
    -- The verdict is given out again, and no look is counted.
    refine ⟨List.suffix_rfl, distinct, waiting, fun other listed => ?_, [], .nil, by simp, by simp, rfl⟩
    rw [mentioned] at listed
    split at listed
    · rw [List.mem_singleton.mp listed]
      exact Option.isSome_of_eq_some known
    · cases listed
  | none =>
    dsimp only
    split
    · rename_i depth waits
      simp [depthOf?] at waits
    · split
      · rename_i absent
        refine (Settles.pure _ ledger distinct waiting).congr fun other => ?_
        simp [mentioned, absent]
      · rename_i decl found
        have visited (id : DeclId) : Settles answers graph [key] [] (evaluate graph options [key]
            ⟨id, options.moduleOf decl.id⟩ fun _ => home_mem graph options found) :=
          evaluate_waits [key] _ _ (List.cons_ne_nil key [])
        have step := @look_settlement graph options answers [] key ledger _ visited decl distinct
          waiting known List.not_mem_nil
        rw [tracked, if_pos List.isEmpty_nil, Analysis.tracked_against, Analysis.tracked_notes]
        apply look_outermost step (Option.isSome_of_eq_some found) known
        rw [Analysis.against_bind]
        exact conclude_outermost _

def partQueries (site : ModuleId) : TypeRef.Part → List (TypeRef × ModuleId)
  | .plain _ => []
  | .nominal id => [(.nominal id, site)]

theorem mem_mentionedSites_parts (type : TypeRef) (site : ModuleId) :
    key ∈ mentionedSites graph (type.parts.flatMap (partQueries site)) ↔
      key ∈ mentionedSites graph [(type, site)] := by
  rw [mem_mentionedSites, mem_mentionedSites]
  refine and_congr_right fun _ => ⟨?_, ?_⟩
  · rintro ⟨query, asked, named, here⟩
    obtain ⟨part, listed, leads⟩ := List.mem_flatMap.mp asked
    cases part with
    | plain verdict => cases leads
    | nominal id =>
      obtain rfl := List.mem_singleton.mp leads
      obtain rfl := List.mem_singleton.mp named
      exact ⟨(type, site), List.mem_singleton_self _, (type.parts_list.nominal _).mp listed, here⟩
  · rintro ⟨query, asked, named, here⟩
    obtain rfl := List.mem_singleton.mp asked
    have listed := (type.parts_list.nominal _).mpr named
    refine ⟨(.nominal key.decl, site), List.mem_flatMap.mpr ⟨_, listed, ?_⟩, ?_, here⟩
    · exact List.mem_singleton_self _
    · exact List.mem_singleton_self _

theorem sendabilityFrom_settles (type : TypeRef) (site : ModuleId) :
    Settles answers graph [] [(type, site)] (sendabilityFrom graph options type site) := by
  let visit (id : DeclId) : Analysis Outcome :=
    evaluate graph options [] ⟨id, site⟩ fun nonempty => absurd rfl nonempty
  have each (parts : List TypeRef.Part) :
      Settles answers graph [] (parts.flatMap (partQueries site)) (partsOutcome visit parts) := by
    induction parts with
    | nil => exact .pure _
    | cons part rest ih =>
      have first : Settles answers graph [] (partQueries site part) (partOutcome visit part) := by
        cases part with
        | plain verdict => exact .pure _
        | nominal id => exact evaluate_outermost ⟨id, site⟩ _
      exact first.bind fun _ => ih.andThen fun _ => .pure _
  intro ledger distinct waiting
  have all := ((each type.parts).andThen fun outcome => .pure outcome.verdict) ledger distinct waiting
  exact all.congr fun key => mem_mentionedSites_parts type site

end Walk

end ActorIsolation
