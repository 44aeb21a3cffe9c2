import ActorIsolation.Proofs.Boundary
import ActorIsolation.Proofs.Checker
import ActorIsolation.Proofs.History

/-! What a report says of calls and of the words it takes. The violations at a call are those that the
rules demand there. No word is taken without a record, and no record is there without a reason.
-/

set_option autoImplicit false

namespace ActorIsolation

theorem filter_flatMap {α β γ : Type} [DecidableEq γ] {items : List α} {found : α → List β}
    {key : α → γ} {about : β → γ} (distinct : (items.map key).Nodup)
    (owned : ∀ item, ∀ value ∈ found item, about value = key item) {item : α} (mem : item ∈ items) :
    (items.flatMap found).filter (about · = key item) = found item := by
  induction items with
  | nil => cases mem
  | cons first rest ih =>
    obtain ⟨fresh, distinctRest⟩ := List.nodup_cons.mp distinct
    rw [List.flatMap_cons, List.filter_append]
    rcases List.mem_cons.mp mem with rfl | mem
    · have own : (found item).filter (about · = key item) = found item :=
        List.filter_eq_self.mpr fun value mem => by simpa using owned item value mem
      have others : (rest.flatMap found).filter (about · = key item) = [] := by
        refine List.filter_eq_nil_iff.mpr fun value mem => ?_
        obtain ⟨other, listed, mem⟩ := List.mem_flatMap.mp mem
        have different : key other ≠ key item :=
          fun same => fresh (List.mem_map.mpr ⟨other, listed, same⟩)
        simpa [owned other value mem] using different
      rw [own, others, List.append_nil]
    · have foreign : (found first).filter (about · = key item) = [] := by
        refine List.filter_eq_nil_iff.mpr fun value listed => ?_
        have different : key first ≠ key item :=
          fun same => fresh (same ▸ List.mem_map.mpr ⟨item, mem, rfl⟩)
        simpa [owned first value listed] using different
      rw [foreign, List.nil_append, ih distinctRest mem]

def Session.verdict (graph : Graph) (options : Options) (resolution : Resolution) (type : TypeRef)
    (site : ModuleId) : Sendability :=
  (Session.run graph options (sendabilityFrom graph options type site)
    { source := .table resolution }).1

theorem Session.verdict_eq (graph : Graph) (options : Options) (resolution : Resolution) :
    Session.verdict graph options resolution =
      UseSite.verdictOn graph options resolution.isolation := by
  funext type site
  have run := (Session.run_table graph options resolution (sendabilityFrom graph options type site)
    { source := .table resolution } rfl).1
  exact run.trans (Walk.sendabilityFrom_yields type site {} (by simp [Walk.Honest])).1.eq_verdictOn

open Boundary

variable (graph : Graph) (options : Options)

theorem edgeIds_nodup : (graph.edges.map fun edge => Subject.edge edge.id).Nodup := by
  refine List.pairwise_map.mpr (graph.edges_ascending.imp fun less same => ?_)
  injection same with same
  rw [same] at less
  exact Nat.lt_irrefl _ less

/-- What every pass finds at calls and puts on record. -/
theorem Pass.findings_spec :
    let isolation := (graph.resolution options).isolation
    let findings := Pass.findings graph options
    (∃ atDecls, (∀ violation ∈ atDecls, AtDecl violation) ∧ findings.violations =
        Violation.sort (atDecls ++ graph.edges.flatMap fun edge =>
          demanded graph options isolation edge (transferred graph edge))) ∧
      AllOnRecord graph options isolation (UseSite.verdictOn graph options isolation)
        findings.audit ∧
      (∀ record ∈ findings.audit,
        Justified graph options isolation (UseSite.verdictOn graph options isolation) record) ∧
      findings.audit.Nodup := by
  intro isolation findings
  have start : InOrder graph options isolation {} := .empty
  have accounts := Pass.examination_accounts start
  exact ⟨accounts.result.1, accounts.result.2, accounts.kept.justified, accounts.kept.ascends.nodup⟩

variable {graph options} {checker : Checker}

/-- The violations that a report has about a call edge are, but for their order, those that the rules
demand there for the values that the call hands over. -/
theorem violations_at_call (created : Checker.create graph options = .ok checker)
    (requests : List Checker.Request) {report : Report}
    (reported : report ∈ checker.reports requests) {edge : CallEdge} (listed : edge ∈ graph.edges) :
    (∃ values, HandsOver graph edge values) ∧ ∀ values, HandsOver graph edge values →
      (report.violations.filter (·.subject = .edge edge.id)).Perm
        (demanded graph options report.resolution.isolation edge values) := by
  obtain ⟨findings, resolved⟩ := Checker.findings_of_mem created reported
  obtain ⟨⟨atDecls, declared, found⟩, -⟩ := Pass.findings_spec graph options
  refine ⟨⟨_, handsOver_transferred listed⟩, fun values hands => ?_⟩
  rw [findings, resolved, found, hands.eq_transferred]
  have sorted := (sortOn_perm Violation.order (atDecls ++ graph.edges.flatMap fun edge =>
    demanded graph options (graph.resolution options).isolation edge (transferred graph edge))).filter
      (·.subject = .edge edge.id)
  have elsewhere : atDecls.filter (·.subject = .edge edge.id) = [] := by
    refine List.filter_eq_nil_iff.mpr fun violation mem => ?_
    obtain ⟨id, subject⟩ := declared violation mem
    simp [subject]
  rw [List.filter_append, elsewhere, List.nil_append,
    filter_flatMap (edgeIds_nodup graph) (fun _ _ => subject_of_demanded) listed] at sorted
  exact sorted

def storeCall : CallEdge :=
  { id := ⟨0⟩, caller := ⟨5⟩, callee := ⟨6⟩,
    arguments := [⟨"entry", .nominal ⟨2⟩⟩, ⟨"done", .function false⟩] }

/-- An entry that leads to further entries and to a cache, for which only its author's word is taken. The
entry point hands one over, together with a function, and does not wait; the latest cache is a global
variable. -/
def vouchedCache : Graph where
  decls :=
    [{ id := ⟨0⟩, name := "Main", kind := .type .actor, isGlobalActor := true },
      { id := ⟨1⟩, name := "Cache", kind := .type .classType, sendable := .unchecked },
      { id := ⟨2⟩, name := "Entry", kind := .type .struct },
      { id := ⟨3⟩, name := "cache", kind := .storedProperty, enclosing := some ⟨2⟩,
        type := some (.nominal ⟨1⟩) },
      { id := ⟨4⟩, name := "next", kind := .storedProperty, enclosing := some ⟨2⟩,
        type := some (.optional (.nominal ⟨2⟩)) },
      { id := ⟨5⟩, name := "main", kind := .function, isEntryPoint := true },
      { id := ⟨6⟩, name := "store", kind := .function, isAsync := true },
      { id := ⟨7⟩, name := "latest", kind := .storedProperty, isMutable := true,
        type := some (.nominal ⟨1⟩) }]
  extensions := [{ id := ⟨0⟩, extended := ⟨2⟩ }]
  edges := [storeCall]
  plan := _
  plan_eq := rfl
  decls_ascending := by decide
  extensions_ascending := by decide
  edges_ascending := by decide
  sound := by decide +kernel

def mainFirst : Options := { entryPointActor := some ⟨0⟩ }

theorem vouchedCache_created :
    Checker.create vouchedCache mainFirst = .ok ⟨vouchedCache, mainFirst, {}⟩ := rfl

theorem vouchedCache_reported :
    ∃ report, report ∈ Checker.reports ⟨vouchedCache, mainFirst, {}⟩ [.check] :=
  ⟨_, List.mem_cons_self⟩

theorem storeCall_crosses :
    vouchedCache.Crosses (vouchedCache.resolution mainFirst).isolation storeCall :=
  .asynchronous (by decide +kernel) rfl rfl (by decide +kernel)

theorem storeCall_handsOver : HandsOver vouchedCache storeCall
    [⟨.argument, "entry", .nominal ⟨2⟩⟩, ⟨.argument, "done", .function false⟩] := by
  refine .silent fun type returns => ?_
  cases returns with
  | declared declared => cases declared
  | stored _ found stored _ =>
    cases found
    cases stored

/-- The call has to be awaited and must not hand over the function. Nothing is wrong with the entry. -/
theorem vouchedCache_violations_at_call :
    ∃ checker report missing conflicting, Checker.create vouchedCache mainFirst = .ok checker ∧
      report ∈ checker.reports [.check] ∧
      (report.violations.filter (·.subject = .edge ⟨0⟩)).Perm [missing, conflicting] ∧
      missing.category = .missingSuspension ∧ missing.value = none ∧
      conflicting.category = .concurrentAccess ∧
      conflicting.value = some ⟨.argument, "done", .function false⟩ := by
  obtain ⟨report, reported⟩ := vouchedCache_reported
  have demands := (violations_at_call vouchedCache_created [.check] reported
    (List.mem_singleton_self storeCall)).2 _ storeCall_handsOver
  have resolved : report.resolution = vouchedCache.resolution mainFirst :=
    (Checker.findings_of_mem vouchedCache_created reported).2
  have entry : demandedFor vouchedCache mainFirst (vouchedCache.resolution mainFirst).isolation storeCall
      ⟨.argument, "entry", .nominal ⟨2⟩⟩ = [] := by
    rw [demandedFor, if_neg]
    rw [UseSite.leadsToBad_iff, ← Session.verdict_eq]
    decide +kernel
  rw [resolved, demanded, if_pos storeCall_crosses, if_neg (by decide), List.flatMap_cons, entry,
    List.nil_append, List.flatMap_singleton, demandedFor, if_pos (.inl rfl)] at demands
  exact ⟨_, report, _, _, vouchedCache_created, reported, demands, rfl, rfl, rfl, rfl⟩

/-- No word is taken in silence. Shared state whose author vouches for it has a record. The words that
shared state and the values handed over at calls rely on have records too: those for the types
themselves, and those that the types take for their fields, however deep. -/
theorem words_on_record (created : Checker.create graph options = .ok checker)
    (requests : List Checker.Request) {report : Report}
    (reported : report ∈ checker.reports requests) :
    AllOnRecord graph options report.resolution.isolation
      (Session.verdict graph options report.resolution) report.audit := by
  obtain ⟨findings, resolved⟩ := Checker.findings_of_mem created reported
  obtain ⟨-, recorded, -⟩ := Pass.findings_spec graph options
  rw [Session.verdict_eq, findings, resolved]
  exact recorded

/-- The global variable takes the author's word for its value, and the entry that is handed over takes it
for a field. -/
theorem vouchedCache_words_on_record :
    ∃ checker report, Checker.create vouchedCache mainFirst = .ok checker ∧
      report ∈ checker.reports [.check] ∧ ⟨⟨1⟩, .sharedMutable ⟨7⟩⟩ ∈ report.audit ∧
      ⟨⟨1⟩, .field ⟨2⟩ ⟨3⟩⟩ ∈ report.audit := by
  obtain ⟨report, reported⟩ := vouchedCache_reported
  have recorded := words_on_record vouchedCache_created [.check] reported
  rw [(Checker.findings_of_mem vouchedCache_created reported).2] at recorded
  have word : UseSite.RestsOnWord vouchedCache (vouchedCache.resolution mainFirst).isolation ⟨1⟩ :=
    ⟨_, rfl, rfl, by decide, by decide +kernel, rfl⟩
  have latest := recorded.decls
    { id := ⟨7⟩, name := "latest", kind := .storedProperty, isMutable := true,
      type := some (.nominal ⟨1⟩) } (by decide)
  have typed := latest.typed ⟨by decide, rfl, rfl, by decide +kernel, .topLevel rfl⟩ (by decide) _ rfl
    (by decide +kernel)
  have handed := recorded.edges storeCall (by decide) storeCall_crosses _ storeCall_handsOver _
    (List.mem_cons_self ..) (by decide +kernel)
  have unguarded : ((vouchedCache.resolution mainFirst).isolation ⟨2⟩).domain.isGlobalActor = false := by
    decide +kernel
  have unaccepted : ¬ UseSite.AcceptedAtSight (vouchedCache.resolution mainFirst).isolation
      (vouchedCache.decls.get ⟨2, by decide⟩) := by
    intro accepted
    cases accepted with
    | actor kind => cases kind
    | globalActor global => cases unguarded.symm.trans global
    | unchecked word => cases word
    | checkedProtocol checked => cases checked
  have counts : UseSite.Counts vouchedCache (vouchedCache.resolution mainFirst).isolation
      (vouchedCache.decls.get ⟨2, by decide⟩) (vouchedCache.decls.get ⟨3, by decide⟩) :=
    ⟨Graph.mem_storedFields.mp (by decide), fun kind => by cases kind⟩
  have cached := handed.fields ⟨2⟩ (by decide) _ .refl _
    (.field rfl rfl unaccepted counts (.word rfl (by decide) word))
  exact ⟨_, _, vouchedCache_created, reported, typed.own ⟨1⟩ (by decide) word, cached⟩

/-- Every record of a report has a reason, and none is there twice. -/
theorem records_justified (created : Checker.create graph options = .ok checker)
    (requests : List Checker.Request) {report : Report}
    (reported : report ∈ checker.reports requests) :
    (∀ record ∈ report.audit, Justified graph options report.resolution.isolation
      (Session.verdict graph options report.resolution) record) ∧ report.audit.Nodup := by
  obtain ⟨findings, resolved⟩ := Checker.findings_of_mem created reported
  obtain ⟨-, -, justified, distinct⟩ := Pass.findings_spec graph options
  rw [Session.verdict_eq, findings, resolved]
  exact ⟨justified, distinct⟩

theorem vouchedCache_records_justified :
    ∃ checker report, Checker.create vouchedCache mainFirst = .ok checker ∧
      report ∈ checker.reports [.check] ∧
      report.audit = [⟨⟨1⟩, .field ⟨2⟩ ⟨3⟩⟩, ⟨⟨1⟩, .sharedMutable ⟨7⟩⟩] ∧
      ∀ record ∈ report.audit, Justified vouchedCache mainFirst report.resolution.isolation
        (Session.verdict vouchedCache mainFirst report.resolution) record := by
  obtain ⟨report, reported⟩ := vouchedCache_reported
  obtain ⟨justified, -⟩ := records_justified vouchedCache_created [.check] reported
  refine ⟨_, report, vouchedCache_created, reported, ?_, justified⟩
  rw [(Checker.findings_of_mem vouchedCache_created reported).1]
  decide +kernel

end ActorIsolation
