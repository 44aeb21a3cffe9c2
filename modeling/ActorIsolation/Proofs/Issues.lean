import ActorIsolation.Proofs.Locality
import ActorIsolation.Proofs.Resolution

/-! Issues and recoveries. Where no rule could decide about a declaration there is an issue that says
why, and every issue is about a declaration for which none could, except that an ambiguity may come out
on the way to a cycle. No issue is found twice, whatever order the declarations are looked up in.
-/

set_option autoImplicit false

namespace ActorIsolation

/-- Two annotations ask for different things. Both ways to write that a declaration is not isolated
count as one. -/
def Declaration.Contradicts (decl : Declaration) : Prop :=
  ∃ one ∈ decl.annotations, ∃ other ∈ decl.annotations, one.plain ≠ other.plain

def Several (candidates : List DeclId) : Prop :=
  2 ≤ candidates.length ∧ candidates.Pairwise fun left right => left.number < right.number

/-- What is on record about a declaration that has been settled so. -/
inductive Reported (decl : Declaration) : Isolation → List ResolutionIssueKind → Prop where
  | nothing {isolation : Isolation} : ¬ decl.Contradicts → isolation.origin.isRecovery = false →
      Reported decl isolation []
  | conflict : decl.Contradicts → Reported decl (.nonisolated .conflict) [.conflictingAnnotations]
  | ambiguity {candidates : List DeclId} : ¬ decl.Contradicts → Several candidates →
      Reported decl (.nonisolated .ambiguous) [.ambiguousInference candidates]
  | cycle : ¬ decl.Contradicts → Reported decl (.nonisolated .cycle) [.cycle]
  /-- The rules had offered several global actors before the cycle was seen. -/
  | ambiguousCycle {candidates : List DeclId} : ¬ decl.Contradicts → Several candidates →
      Reported decl (.nonisolated .cycle) [.ambiguousInference candidates, .cycle]

theorem Origin.ne_of_regular {origin recovery : Origin} (regular : origin.isRecovery = false)
    (recovers : recovery.isRecovery = true) : origin ≠ recovery := by
  rintro rfl
  rw [regular] at recovers
  cases recovers

namespace Reported

variable {decl : Declaration} {isolation : Isolation} {kinds : List ResolutionIssueKind}

theorem nodup (reported : Reported decl isolation kinds) : kinds.Nodup := by
  cases reported <;> simp

theorem mem_cycle (reported : Reported decl isolation kinds) :
    .cycle ∈ kinds ↔ isolation.origin = .cycle := by
  cases reported with
  | nothing _ regular => exact iff_of_false List.not_mem_nil (Origin.ne_of_regular regular rfl)
  | _ => simp [Isolation.nonisolated]

theorem mem_conflict (reported : Reported decl isolation kinds) :
    .conflictingAnnotations ∈ kinds ↔ isolation.origin = .conflict := by
  cases reported with
  | nothing _ regular => exact iff_of_false List.not_mem_nil (Origin.ne_of_regular regular rfl)
  | _ => simp [Isolation.nonisolated]

theorem conflict_iff (reported : Reported decl isolation kinds) :
    isolation.origin = .conflict ↔ decl.Contradicts := by
  cases reported with
  | nothing consistent regular =>
    exact iff_of_false (Origin.ne_of_regular regular rfl) consistent
  | conflict contradicts => exact iff_of_true rfl contradicts
  | ambiguity consistent => exact iff_of_false Origin.noConfusion consistent
  | cycle consistent => exact iff_of_false Origin.noConfusion consistent
  | ambiguousCycle consistent => exact iff_of_false Origin.noConfusion consistent

theorem unique_ambiguity (reported : Reported decl isolation kinds)
    (ambiguous : isolation.origin = .ambiguous) :
    ∃! candidates, .ambiguousInference candidates ∈ kinds := by
  cases reported with
  | nothing _ regular => exact absurd ambiguous (Origin.ne_of_regular regular rfl)
  | @ambiguity candidates => exact ⟨candidates, by simp, by simp⟩
  | conflict => cases ambiguous
  | cycle => cases ambiguous
  | ambiguousCycle => cases ambiguous

theorem of_ambiguity (reported : Reported decl isolation kinds) {candidates : List DeclId}
    (mem : .ambiguousInference candidates ∈ kinds) :
    Several candidates ∧ (isolation.origin = .ambiguous ∨ isolation.origin = .cycle) := by
  cases reported with
  | nothing => cases mem
  | conflict => simp at mem
  | cycle => simp at mem
  | ambiguity _ several =>
    obtain rfl : candidates = _ := by simpa using mem
    exact ⟨several, .inl rfl⟩
  | ambiguousCycle _ several =>
    obtain rfl : candidates = _ := by simpa using mem
    exact ⟨several, .inr rfl⟩

theorem nonisolated (reported : Reported decl isolation kinds)
    (recovery : isolation.origin.isRecovery = true) : isolation.domain = .nonisolated := by
  cases reported with
  | nothing _ regular => exact absurd rfl (Origin.ne_of_regular regular recovery)
  | _ => rfl

end Reported

/-! ### What rulings complain about -/

/-- A ruling that either decides or finds several candidates. -/
inductive Ruling.Sober : Ruling → Prop where
  | decided {isolation : Isolation} : isolation.origin.isRecovery = false → Sober ⟨isolation, none⟩
  | ambiguous {candidates : List DeclId} : Several candidates →
      Sober ⟨.nonisolated .ambiguous, some (.ambiguousInference candidates)⟩

theorem Ruling.elect_sober {origin : Origin} (regular : origin.isRecovery = false)
    {candidates : List DeclId} {ruling : Ruling} (elected : elect origin candidates = some ruling) :
    ruling.Sober := by
  have ascends : (ascending candidates).Pairwise fun left right => left.number < right.number :=
    (ascending_ascends candidates).imp fun less => by simpa [rank, Rank.precedes] using less
  unfold elect at elected
  split at elected
  · cases elected
  · cases elected
    exact .decided regular
  · rename_i several notOne
    cases elected
    refine .ambiguous ⟨?_, ascends⟩
    rcases shape : ascending candidates with _ | ⟨first, _ | ⟨second, rest⟩⟩
    · exact absurd shape several
    · exact absurd shape (notOne first)
    · simp

namespace Rule

variable {graph : Graph} {options : Options} {decl : Declaration}

def Sober (rule : Rule) : Prop :=
  rule.EndsIn fun decision => ∀ ruling, decision = some ruling → ruling.Sober

theorem skip_sober : Sober skip := by
  intro ruling decided
  cases decided

theorem decide_sober {domain : Domain} {origin : Origin} (regular : origin.isRecovery = false) :
    Sober (decide domain origin) := by
  intro ruling decided
  cases decided
  exact .decided regular

theorem electFrom_sober {origin : Origin} (regular : origin.isRecovery = false) (ids : List DeclId) :
    Sober (electFrom origin ids) :=
  (Inquiry.endsIn_trivial _).bind fun _ _ _ elected => Ruling.elect_sober regular elected

theorem explicit_cases (decl : Declaration) : explicit decl = skip ∨
    (∃ mark : Annotation, explicit decl = decide mark.meaning.domain mark.meaning.origin) ∨
      explicit decl = pure (some ⟨.nonisolated .conflict, some .conflictingAnnotations⟩) := by
  unfold explicit
  split
  · exact .inl rfl
  · exact .inr (.inl ⟨.nonisolated, rfl⟩)
  · exact .inr (.inl ⟨.nonisolated, rfl⟩)
  · exact .inr (.inl ⟨.globalActor _, rfl⟩)
  · exact .inr (.inl ⟨.isolatedParameter "" _, rfl⟩)
  · exact .inr (.inr rfl)

theorem meaning_regular (mark : Annotation) : mark.meaning.origin.isRecovery = false := by
  cases mark <;> rfl

theorem written_of_contradicts (contradicts : decl.Contradicts) :
    Prescription.written decl = some (.nonisolated .conflict) :=
  if_pos contradicts

theorem written_of_consistent (consistent : ¬ decl.Contradicts) :
    Prescription.written decl = decl.annotations.head?.map Annotation.meaning :=
  if_neg consistent

theorem explicit_of_contradicts (contradicts : decl.Contradicts) :
    explicit decl = pure (some ⟨.nonisolated .conflict, some .conflictingAnnotations⟩) := by
  have said := opinion_explicit (fun _ => .fallback) decl
  rw [written_of_contradicts contradicts] at said
  rcases explicit_cases decl with silent | ⟨mark, decided⟩ | conflict
  · rw [silent, opinion_skip] at said
    cases said
  · rw [decided, opinion_decide] at said
    have origin : mark.meaning.origin = .conflict := congrArg Isolation.origin (Option.some.inj said)
    have regular := meaning_regular mark
    rw [origin] at regular
    cases regular
  · exact conflict

theorem explicit_sober (consistent : ¬ decl.Contradicts) : Sober (explicit decl) := by
  rcases explicit_cases decl with silent | ⟨mark, decided⟩ | conflict
  · rw [silent]
    exact skip_sober
  · rw [decided]
    exact decide_sober (meaning_regular mark)
  · have said := opinion_explicit (fun _ => .fallback) decl
    rw [conflict, written_of_consistent consistent] at said
    obtain ⟨mark, -, meant⟩ := Option.map_eq_some_iff.mp said.symm
    have regular := meaning_regular mark
    rw [meant] at regular
    cases regular

theorem closureContext_sober (inherits : Bool) : Sober (closureContext decl inherits) := by
  unfold closureContext
  split
  · exact (Inquiry.endsIn_trivial _).bind fun _ _ => decide_sober rfl
  · exact skip_sober

theorem actorMember_sober : Sober (actorMember graph decl) := by
  unfold actorMember
  split
  · split
    · exact decide_sober (by split <;> rfl)
    · exact skip_sober
  · exact skip_sober

theorem entryPoint_sober : Sober (entryPoint options decl) := by
  unfold entryPoint
  split
  · split
    · exact decide_sober rfl
    · exact skip_sober
  · exact skip_sober

theorem extensionAttribute_sober : Sober (extensionAttribute graph decl) := by
  unfold extensionAttribute
  split
  · exact skip_sober
  · split
    · exact decide_sober rfl
    · exact skip_sober

theorem enclosingType_sober : Sober (enclosingType graph decl) := by
  unfold enclosingType
  split
  · exact skip_sober
  · refine (Inquiry.endsIn_trivial _).bind fun _ _ => ?_
    split
    · split
      · exact decide_sober rfl
      · exact skip_sober
    · exact skip_sober

theorem firstOf_sober {rules : List Rule} (each : ∀ rule ∈ rules, Sober rule) :
    (firstOf rules).EndsIn Ruling.Sober := by
  induction rules with
  | nil => exact .decided rfl
  | cons rule rest ih =>
    refine (each rule List.mem_cons_self).bind fun decision sober => ?_
    cases decision with
    | none => exact ih fun later mem => each later (List.mem_cons_of_mem _ mem)
    | some ruling => exact sober ruling rfl

theorem rules_sober (consistent : ¬ decl.Contradicts) :
    ∀ rule ∈ rules graph options decl, Sober rule := by
  unfold rules
  refine List.forall_mem_cons.mpr ⟨explicit_sober consistent, ?_⟩
  cases decl.kind with
  | closure inherits =>
    simp only [List.forall_mem_singleton]
    exact closureContext_sober inherits
  | type kind =>
    have own : Sober (actorType decl) := by
      unfold actorType
      split
      · exact decide_sober rfl
      · exact skip_sober
    simp only [List.forall_mem_cons, List.not_mem_nil, false_imp_iff, implies_true, and_true]
    exact ⟨own, electFrom_sober rfl _, electFrom_sober rfl _⟩
  | function | storedProperty =>
    simp only [List.forall_mem_cons, List.not_mem_nil, false_imp_iff, implies_true, and_true]
    exact ⟨actorMember_sober, entryPoint_sober, extensionAttribute_sober, enclosingType_sober,
      electFrom_sober rfl _, electFrom_sober rfl _⟩

end Rule

section

variable {graph : Graph} {options : Options} {settled : IsolationTable} {path : List DeclId}
  {id : DeclId} {decl : Declaration} {state : Solving}

theorem ruling_sober (consistent : ¬ decl.Contradicts) :
    (decl.ruling graph options).EndsIn Ruling.Sober :=
  Rule.firstOf_sober (Rule.rules_sober consistent)

/-- Annotations that contradict each other are ruled on at once, and nothing is asked. -/
theorem ruling_of_contradicts (contradicts : decl.Contradicts) : decl.ruling graph options =
    .done ⟨.nonisolated .conflict, some .conflictingAnnotations⟩ := by
  simp [Declaration.ruling, Rule.rules, Rule.firstOf, Rule.explicit_of_contradicts contradicts]

/-! ### Conclusions -/

namespace Solving

def kindsAbout (state : Solving) (id : DeclId) : List ResolutionIssueKind :=
  (state.issues.filter (·.decl = id)).map (·.kind)

theorem mem_kindsAbout {kind : ResolutionIssueKind} :
    kind ∈ state.kindsAbout id ↔ ⟨id, kind⟩ ∈ state.issues := by
  simp only [kindsAbout, List.mem_map, List.mem_filter, decide_eq_true_eq]
  constructor
  · rintro ⟨issue, ⟨mem, rfl⟩, rfl⟩
    exact mem
  · exact fun mem => ⟨_, ⟨mem, rfl⟩, rfl⟩

theorem complaints_reported {ruling : Option Ruling} (consistent : ¬ decl.Contradicts)
    (sober : ∀ decided, ruling = some decided → decided.Sober) :
    Reported decl (state.conclude id ruling).1 (state.complaints id ruling) := by
  cases ruling with
  | none => exact .cycle consistent
  | some decided =>
    have cyclicity := em (id ∈ state.cyclic)
    cases sober decided rfl with
    | decided regular =>
      rcases cyclicity with cyclic | regularly
      · simpa [conclude, complaints, cyclic, settleCycle, settle] using Reported.cycle consistent
      · simpa [conclude, complaints, regularly, settle] using Reported.nothing consistent regular
    | ambiguous several =>
      rcases cyclicity with cyclic | regularly
      · simpa [conclude, complaints, cyclic, settleCycle, settle, complain, write] using
          Reported.ambiguousCycle consistent several
      · simpa [conclude, complaints, regularly, settle, complain, write] using
          Reported.ambiguity consistent several

/-- Every answer goes with what has to be reported, and only what waits or has an answer has been seen
to depend on itself. -/
structure Accounted (graph : Graph) (path : List DeclId) (state : Solving) : Prop where
  answers : state.Answers
  cyclic : ∀ id ∈ state.cyclic, id ∈ path ∨ id ∈ state.found.map (·.1)
  reported : ∀ entry ∈ state.found, ∃ decl, graph.decl? entry.1 = some decl ∧
    Reported decl entry.2 (state.kindsAbout entry.1)

theorem Accounted.conclude {ruling : Option Ruling} (accounted : state.Accounted graph (id :: path))
    (found : graph.decl? id = some decl) (fresh : id ∉ state.found.map (·.1))
    (reported : Reported decl (state.conclude id ruling).1 (state.complaints id ruling)) :
    (state.conclude id ruling).2.Accounted graph path := by
  obtain ⟨isolation, same, entries, cyclic, -⟩ := state.conclude_spec id ruling
  obtain ⟨issues, -⟩ := state.conclude_complaints id ruling
  rw [same] at reported
  -- No issue was about `id` before, and all the new ones are.
  have own : (state.conclude id ruling).2.kindsAbout id = state.complaints id ruling := by
    have before : state.issues.filter (·.decl = id) = [] := by
      refine List.filter_eq_nil_iff.mpr fun issue mem => ?_
      simpa using fun here : issue.decl = id => fresh (here ▸ accounted.answers issue mem)
    simp [kindsAbout, issues, before, List.filter_map, Function.comp_def]
  have others : ∀ other, other ≠ id →
      (state.conclude id ruling).2.kindsAbout other = state.kindsAbout other := by
    intro other different
    simp [kindsAbout, issues, List.filter_map, Function.comp_def, Ne.symm different]
  constructor
  · intro issue mem
    rw [issues] at mem
    rw [entries]
    rcases List.mem_append.mp mem with mem | mem
    · exact List.mem_cons_of_mem _ (accounted.answers issue mem)
    · obtain ⟨kind, -, rfl⟩ := List.mem_map.mp mem
      exact List.mem_cons_self
  · intro other mem
    rw [cyclic] at mem
    rw [entries]
    rcases accounted.cyclic other mem with waits | answered
    · rcases List.mem_cons.mp waits with rfl | waits
      · exact .inr List.mem_cons_self
      · exact .inl waits
    · exact .inr (List.mem_cons_of_mem _ answered)
  · rw [entries]
    refine List.forall_mem_cons.mpr ⟨⟨decl, found, by rwa [own]⟩, fun entry mem => ?_⟩
    have different : entry.1 ≠ id := by
      rintro rfl
      exact fresh (List.mem_map.mpr ⟨entry, mem, rfl⟩)
    rw [others entry.1 different]
    exact accounted.reported entry mem

end Solving

theorem lookUp_accounted (accounted : state.Accounted graph path) :
    (lookUp graph options settled path id state).2.Accounted graph path := by
  refine @lookUp_keepsAlong graph options settled path id state (Solving.Accounted graph)
    ?_ ?_ ?_ ?_ accounted
  · intro path id state accounted
    exact ⟨accounted.answers, fun other mem => (accounted.cyclic other mem).imp
      (List.mem_cons_of_mem _) fun answered => answered, accounted.reported⟩
  · intro path id state waits accounted
    refine ⟨accounted.answers, fun other mem => ?_, accounted.reported⟩
    rcases List.mem_append.mp mem with marked | before
    · refine .inl ?_
      rcases List.mem_append.mp marked with inner | here
      · exact (List.takeWhile_sublist _).subset inner
      · exact List.mem_singleton.mp here ▸ waits
    · exact accounted.cyclic other before
  · exact fun path state event accounted => ⟨accounted.answers, accounted.cyclic, accounted.reported⟩
  · intro path id decl state free found unknown start attempted after
    have absent : ∀ {state : Solving}, state.known? settled id = none →
        id ∉ state.found.map (·.1) := by
      intro state unknown
      rw [← lookup_isSome, (Option.or_eq_none_iff.mp unknown).2]
      exact Bool.false_ne_true
    refine after.conclude found (absent (consult_waits _ List.mem_cons_self unknown)) ?_
    by_cases contradicts : decl.Contradicts
    · -- The ruling stood before anything was asked, so `id` cannot have been seen to be cyclic.
      have regular : id ∉ state.cyclic := by
        intro cyclic
        rcases start.cyclic id cyclic with waits | answered
        · exact free waits
        · exact absent unknown answered
      have atOnce : attempted =
          (some ⟨.nonisolated .conflict, some .conflictingAnnotations⟩, state) := by
        simp only [attempted, ruling_of_contradicts contradicts]
        rfl
      rw [atOnce]
      simpa [Solving.conclude, Solving.complaints, regular, Solving.complain, Solving.write,
        Solving.settle] using Reported.conflict contradicts
    · exact Solving.complaints_reported contradicts fun decided ended =>
        (ruling_sober contradicts).attempt ended

theorem solution_accounted (graph : Graph) (options : Options) (index : Nat) :
    (solution graph options index).Accounted graph [] := by
  unfold solution solveAt
  split
  · refine solveComponent_keeps (fun _ _ _ => lookUp_accounted) (fun state event accounted => ?_) ?_
    · exact ⟨accounted.answers, accounted.cyclic, accounted.reported⟩
    · exact ⟨by simp [Solving.Answers], by simp, by simp⟩
  · exact ⟨by simp [Solving.Answers], by simp, by simp⟩

end

/-! ### The resolution of a graph -/

theorem nodup_of_filter {α β : Type} [DecidableEq α] [DecidableEq β] {values : List α} {about : α → β}
    (each : ∀ subject, (values.filter (about · = subject)).Nodup) : values.Nodup := by
  rw [List.nodup_iff_count_le_one]
  intro value
  have once := List.nodup_iff_count_le_one.mp (each (about value)) value
  rwa [List.count_filter (by simp)] at once

variable {graph : Graph} {options : Options} {resolver : Resolver}

theorem solution_issues_nodup (graph : Graph) (options : Options) (index : Nat) :
    (solution graph options index).issues.Nodup := by
  have accounted := solution_accounted graph options index
  refine @nodup_of_filter _ _ _ _ _ ResolutionIssue.decl fun id => ?_
  by_cases answered : id ∈ (solution graph options index).found.map (·.1)
  · obtain ⟨entry, mem, rfl⟩ := List.mem_map.mp answered
    obtain ⟨decl, -, reported⟩ := accounted.reported entry mem
    exact reported.nodup.of_map _
  · have none : (solution graph options index).issues.filter (·.decl = id) = [] := by
      refine List.filter_eq_nil_iff.mpr fun issue mem => ?_
      simpa using fun here : issue.decl = id => answered (here ▸ accounted.answers issue mem)
    rw [none]
    exact .nil

theorem Resolver.Progress.issues_nodup (progress : resolver.Progress graph options) :
    resolver.issues.Nodup := by
  rw [progress.issues, List.nodup_flatMap]
  refine ⟨fun index _ => solution_issues_nodup graph options index, ?_⟩
  refine (List.nodup_reverse.mpr progress.distinct).imp fun different issue first second => ?_
  -- An issue is about a member of the component where it was found.
  have here := solution_answers graph options _ issue first
  have there := solution_answers graph options _ issue second
  rw [solved graph options] at here there
  exact different (here.unique there)

/-- What the resolution says of a declaration goes with what is on record about it. -/
theorem resolution_reported {decl : Declaration} (declared : decl ∈ graph.decls) :
    ∃ kinds, Reported decl ((graph.resolution options).isolation decl.id) kinds ∧
      ∀ kind, ⟨decl.id, kind⟩ ∈ (graph.resolution options).issues ↔ kind ∈ kinds := by
  have found := Graph.decl?_of_mem declared
  obtain ⟨index, member⟩ := Graph.exists_member (Option.isSome_of_eq_some found)
  obtain ⟨isolation, kept⟩ := Option.isSome_iff_exists.mp
    (lookup_isSome.mpr ((solved graph options index decl.id).mpr member))
  obtain ⟨same, found', reported⟩ :=
    (solution_accounted graph options index).reported _ (mem_of_lookup kept)
  rw [found] at found'
  cases found'
  refine ⟨(solution graph options index).kindsAbout decl.id, ?_, fun kind => ?_⟩
  · rw [Resolution.isolation, get?_resolution_of_member member, kept]
    exact reported
  · rw [@mem_issues_resolution graph options index ⟨decl.id, kind⟩ member, Solving.mem_kindsAbout]

theorem entangled_of_cycle {decl : Declaration} (declared : decl ∈ graph.decls)
    (cyclic : ((graph.resolution options).isolation decl.id).origin = .cycle) :
    graph.Entangled decl.id := by
  rcases @resolution_justified graph options decl declared with ⟨-, entangled⟩ | prescribed
  · exact entangled
  · -- No rule speaks of cycles.
    rw [prescribed] at cyclic
    exact absurd cyclic (prescribed_origin graph options _ decl)

/-- Issues and recoveries account for each other. Whatever was asked before, a resolver that has resolved
all declarations has found no issue twice, each is about a declaration, and its sorted issues are those
of the table, which is the one worked out level by level. A declaration has a cycle, a conflict or an
ambiguity on record when that is what its isolation comes from; only on the way to a cycle may there be
an ambiguity too. A declaration is cyclic only if it depends on itself, and its annotations conflict
exactly when they contradict each other. -/
theorem issues_account_for_recoveries (graph : Graph) (options : Options) (requests : List DeclId) :
    let resolver := (Resolver.start.answers graph options requests).2.complete graph options
    let table := resolver.snapshot
    table = (Resolver.byLevels graph options).snapshot ∧
      resolver.issues.Nodup ∧ table.issues.Nodup ∧ resolver.sortedIssues = table.issues ∧
      (∀ issue, issue ∈ table.issues ↔ issue ∈ resolver.issues) ∧
      (∀ issue ∈ table.issues, (graph.decl? issue.decl).isSome) ∧
      ∀ decl ∈ graph.decls,
        let isolation := table.isolation decl.id
        (⟨decl.id, .cycle⟩ ∈ table.issues ↔ isolation.origin = .cycle) ∧
          (isolation.origin = .cycle → graph.Entangled decl.id) ∧
          (⟨decl.id, .conflictingAnnotations⟩ ∈ table.issues ↔ isolation.origin = .conflict) ∧
          (isolation.origin = .conflict ↔ decl.Contradicts) ∧
          (isolation.origin = .ambiguous →
            ∃! candidates, ⟨decl.id, .ambiguousInference candidates⟩ ∈ table.issues) ∧
          (∀ candidates, ⟨decl.id, .ambiguousInference candidates⟩ ∈ table.issues →
            Several candidates ∧ (isolation.origin = .ambiguous ∨ isolation.origin = .cycle)) ∧
          (isolation.origin.isRecovery → isolation.domain = .nonisolated) := by
  intro resolver table
  have started := (answers_follow (Resolver.progress_start graph options) requests).2
  have progress : resolver.Progress graph options := (Resolver.complete_ensures started).progress
  have same : table = graph.resolution options := Resolver.complete_snapshot started
  have distinct := progress.issues_nodup
  have injective := Rank.delimited_issue.injective
  refine ⟨same.trans (Resolver.byLevels_snapshot graph options).symm, distinct,
    (ascending_ascends _).nodup, sorted_eq_ascending injective distinct,
    fun issue => mem_ascending injective, ?_⟩
  rw [same]
  refine ⟨fun issue => issue_declared, fun decl declared => ?_⟩
  have entangled := @entangled_of_cycle graph options decl declared
  obtain ⟨kinds, reported, onRecord⟩ := @resolution_reported graph options decl declared
  simp only [onRecord]
  exact ⟨reported.mem_cycle, entangled, reported.mem_conflict, reported.conflict_iff,
    reported.unique_ambiguity, fun candidates => reported.of_ambiguity, reported.nonisolated⟩

end ActorIsolation
