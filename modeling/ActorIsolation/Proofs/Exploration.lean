import ActorIsolation.Proofs.Accounting

/-! How far the walk explores. It looks at the fields of a type up to the first that is refused, so which
types it comes to is fixed by the verdicts, as long as it does not take a type for Sendable that turns
out not to be. It does so only where a refused type leads back to itself. Elsewhere the words that end
up in the log are those that acceptable types take, as far as the walk can see them.
-/

set_option autoImplicit false

namespace ActorIsolation

namespace UseSite

open Relation (ReflTransGen TransGen)
open Walk (ruled FieldTenable)

variable (graph : Graph) (options : Options) (answers : DeclId → Isolation)

structure ByFields (decl : Declaration) (kind : TypeKind) (site : ModuleId) : Prop where
  typed : decl.typeKind? = some kind
  undecided : ruled answers decl = none
  native : ¬ (decl.sendable = .absent ∧ kind.isValueType ∧ site ≠ options.moduleOf decl.id)

/-- The walk comes from a type to the types of its fields, up to the first field that is refused. -/
inductive Sees : UseSite → UseSite → Prop where
  | field {id next : DeclId} {site : ModuleId} {decl field : Declaration} {kind : TypeKind}
      {earlier later : List Declaration} {type : TypeRef} :
      graph.decl? id = some decl → ByFields options answers decl kind site →
      countedFields graph answers decl = earlier ++ field :: later →
      (∀ before ∈ earlier,
        FieldTenable graph options answers ∅ (options.moduleOf decl.id) kind before) →
      ¬ (kind = .classType ∧ field.isMutable) → field.type = some type → next ∈ type.nominals →
      Sees ⟨id, site⟩ ⟨next, options.moduleOf decl.id⟩

/-- The word is due at an acceptable site that the walk can see from here. -/
def Owed (here : UseSite) : Set AuditRecord :=
  {record | ∃ there ∈ acceptable graph options answers,
    ReflTransGen (Sees graph options answers) here there ∧ Due graph answers there record}

def Calm (here : UseSite) : Prop :=
  ∀ there, ReflTransGen (Sees graph options answers) here there →
    there ∉ acceptable graph options answers → ¬ TransGen (Sees graph options answers) there there

variable {graph options answers} {here next there : UseSite} {record : AuditRecord}
  {assumed : Set UseSite}

theorem Calm.onwards (calm : Calm graph options answers here)
    (sees : Sees graph options answers here next) : Calm graph options answers next :=
  fun there leads => calm there (leads.head sees)

theorem Tenable.acceptable (tenable : Tenable graph options answers assumed here)
    (right : assumed ⊆ acceptable graph options answers) :
    here ∈ UseSite.acceptable graph options answers := by
  obtain ⟨held, inside, closed⟩ := tenable
  rw [← tenable_empty]
  refine ⟨held ∪ UseSite.acceptable graph options answers, .inl inside, ?_⟩
  rw [Set.empty_union]
  have below {set : Set UseSite} (wider : set ⊆ held ∪ UseSite.acceptable graph options answers) :=
    (demand graph options answers).monotone wider
  have acceptableBelow := below Set.subset_union_right
  rw [UseSite.acceptable, OrderHom.map_gfp, ← UseSite.acceptable] at acceptableBelow
  rintro site (mem | mem)
  · rcases closed mem with mem | met
    · exact acceptableBelow (right mem)
    · exact below Set.subset_union_left met
  · exact acceptableBelow mem

theorem fieldTenable_of_right {home : ModuleId} {kind : TypeKind} {field : Declaration}
    (tenable : FieldTenable graph options answers assumed home kind field)
    (right : assumed ⊆ acceptable graph options answers) :
    FieldTenable graph options answers ∅ home kind field := by
  obtain ⟨constant, type, typed, parts⟩ := tenable
  refine ⟨constant, type, typed, fun part mem => ?_⟩
  have holds := parts part mem
  cases part with
  | plain verdict => exact holds
  | nominal id =>
    rw [Walk.PartTenable, tenable_empty]
    exact Tenable.acceptable holds right

theorem Sees.pointsTo (sees : Sees graph options answers here next)
    (accepted : here ∈ acceptable graph options answers) : PointsTo graph options answers here next := by
  obtain ⟨found, byFields, fields, -, -, typed, mentioned⟩ := sees
  obtain ⟨isType, unaccepted, -⟩ := Walk.open_of_ruled byFields.undecided
  have unrefused : ¬ RefusedAtSight graph options answers _ _ :=
    fun refused => not_acceptable_of_bad (.refused found isType unaccepted refused) accepted
  have counts := mem_countedFields.mp (fields ▸ List.mem_append_right _ List.mem_cons_self)
  exact .field found isType unaccepted unrefused counts typed mentioned

theorem pointsTo_of_sees (leads : ReflTransGen (Sees graph options answers) here there)
    (accepted : here ∈ acceptable graph options answers) :
    ReflTransGen (PointsTo graph options answers) here there ∧
      there ∈ acceptable graph options answers := by
  induction leads with
  | refl => exact ⟨.refl, accepted⟩
  | tail _ sees ih =>
    have points := sees.pointsTo ih.2
    exact ⟨ih.1.tail points, acceptable_of_pointsTo ih.2 points⟩

theorem Owed.of_sees (sees : Sees graph options answers here next)
    (owed : record ∈ Owed graph options answers next) : record ∈ Owed graph options answers here := by
  obtain ⟨there, accepted, leads, due⟩ := owed
  exact ⟨there, accepted, leads.head sees, due⟩

theorem Owed.cases_refused (owed : record ∈ Owed graph options answers here)
    (refused : here ∉ acceptable graph options answers) :
    ∃ next, Sees graph options answers here next ∧ record ∈ Owed graph options answers next := by
  obtain ⟨there, accepted, leads, due⟩ := owed
  rcases leads.cases_head with rfl | ⟨next, sees, leads⟩
  · exact absurd accepted refused
  · exact ⟨next, sees, there, accepted, leads, due⟩

/-- Where an accepted type upholds its words, none that it owes is missing. -/
theorem Upheld.owed {log : List AuditRecord}
    (upheld : Upheld graph options answers (Covered graph answers log) ∅ here)
    (accepted : here ∈ acceptable graph options answers)
    (owed : record ∈ Owed graph options answers here) : record ∈ log := by
  obtain ⟨there, -, leads, due⟩ := owed
  exact upheld.reached (pointsTo_of_sees leads accepted).1 record due

end UseSite

namespace Walk

open Relation (ReflTransGen TransGen)
open UseSite
open Analysis (Accounts Yields)

variable {graph : Graph} {options : Options} {answers : DeclId → Isolation}

/-! ### What is waiting -/

def Descends (graph : Graph) (options : Options) (answers : DeclId → Isolation)
    (path : List UseSite) : Prop :=
  path.Pairwise fun inner outer => TransGen (Sees graph options answers) outer inner

theorem Descends.cons {key next : UseSite} {path : List UseSite}
    (descends : Descends graph options answers (key :: path))
    (sees : Sees graph options answers key next) :
    Descends graph options answers (next :: key :: path) := by
  refine List.pairwise_cons.mpr ⟨fun waiting mem => ?_, descends⟩
  rcases List.mem_cons.mp mem with rfl | mem
  · exact .single sees
  · exact ((List.pairwise_cons.mp descends).1 waiting mem).tail sees

theorem Descends.leaned {path : List UseSite} (descends : Descends graph options answers path)
    {key other : UseSite} {depth : Nat} (waiting : depthOf? key path = some depth)
    (leans : other ∈ leaned path (some depth)) :
    ReflTransGen (Sees graph options answers) key other := by
  obtain ⟨further, found, outer, mem, within⟩ := leans
  obtain rfl := Option.mem_some_iff.mp mem
  induction path with
  | nil => simp [depthOf?] at waiting
  | cons first rest ih =>
    obtain ⟨leads, descendsRest⟩ := List.pairwise_cons.mp descends
    unfold depthOf? at waiting found
    split at waiting
    · rename_i same
      subst same
      cases waiting
      split at found
      · rename_i same
        rw [same]
      · have inside := depthOf?_lt found
        omega
    · split at found
      · rename_i same
        rw [← same]
        exact (leads key (mem_of_depthOf? waiting)).to_reflTransGen
      · exact ih descendsRest waiting found

structure Leans (graph : Graph) (options : Options) (answers : DeclId → Isolation)
    (path : List UseSite) (outcome : Outcome) : Prop where
  within : ∀ outer ∈ outcome.leansOn, outer < path.length
  right : leaned path outcome.leansOn ⊆ acceptable graph options answers

namespace Leans

variable {path : List UseSite} {key : UseSite} {first second outcome : Outcome}

theorem settled {verdict : Sendability} : Leans graph options answers path (.settled verdict) where
  within := by simp [Outcome.settled]
  right := by simp [Outcome.settled]

theorem join (leans : Leans graph options answers path first)
    (others : Leans graph options answers path second) :
    Leans graph options answers path (first.join second) := by
  constructor
  · intro outer mem
    have left := leans.within
    have right := others.within
    unfold Outcome.join at mem
    cases one : first.leansOn <;> cases other : second.leansOn <;>
      simp only [one, other, Option.mem_def, Option.some.injEq, reduceCtorEq] at mem left right
    · exact right outer mem
    · exact left outer mem
    · have bound := left _ rfl
      omega
  · rw [leaned_join]
    exact Set.union_subset leans.right others.right

/-- A type that is met again while it waits leads back to itself, so it is acceptable if all is calm. -/
theorem waiting {depth : Nat} (descends : Descends graph options answers (key :: path))
    (calm : Calm graph options answers key) (waits : depthOf? key path = some depth) :
    Leans graph options answers path { verdict := .sendable, leansOn := some depth } := by
  obtain ⟨leads, descendsRest⟩ := List.pairwise_cons.mp descends
  have accepted : key ∈ acceptable graph options answers := by
    by_contra refused
    exact calm key .refl refused (leads key (mem_of_depthOf? waits))
  constructor
  · rintro outer ⟨⟩
    exact depthOf?_lt waits
  · intro other leaned
    exact (pointsTo_of_sees (Descends.leaned descendsRest waits leaned) accepted).2

theorem innermost (leans : Leans graph options answers path outcome) (some : outcome.leansOn ≠ none) :
    ∃ waiting ∈ path.head?, waiting ∈ acceptable graph options answers := by
  obtain ⟨outer, found⟩ := Option.ne_none_iff_exists'.mp some
  have bound := leans.within outer found
  cases path with
  | nil => simp at bound
  | cons key rest =>
    refine ⟨key, rfl, leans.right ⟨rest.length, by simp [depthOf?], outer, found, ?_⟩⟩
    simpa [Nat.lt_succ_iff] using bound

/-- An outcome that does not lean on the type itself leans on those further out. -/
theorem pass (leans : Leans graph options answers (key :: path) outcome)
    (open_ : ¬ outcome.isFinalAt path.length) : Leans graph options answers path outcome := by
  constructor
  · intro outer mem
    rw [Option.mem_def] at mem
    simpa [Outcome.isFinalAt, mem] using open_
  · rintro other ⟨depth, found, outer, mem, within⟩
    by_cases same : key = other
    · have bound := depthOf?_lt found
      exact leans.right ⟨path.length, by simp [depthOf?, same], outer, mem, by omega⟩
    · exact leans.right ⟨depth, by simp [depthOf?, same, found], outer, mem, within⟩

end Leans

/-! ### Parts and fields -/

/-- A ledger in order that also has the words which the walk came to on its way to a refusal. -/
structure Explored (graph : Graph) (options : Options) (answers : DeclId → Isolation)
    (ledger : Ledger) : Prop where
  audited : Audited graph options answers (fun _ => True) ledger
  refused : ∀ entry ∈ ledger.verdicts, entry.2 = .notSendable →
    ∀ record ∈ Owed graph options answers entry.1, record ∈ ledger.audit

namespace Explored

variable {ledger : Ledger} {record : AuditRecord}

theorem empty : Explored graph options answers {} := ⟨.empty, by simp⟩

theorem owed {key : UseSite} {verdict : Sendability} (explored : Explored graph options answers ledger)
    (mem : (key, verdict) ∈ ledger.verdicts) (owed : record ∈ Owed graph options answers key) :
    record ∈ ledger.audit := by
  by_cases refusal : verdict = .notSendable
  · exact explored.refused _ mem refusal record owed
  · have tenable := (explored.audited.honest _ mem).tenable refusal _ (List.mem_singleton_self _)
    rw [PartTenable, tenable_empty] at tenable
    exact (explored.audited.upheld _ mem refusal).owed tenable owed

theorem enter (explored : Explored graph options answers ledger) (record : AuditRecord) :
    Explored graph options answers (ledger.enter record) := by
  have further : ledger.Extends [record] (ledger.enter record) := by
    refine ⟨rfl, fun other => ?_, fun ascends => ascends.insertAscending⟩
    rw [Ledger.enter, mem_insertAscending Rank.delimited_record.injective, List.mem_singleton]
    exact or_comm
  refine ⟨explored.audited.extend further fun _ _ => True.intro, fun entry mem refusal other owed => ?_⟩
  exact further.grows (explored.refused entry mem refusal other owed)

end Explored

section

variable {path : List UseSite} {site home : ModuleId} {visit : DeclId → Analysis Outcome}
  {key : UseSite} {decl : Declaration} {kind : TypeKind} {before ledger after : Ledger}

/-- What comes of looking at parts: the outcome leans on acceptable types only, all words are owed, and
none is missing unless the walk may still come to it. -/
structure Survey (graph : Graph) (options : Options) (answers : DeclId → Isolation)
    (path : List UseSite) (site : ModuleId) (parts : List TypeRef.Part) (owed : Set AuditRecord)
    (before : Ledger) (outcome : Outcome) (after : Ledger) : Prop where
  leans : Leans graph options answers path outcome
  audits : ∀ record ∈ outcome.audits, record ∈ owed
  entered : ∀ record ∈ after.audit, record ∈ before.audit ∨ record ∈ owed
  exhausts : (∀ waiting ∈ path.head?, waiting ∉ acceptable graph options answers) →
    ∀ id, .nominal id ∈ parts → ∀ record ∈ Owed graph options answers ⟨id, site⟩,
      record ∈ after.audit

namespace Survey

variable {parts rest : List TypeRef.Part} {owed wider : Set AuditRecord} {first second : Outcome}
  {middle : Ledger}

theorem mono {outcome : Outcome}
    (survey : Survey graph options answers path site parts owed before outcome after)
    (widen : owed ⊆ wider) :
    Survey graph options answers path site parts wider before outcome after where
  leans := survey.leans
  audits record mem := widen (survey.audits record mem)
  entered record mem := (survey.entered record mem).imp_right (@widen record)
  exhausts := survey.exhausts

theorem settled {verdict : Sendability}
    (exhausts : ∀ id, .nominal id ∈ parts → ∀ record ∈ Owed graph options answers ⟨id, site⟩,
      record ∈ ledger.audit) :
    Survey graph options answers path site parts owed ledger (.settled verdict) ledger where
  leans := .settled
  audits := by simp [Outcome.settled]
  entered _ mem := .inl mem
  exhausts _ := exhausts

theorem join (survey : Survey graph options answers path site parts owed before first middle)
    (others : Survey graph options answers path site rest owed middle second after)
    (grows : middle.audit ⊆ after.audit) :
    Survey graph options answers path site (parts ++ rest) owed before (first.join second) after where
  leans := survey.leans.join others.leans
  audits record mem := (List.mem_append.mp mem).elim (survey.audits record) (others.audits record)
  entered record mem := (others.entered record mem).elim (survey.entered record) .inr
  exhausts nobody id mem record owed := (List.mem_append.mp mem).elim
    (fun mem => grows (survey.exhausts nobody id mem record owed))
    (fun mem => others.exhausts nobody id mem record owed)

end Survey

theorem partsOutcome_surveys {owed : Set AuditRecord} (parts : List TypeRef.Part)
    (visits : ∀ id, .nominal id ∈ parts → ∀ ledger, Explored graph options answers ledger →
      Accounts answers (Explored graph options answers) ledger
        (Survey graph options answers path site [.nominal id] owed ledger) (visit id))
    (explored : Explored graph options answers ledger) :
    Accounts answers (Explored graph options answers) ledger
      (Survey graph options answers path site parts owed ledger) (partsOutcome visit parts) := by
  induction parts generalizing ledger with
  | nil => exact .pure explored (.settled (by simp))
  | cons part rest ih =>
    have first : Accounts answers (Explored graph options answers) ledger
        (Survey graph options answers path site [part] owed ledger) (partOutcome visit part) := by
      cases part with
      | plain verdict => exact .pure explored (.settled (by simp))
      | nominal id => exact visits id List.mem_cons_self ledger explored
    refine first.bind fun outcome middle exploredMiddle _ survey => ?_
    refine (ih (fun id mem => visits id (List.mem_cons_of_mem _ mem)) exploredMiddle).bind
      fun others last exploredLast grows surveyOthers => ?_
    exact .pure exploredLast (survey.join surveyOthers grows)

/-- The same for the fields of a type. A word taken for a field is owed if the type is acceptable. -/
structure FieldsSurvey (graph : Graph) (options : Options) (answers : DeclId → Isolation)
    (path : List UseSite) (key : UseSite) (before : Ledger) (outcome : Outcome) (after : Ledger) :
    Prop where
  leans : Leans graph options answers (key :: path) outcome
  audits : ∀ record ∈ outcome.audits, key ∈ acceptable graph options answers →
    record ∈ Owed graph options answers key
  entered : ∀ record ∈ after.audit,
    record ∈ before.audit ∨ record ∈ Owed graph options answers key

/-- If the type is refused, the walk has seen all that it can see through this field. -/
def FieldExhausted (graph : Graph) (options : Options) (answers : DeclId → Isolation) (key : UseSite)
    (home : ModuleId) (kind : TypeKind) (log : List AuditRecord) (field : Declaration) : Prop :=
  key ∉ acceptable graph options answers → ¬ (kind = .classType ∧ field.isMutable) →
    ∀ type, field.type = some type → ∀ next ∈ type.nominals,
      ∀ record ∈ Owed graph options answers ⟨next, home⟩, record ∈ log

theorem FieldExhausted.mono {kind : TypeKind} {field : Declaration} {log larger : List AuditRecord}
    (exhausted : FieldExhausted graph options answers key home kind log field)
    (subset : log ⊆ larger) : FieldExhausted graph options answers key home kind larger field :=
  fun refused constant type typed next mentioned _ owed =>
    subset (exhausted refused constant type typed next mentioned _ owed)

def RefusalExhausted (graph : Graph) (options : Options) (answers : DeclId → Isolation)
    (key : UseSite) (outcome : Outcome) (log : List AuditRecord) : Prop :=
  outcome.verdict = .notSendable → key ∉ acceptable graph options answers →
    ∀ record ∈ Owed graph options answers key, record ∈ log

namespace FieldsSurvey

theorem settled {verdict : Sendability} :
    FieldsSurvey graph options answers path key ledger (.settled verdict) ledger where
  leans := .settled
  audits := by simp [Outcome.settled]
  entered _ mem := .inl mem

theorem join {first second : Outcome}
    (survey : FieldsSurvey graph options answers path key before first ledger)
    (others : FieldsSurvey graph options answers path key ledger second after) :
    FieldsSurvey graph options answers path key before (first.join second) after where
  leans := survey.leans.join others.leans
  audits record mem := (List.mem_append.mp mem).elim (survey.audits record) (others.audits record)
  entered record mem := (others.entered record mem).elim (survey.entered record) .inr

theorem refuse {first second : Outcome}
    (survey : FieldsSurvey graph options answers path key before first ledger)
    (others : FieldsSurvey graph options answers path key ledger second after) :
    FieldsSurvey graph options answers path key before (.settled .notSendable) after where
  leans := .settled
  audits := by simp [Outcome.settled]
  entered := (survey.join others).entered

end FieldsSurvey

theorem acceptByWord_surveys {field : Declaration} {type : TypeRef} {outcome : Outcome}
    (found : graph.decl? key.decl = some decl) (undecided : ruled answers decl = none)
    (counts : Counts graph answers decl field) (typed : field.type = some type)
    (survey : Survey graph options answers (key :: path) home type.parts
      (Owed graph options answers key) before outcome ledger)
    (explored : Explored graph options answers ledger) :
    Accounts answers (Explored graph options answers) ledger
      (fun accepted after => ledger = after ∧
        FieldsSurvey graph options answers path key before accepted ledger)
      (acceptByWord graph decl.id field.id type outcome) := by
  obtain ⟨isType, unaccepted, -⟩ := open_of_ruled undecided
  unfold acceptByWord
  split
  · refine (Accounts.of_yields (fun _ => uncheckedAssertions_yields type) explored).bind ?_
    rintro asserted _ - - ⟨words, rfl⟩
    refine .pure explored ⟨rfl, ⟨survey.leans.within, survey.leans.right⟩, ?_, survey.entered⟩
    intro record mem accepted
    rcases List.mem_append.mp mem with mem | mem
    · exact survey.audits record mem
    · obtain ⟨id, listedId, rfl⟩ := List.mem_map.mp mem
      obtain ⟨mentioned, word⟩ := (words id).mp listedId
      exact ⟨key, accepted, .refl, .field found isType unaccepted counts (.word typed mentioned word)⟩
  · exact .pure explored ⟨rfl, survey.leans, fun record mem _ => survey.audits record mem, survey.entered⟩

structure SurveyVisits (graph : Graph) (options : Options) (answers : DeclId → Isolation)
    (path : List UseSite) (key : UseSite) (home : ModuleId) (visit : DeclId → Analysis Outcome) :
    Prop where
  yields : ∀ id, Yields answers (Honest graph options answers)
    (Holds graph options answers (key :: path) home [.nominal id]) (visit id)
  surveys : ∀ id, Sees graph options answers key ⟨id, home⟩ → ∀ ledger,
    Explored graph options answers ledger → Accounts answers (Explored graph options answers) ledger
      (Survey graph options answers (key :: path) home [.nominal id]
        (Owed graph options answers ⟨id, home⟩) ledger) (visit id)

variable {seen rest : List Declaration} {field : Declaration}

theorem fieldOutcome_surveys (found : graph.decl? key.decl = some decl)
    (byFields : ByFields options answers decl kind key.site)
    (visits : SurveyVisits graph options answers path key (options.moduleOf decl.id) visit)
    (fields : guarded answers kind field = false →
      countedFields graph answers decl = seen ++ field :: rest)
    (tenable : ∀ earlier ∈ seen,
      FieldTenable graph options answers ∅ (options.moduleOf decl.id) kind earlier)
    (explored : Explored graph options answers ledger) :
    Accounts answers (Explored graph options answers) ledger
      (fun result after => (result = none ∧ guarded answers kind field = true ∧ ledger = after) ∨
        ∃ outcome, result = some outcome ∧ guarded answers kind field = false ∧
          FieldsSurvey graph options answers path key ledger outcome after ∧
          FieldExhausted graph options answers key (options.moduleOf decl.id) kind after.audit field)
      (fieldOutcome graph visit decl.id kind field) := by
  refine (Accounts.of_yields (fun _ => isGuarded_yields field) explored).bind ?_
  rintro _ _ - - ⟨rfl, rfl⟩
  split
  · rename_i guards
    exact .pure explored (.inl ⟨rfl, guards, rfl⟩)
  · rename_i unguarded
    rw [Bool.not_eq_true] at unguarded
    split
    · rename_i changes
      simp only [Bool.and_eq_true, decide_eq_true_eq] at changes
      exact .pure explored (.inr ⟨_, rfl, unguarded, .settled, fun _ constant => absurd changes constant⟩)
    · rename_i constant
      simp only [Bool.and_eq_true, decide_eq_true_eq] at constant
      split
      · rename_i untyped
        refine .pure explored (.inr ⟨_, rfl, unguarded, .settled, fun _ _ type typed => ?_⟩)
        simp [untyped] at typed
      · rename_i type typed
        have sees {id : DeclId} (mentioned : id ∈ type.nominals) :
            Sees graph options answers key ⟨id, options.moduleOf decl.id⟩ :=
          .field found byFields (fields unguarded) tenable constant typed mentioned
        have looked : Accounts answers (Explored graph options answers) ledger
            (Survey graph options answers (key :: path) (options.moduleOf decl.id) type.parts
              (Owed graph options answers key) ledger) (partsOutcome visit type.parts) := by
          refine partsOutcome_surveys type.parts (fun id part ledger explored => ?_) explored
          have seesId := sees (((TypeRef.parts_list type).nominal id).mp part)
          exact (visits.surveys id seesId ledger explored).imp
            fun _ _ _ _ survey => survey.mono fun _ => Owed.of_sees seesId
        refine looked.bind fun outcome middle exploredMiddle _ survey => ?_
        have counts : Counts graph answers decl field :=
          mem_countedFields.mp (by simp [fields unguarded])
        refine (acceptByWord_surveys found byFields.undecided counts typed survey exploredMiddle).bind ?_
        rintro accepted _ - - ⟨rfl, fieldSurvey⟩
        refine .pure exploredMiddle (.inr ⟨accepted, rfl, unguarded, fieldSurvey, ?_⟩)
        intro refused _ other otherTyped next mentioned
        cases typed.symm.trans otherTyped
        exact survey.exhausts (by simpa using refused) next
          (((TypeRef.parts_list type).nominal next).mpr mentioned)

theorem mem_of_split {α : Type} {before after front back : List α} {first second : α}
    (same : before ++ first :: after = front ++ second :: back) :
    first ∈ front ∨ first = second ∨ second ∈ before := by
  rcases List.append_eq_append_iff.mp same with ⟨middle, rfl, tail⟩ | ⟨middle, rfl, tail⟩
  · cases middle with
    | nil =>
      cases tail
      exact .inr (.inl rfl)
    | cons item middle =>
      cases tail
      exact .inl (by simp)
  · cases middle with
    | nil =>
      cases tail
      exact .inr (.inl rfl)
    | cons item middle =>
      cases tail
      exact .inr (.inr (by simp))

/-- The walk stops at the first refused field, so from a refused type it sees no further. -/
theorem exhausted_of_refused (found : graph.decl? key.decl = some decl)
    (byFields : ByFields options answers decl kind key.site)
    (fields : countedFields graph answers decl = seen ++ field :: rest) {log : List AuditRecord}
    (untenable : ¬ FieldTenable graph options answers ∅ (options.moduleOf decl.id) kind field)
    (exhausted : ∀ earlier ∈ seen ++ [field], FieldExhausted graph options answers key
      (options.moduleOf decl.id) kind log earlier)
    (refused : key ∉ acceptable graph options answers) :
    ∀ record ∈ Owed graph options answers key, record ∈ log := by
  intro record owed
  obtain ⟨next, sees, owedNext⟩ := Owed.cases_refused owed refused
  obtain @⟨_, _, _, _, other, _, _, _, _, present, judged, split, tenable, constant, typed,
    mentioned⟩ := sees
  cases found.symm.trans present
  cases byFields.typed.symm.trans judged.typed
  have reached : other ∈ seen ++ [field] := by
    rcases mem_of_split (split.symm.trans fields) with mem | rfl | mem
    · exact List.mem_append_left _ mem
    · exact List.mem_append_right _ (List.mem_singleton_self _)
    · exact absurd (tenable field mem) untenable
  exact exhausted other reached refused constant _ typed _ mentioned record owedNext

theorem fieldsOutcome_surveys (found : graph.decl? key.decl = some decl)
    (byFields : ByFields options answers decl kind key.site)
    (visits : SurveyVisits graph options answers path key (options.moduleOf decl.id) visit)
    (fields seen : List Declaration) (outcome : Outcome) (sendable : outcome.verdict = .sendable)
    (all : countedFields graph answers decl = seen ++ fields.filter (!guarded answers kind ·))
    (tenable : ∀ earlier ∈ seen,
      FieldTenable graph options answers ∅ (options.moduleOf decl.id) kind earlier)
    (exhausted : ∀ earlier ∈ seen, FieldExhausted graph options answers key
      (options.moduleOf decl.id) kind ledger.audit earlier)
    (survey : FieldsSurvey graph options answers path key before outcome ledger)
    (explored : Explored graph options answers ledger) :
    Accounts answers (Explored graph options answers) ledger
      (fun final after => FieldsSurvey graph options answers path key before final after ∧
        RefusalExhausted graph options answers key final after.audit)
      (fieldsOutcome graph visit decl.id kind fields outcome) := by
  induction fields generalizing outcome seen ledger with
  | nil => exact .pure explored ⟨survey, by simp [RefusalExhausted, sendable]⟩
  | cons field rest ih =>
    have here (unguarded : guarded answers kind field = false) :
        countedFields graph answers decl =
          seen ++ field :: rest.filter (!guarded answers kind ·) := by
      simpa [unguarded] using all
    have looked := (fieldOutcome_surveys found byFields visits here tenable explored).and_yields
      (fieldOutcome_yields visits.yields field) explored.audited.honest
    refine looked.bind fun result middle exploredMiddle grows cases => ?_
    rcases cases with ⟨holds, ⟨rfl, guards, rfl⟩ | ⟨next, rfl, unguarded, fieldSurvey, fieldExhausted⟩⟩
    · exact ih seen outcome sendable (by simpa [guards] using all) tenable exhausted survey explored
    · obtain ⟨other, same, -, fieldHolds⟩ := holds.resolve_left (by simp)
      cases same
      have exhaustedMiddle : ∀ earlier ∈ seen ++ [field], FieldExhausted graph options answers key
          (options.moduleOf decl.id) kind middle.audit earlier :=
        List.forall_mem_append.mpr ⟨fun earlier mem => (exhausted earlier mem).mono grows,
          List.forall_mem_singleton.mpr fieldExhausted⟩
      have joined : (outcome.join next).verdict = next.verdict := by
        simp [Outcome.join, sendable]
      dsimp only
      rw [joined]
      split
      · rename_i refusal
        obtain ⟨other, mem, untenable⟩ := fieldHolds.refused refusal
        rw [List.mem_singleton.mp mem] at untenable
        refine .pure exploredMiddle ⟨survey.refuse fieldSurvey, fun _ => ?_⟩
        exact exhausted_of_refused found byFields (here unguarded) untenable exhaustedMiddle
      · rename_i accepted
        -- What the field leans on is acceptable, so it is tenable as it stands.
        obtain ⟨sendableNext, fieldTenable⟩ := fieldHolds.tenable accepted
        have tenableField := fieldTenable_of_right
          (fieldTenable field (List.mem_singleton_self field)) fieldSurvey.leans.right
        exact ih (seen ++ [field]) (outcome.join next) (joined.trans sendableNext)
          (by simpa using here unguarded)
          (List.forall_mem_append.mpr ⟨tenable, List.forall_mem_singleton.mpr tenableField⟩)
          exhaustedMiddle (survey.join fieldSurvey) exploredMiddle

/-! ### The walk -/

theorem byFields_of_owed {record : AuditRecord} (found : graph.decl? key.decl = some decl)
    (owed : record ∈ Owed graph options answers key)
    (refused : key ∉ acceptable graph options answers) :
    ∃ kind, ByFields options answers decl kind key.site := by
  obtain ⟨next, sees, -⟩ := Owed.cases_refused owed refused
  obtain ⟨present, judged, -⟩ := sees
  cases found.symm.trans present
  exact ⟨_, judged⟩

theorem declOutcome_surveys (found : graph.decl? key.decl = some decl)
    (visits : ruled answers decl = none →
      SurveyVisits graph options answers path key (options.moduleOf decl.id) visit)
    (explored : Explored graph options answers ledger) :
    Accounts answers (Explored graph options answers) ledger
      (fun outcome after => FieldsSurvey graph options answers path key ledger outcome after ∧
        RefusalExhausted graph options answers key outcome after.audit)
      (declOutcome graph options visit decl key.site) := by
  have atSight {verdict : Sendability}
      (decided : ∀ kind, ¬ ByFields options answers decl kind key.site) :
      Accounts answers (Explored graph options answers) ledger
        (fun outcome after => FieldsSurvey graph options answers path key ledger outcome after ∧
          RefusalExhausted graph options answers key outcome after.audit)
        (pure (.settled verdict)) := by
    refine .pure explored ⟨.settled, fun _ refused record owed => ?_⟩
    obtain ⟨kind, byFields⟩ := byFields_of_owed found owed refused
    exact absurd byFields (decided kind)
  unfold declOutcome
  split
  · rename_i untyped
    refine atSight fun kind byFields => ?_
    cases untyped.symm.trans byFields.typed
  · rename_i kind typed
    refine (Accounts.of_yields (fun _ => byRule_yields decl) explored).bind ?_
    rintro _ _ - - ⟨rfl, rfl⟩
    split
    · rename_i verdict decided
      refine atSight fun kind byFields => ?_
      cases decided.symm.trans byFields.undecided
    · rename_i undecided
      split
      · rename_i foreign
        simp only [Bool.and_eq_true, decide_eq_true_eq, and_assoc] at foreign
        refine atSight fun other byFields => ?_
        cases typed.symm.trans byFields.typed
        exact byFields.native foreign
      · rename_i native
        simp only [Bool.and_eq_true, decide_eq_true_eq, and_assoc] at native
        exact fieldsOutcome_surveys found ⟨typed, undecided, native⟩ (visits undecided)
          (graph.storedFields decl.id) [] (.settled .sendable) rfl (countedFields_eq typed)
          (by simp) (by simp) .settled explored

theorem Explored.settle {outcome : Outcome} (explored : Explored graph options answers ledger)
    (final : outcome.verdict = .notSendable ∨ outcome.isFinalAt path.length)
    (holds : Holds graph options answers path key.site [.nominal key.decl] outcome)
    (relies : Accounted graph options answers path key.site [.nominal key.decl] outcome ledger)
    (complete : RefusalExhausted graph options answers key outcome ledger.audit)
    (further : (ledger.remember key outcome.verdict).Extends
      (if outcome.verdict.isSendable then outcome.audits else []) after) :
    Explored graph options answers after := by
  refine ⟨explored.audited.settle (fun _ _ => True.intro) final holds relies further, ?_⟩
  intro entry mem refusal record owed
  rw [further.verdicts] at mem
  apply further.grows
  rcases List.mem_cons.mp mem with rfl | mem
  · obtain ⟨part, mem, untenable⟩ := (holds.supports_of_final final).refused refusal
    rw [List.mem_singleton.mp mem, PartTenable, tenable_empty] at untenable
    exact complete refusal untenable record owed
  · exact explored.refused entry mem refusal record owed

theorem conclude_surveys {outcome : Outcome}
    (holds : Holds graph options answers path key.site [.nominal key.decl] outcome)
    (relies : Accounted graph options answers path key.site [.nominal key.decl] outcome ledger)
    (survey : FieldsSurvey graph options answers path key before outcome ledger)
    (complete : RefusalExhausted graph options answers key outcome ledger.audit)
    (explored : Explored graph options answers ledger) :
    Accounts answers (Explored graph options answers) ledger
      (Survey graph options answers path key.site [.nominal key.decl]
        (Owed graph options answers key) before)
      (conclude path.length key outcome) := by
  by_cases final : outcome.verdict = .notSendable ∨ outcome.isFinalAt path.length
  · obtain ⟨value, further⟩ := conclude_settles answers ledger key final
    have exploredAfter := explored.settle final holds relies complete further
    refine ⟨exploredAfter, further.grows, ?_⟩
    rw [value]
    refine ⟨.settled, by simp [Outcome.settled], fun record mem => ?_, fun _ id mem record owed => ?_⟩
    · rcases (further.mem_audit record).mp mem with mem | mem
      · exact survey.entered record mem
      · split at mem
        · rename_i sends
          have unrefused : outcome.verdict ≠ .notSendable := by
            intro refusal
            simp [refusal, Sendability.isSendable] at sends
          have accepted := (holds.supports_of_final final).tenable unrefused _
            (List.mem_singleton_self _)
          rw [PartTenable, tenable_empty] at accepted
          exact .inr (survey.audits record mem accepted)
        · cases mem
    · obtain rfl : id = key.decl := by simpa using mem
      have remembered : (key, outcome.verdict) ∈
          ((conclude path.length key outcome).against answers ledger).2.verdicts := by
        rw [further.verdicts]
        exact List.mem_cons_self
      exact exploredAfter.owed remembered owed
  · rw [not_or] at final
    unfold conclude
    rw [if_neg (by simpa using final)]
    have leans := survey.leans.pass final.2
    have accepted : key ∈ acceptable graph options answers :=
      Tenable.acceptable (holds.tenable final.1 _ (List.mem_singleton_self _)) leans.right
    refine .pure explored ⟨leans, fun record mem => survey.audits record mem accepted, survey.entered, ?_⟩
    -- Somebody further out is leaned on, so the innermost of those who wait is acceptable.
    intro nobody
    have leaning : outcome.leansOn ≠ none := fun none => final.2 (by simp [Outcome.isFinalAt, none])
    obtain ⟨waiting, first, acceptedToo⟩ := leans.innermost leaning
    exact absurd acceptedToo (nobody waiting first)

theorem evaluate_visits {justified : AuditRecord → Prop}
    (warrant : ∀ record, Warranted graph options answers ∅ record → justified record)
    (found : graph.decl? key.decl = some decl)
    (undecided : ∀ waiting ∈ path, ¬ RestsOnWord graph answers waiting.decl)
    (open_ : ruled answers decl = none) :
    Visits graph options answers justified (key :: path) (options.moduleOf decl.id) fun id =>
      evaluate graph options (key :: path) ⟨id, options.moduleOf decl.id⟩
        fun _ => home_mem graph options found where
  yields id := evaluate_yields _ ⟨id, options.moduleOf decl.id⟩ _ (undecided_cons found open_ undecided)
  accounts id _ audited := evaluate_accounts warrant _ ⟨id, options.moduleOf decl.id⟩ _
    (undecided_cons found open_ undecided) audited

theorem evaluate_surveys (path : List UseSite) (key : UseSite)
    (inside : path ≠ [] → key.site ∈ homes graph options)
    (undecided : ∀ waiting ∈ path, ¬ RestsOnWord graph answers waiting.decl)
    (descends : Descends graph options answers (key :: path)) (calm : Calm graph options answers key)
    (explored : Explored graph options answers ledger) :
    Accounts answers (Explored graph options answers) ledger
      (Survey graph options answers path key.site [.nominal key.decl]
        (Owed graph options answers key) ledger)
      (evaluate graph options path key inside) := by
  induction measure : roomFor graph options path using Nat.strongRecOn generalizing path key ledger with
  | ind _ ih =>
    subst measure
    unfold evaluate
    refine (Accounts.get explored).bind ?_
    rintro _ _ - - ⟨rfl, rfl⟩
    cases known : ledger.verdict? key with
    | some verdict =>
      refine .pure explored (.settled fun id mem record owed => ?_)
      obtain rfl : id = key.decl := by simpa using mem
      exact explored.owed (mem_of_lookup known) owed
    | none =>
      dsimp only
      split
      · rename_i depth waiting
        have leans := Leans.waiting descends calm waiting
        refine .pure explored ⟨leans, by simp, fun _ mem => .inl mem, fun nobody => ?_⟩
        obtain ⟨other, first, accepted⟩ := leans.innermost (by simp)
        exact absurd accepted (nobody other first)
      · rename_i fresh
        split
        · rename_i absent
          refine .pure explored (.settled fun id mem record owed => ?_)
          obtain rfl : id = key.decl := by simpa using mem
          obtain ⟨next, sees, -⟩ :=
            Owed.cases_refused owed (not_acceptable_of_bad (.undeclared absent))
          obtain ⟨present, -⟩ := sees
          cases absent.symm.trans present
        · rename_i decl found
          have visits (open_ : ruled answers decl = none) : SurveyVisits graph options answers path key
              (options.moduleOf decl.id) fun id =>
                evaluate graph options (key :: path) ⟨id, options.moduleOf decl.id⟩
                  fun _ => home_mem graph options found :=
            { yields := (evaluate_visits (fun _ _ => True.intro) found undecided open_).yields
              surveys := fun id sees _ exploredThen =>
                ih _ (roomFor_cons_lt graph options inside (depthOf?_eq_none fresh) found) _
                  ⟨id, options.moduleOf decl.id⟩ _ (undecided_cons found open_ undecided)
                  (descends.cons sees) (calm.onwards sees) exploredThen rfl }
          have looked := (declOutcome_surveys found visits explored).and_accounts
            (declOutcome_accounts found (evaluate_visits (fun _ _ => True.intro) found undecided)
              explored.audited)
          have concluded := looked.bind fun outcome middle exploredMiddle _ result =>
            conclude_surveys result.1.1 result.1.2 result.2.1 result.2.2 exploredMiddle
          unfold tracked
          split
          · exact concluded.tracked _ _
          · exact concluded

/-- Calm types put the words they owe into the log, and nothing else, whatever was asked before. -/
theorem sendabilityFrom_surveys (type : TypeRef) (site : ModuleId)
    (calm : ∀ id ∈ type.nominals, Calm graph options answers ⟨id, site⟩)
    (explored : Explored graph options answers ledger) :
    Accounts answers (Explored graph options answers) ledger
      (fun verdict after => verdict = verdictOn graph options answers type site ∧
        ∀ record, record ∈ after.audit ↔ record ∈ ledger.audit ∨
          ∃ id ∈ type.nominals, record ∈ Owed graph options answers ⟨id, site⟩)
      (sendabilityFrom graph options type site) := by
  let owed : Set AuditRecord :=
    {record | ∃ id ∈ type.nominals, record ∈ Owed graph options answers ⟨id, site⟩}
  have listed (id : DeclId) := (TypeRef.parts_list type).nominal id
  have visits : ∀ id, .nominal id ∈ type.parts → ∀ ledger, Explored graph options answers ledger →
      Accounts answers (Explored graph options answers) ledger
        (Survey graph options answers [] site [.nominal id] owed ledger)
        (evaluate graph options [] ⟨id, site⟩ fun nonempty => absurd rfl nonempty) := by
    intro id part ledger explored
    have mentioned := (listed id).mp part
    refine (evaluate_surveys [] ⟨id, site⟩ _ (by simp) (List.pairwise_singleton _ _)
      (calm id mentioned) explored).imp fun _ _ _ _ survey => ?_
    exact survey.mono fun record owes => ⟨id, mentioned, owes⟩
  have looked : Accounts answers (Explored graph options answers) ledger
      (fun _ after => ∀ record, record ∈ after.audit ↔ record ∈ ledger.audit ∨ record ∈ owed)
      (sendabilityFrom graph options type site) := by
    refine (partsOutcome_surveys type.parts visits explored).bind
      fun outcome after exploredAfter grows survey => ?_
    refine .pure exploredAfter fun record => ⟨survey.entered record, ?_⟩
    rintro (mem | ⟨id, mentioned, owes⟩)
    · exact grows mem
    · exact survey.exhausts (by simp) id ((listed id).mpr mentioned) record owes
  refine (looked.and_yields (sendabilityFrom_yields type site) explored.audited.honest).imp
    fun verdict after _ _ result => ?_
  exact ⟨result.1.eq_verdictOn, result.2⟩

end

end Walk

end ActorIsolation
