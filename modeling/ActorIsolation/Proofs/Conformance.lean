import ActorIsolation.Proofs.History

/-! Checked assertions of being Sendable, verified and put to use. The verification looks at every field
on its own and lists all that is wrong, while a verdict stops at the first fault it meets and takes for
granted what it is already looking at. They agree: something is listed for a type exactly when no module
may send it.
-/

set_option autoImplicit false

namespace ActorIsolation

open Analysis (Yields)
open UseSite

/-! ### Lists -/

/-- The list has each value with the property once, and no other. -/
structure Enumerates {α : Type} (holds : α → Prop) (values : List α) : Prop where
  nodup : values.Nodup
  mem_iff : ∀ value, value ∈ values ↔ holds value

namespace Enumerates

variable {α : Type} {holds others : α → Prop} {values more : List α}

theorem nil (never : ∀ value, ¬ holds value) : Enumerates holds [] :=
  ⟨.nil, fun value => iff_of_false List.not_mem_nil (never value)⟩

theorem singleton_if {condition : Prop} [Decidable condition] {value : α} :
    Enumerates (fun other => condition ∧ other = value) (if condition then [value] else []) := by
  by_cases met : condition
  · rw [if_pos met]
    exact ⟨List.nodup_singleton value, by simp [met]⟩
  · rw [if_neg met]
    exact .nil fun other both => met both.1

theorem singleton_unless {condition : Prop} [Decidable condition] {value : α} :
    Enumerates (fun other => ¬ condition ∧ other = value) (if condition then [] else [value]) := by
  rw [← ite_not]
  exact singleton_if

theorem append (first : Enumerates holds values) (second : Enumerates others more)
    (apart : ∀ value, holds value → ¬ others value) :
    Enumerates (fun value => holds value ∨ others value) (values ++ more) where
  nodup := List.nodup_append'.mpr ⟨first.nodup, second.nodup, fun value inFirst inSecond =>
    apart value ((first.mem_iff value).mp inFirst) ((second.mem_iff value).mp inSecond)⟩
  mem_iff value := by rw [List.mem_append, first.mem_iff, second.mem_iff]

theorem perm (enumerates : Enumerates holds values) (perm : more.Perm values) :
    Enumerates holds more :=
  ⟨perm.nodup_iff.mpr enumerates.nodup, fun value => perm.mem_iff.trans (enumerates.mem_iff value)⟩

theorem congr (enumerates : Enumerates holds values) (same : ∀ value, holds value ↔ others value) :
    Enumerates others values :=
  ⟨enumerates.nodup, fun value => (enumerates.mem_iff value).trans (same value)⟩

end Enumerates

theorem Analysis.Yields.forEach_enumerates {α β : Type} {answers : DeclId → Isolation}
    {kept : Ledger → Prop} {work : α → Analysis (List β)} {items : List α} {holds : α → β → Prop}
    (each : ∀ item ∈ items, Yields answers kept (Enumerates (holds item)) (work item))
    (apart : items.Pairwise fun left right => ∀ value, holds left value → ¬ holds right value) :
    Yields answers kept (Enumerates fun value => ∃ item ∈ items, holds item value)
      (Analysis.forEach work items) := by
  induction items with
  | nil => exact .pure (.nil (by simp))
  | cons item rest ih =>
    obtain ⟨fromItem, fromRest⟩ := List.pairwise_cons.mp apart
    refine (each item List.mem_cons_self).bind fun first enumerated => ?_
    refine (ih (fun other mem => each other (List.mem_cons_of_mem _ mem)) fromRest).bind
      fun others enumeratedOthers => .pure ?_
    refine (enumerated.append enumeratedOthers ?_).congr (by simp)
    rintro value here ⟨other, mem, there⟩
    exact fromItem other mem value here there

/-! ### Faults -/

namespace Declaration

/-- Actors, protocols and the types of a global actor do not answer for their fields. -/
def IsExempt (isolation : DeclId → Isolation) (decl : Declaration) : Prop :=
  decl.typeKind? = some .actor ∨ decl.typeKind? = some .protocol ∨
    (isolation decl.id).domain.isGlobalActor

inductive FieldFails (options : Options) (verdict : TypeRef → ModuleId → Sendability)
    (decl field : Declaration) : SendableIssueKind → Prop where
  | mutableField : decl.typeKind? = some .classType → field.isMutable →
      FieldFails options verdict decl field (.mutableField field.id)
  | nonSendableField {type : TypeRef} : field.type = some type →
      verdict type (options.moduleOf decl.id) = .notSendable →
      FieldFails options verdict decl field (.nonSendableField field.id)

inductive FailsOn (graph : Graph) (options : Options) (isolation : DeclId → Isolation)
    (verdict : TypeRef → ModuleId → Sendability) (decl : Declaration) : SendableIssueKind → Prop where
  | subclassable : decl.typeKind? = some .classType → decl.isFinal = false →
      FailsOn graph options isolation verdict decl .subclassable
  | field {field : Declaration} {fault : SendableIssueKind} :
      Counts graph isolation decl field → decl.FieldFails options verdict field fault →
      FailsOn graph options isolation verdict decl fault

end Declaration

/-- The issue names what is wrong with a type of the graph that asserts to be Sendable and has to answer
for it. -/
def SendableIssue.Arises (graph : Graph) (options : Options) (isolation : DeclId → Isolation)
    (verdict : TypeRef → ModuleId → Sendability) (issue : SendableIssue) : Prop :=
  ∃ decl ∈ graph.decls, issue.type = decl.id ∧ decl.sendable = .checked ∧ decl.isType ∧
    ¬ decl.IsExempt isolation ∧ decl.FailsOn graph options isolation verdict issue.kind

section

variable {graph : Graph} {options : Options} {answers : DeclId → Isolation} {decl : Declaration}
  {kind : TypeKind} {site : ModuleId}

/-! ### What is listed -/

theorem counts_iff {field : Declaration} (type : decl.typeKind? = some kind) :
    Counts graph answers decl field ↔
      field ∈ graph.storedFields decl.id ∧ Walk.guarded answers kind field = false := by
  rw [← mem_countedFields, Walk.countedFields_eq type, List.mem_filter, Bool.not_eq_true']

theorem isSendable_iff {verdict : Sendability} : verdict.isSendable ↔ verdict ≠ .notSendable := by
  cases verdict <;> simp [Sendability.isSendable]

theorem fieldIssues_yields {field : Declaration} (type : decl.typeKind? = some kind)
    (stored : field ∈ graph.storedFields decl.id) :
    Yields answers (Walk.Honest graph options answers)
      (Enumerates fun issue => Walk.guarded answers kind field = false ∧ issue.type = decl.id ∧
        decl.FieldFails options (verdictOn graph options answers) field issue.kind)
      (Conformance.fieldIssues graph options decl.id kind field) := by
  obtain ⟨fieldType, typed⟩ := (Graph.mem_storedFields.mp stored).typed
  refine (Walk.isGuarded_yields field).bind fun guarded same => ?_
  subst same
  cases unguarded : Walk.guarded answers kind field with
  | true => exact .pure (.nil (by simp))
  | false =>
    rw [if_neg Bool.false_ne_true, Conformance.fieldSendability, typed]
    refine (Walk.verdict_yields fieldType _).bind fun verdict same => .pure ?_
    refine Enumerates.congr (Enumerates.append Enumerates.singleton_if Enumerates.singleton_unless ?_)
      fun issue => ?_
    · rintro _ ⟨-, rfl⟩ ⟨-, different⟩
      cases different
    · rw [isSendable_iff, not_not, same]
      constructor
      · rintro (⟨both, rfl⟩ | ⟨refused, rfl⟩)
        · obtain ⟨isClass, isMutable⟩ : kind = .classType ∧ field.isMutable := by simpa using both
          exact ⟨rfl, rfl, .mutableField (isClass ▸ type) isMutable⟩
        · exact ⟨rfl, rfl, .nonSendableField typed refused⟩
      · obtain ⟨owner, fault⟩ := issue
        rintro ⟨-, rfl, fails⟩
        cases fails with
        | mutableField isClass isMutable =>
          cases type.symm.trans isClass
          exact .inl ⟨by simpa using isMutable, rfl⟩
        | nonSendableField alsoTyped refused =>
          cases typed.symm.trans alsoTyped
          exact .inr ⟨refused, rfl⟩

theorem Declaration.FieldFails.names {verdict : TypeRef → ModuleId → Sendability}
    {field : Declaration} {fault : SendableIssueKind}
    (fails : decl.FieldFails options verdict field fault) :
    fault = .mutableField field.id ∨ fault = .nonSendableField field.id := by
  cases fails with
  | mutableField => exact .inl rfl
  | nonSendableField => exact .inr rfl

theorem Declaration.FieldFails.unique {verdict : TypeRef → ModuleId → Sendability}
    {field other : Declaration} {fault : SendableIssueKind}
    (first : decl.FieldFails options verdict field fault)
    (second : decl.FieldFails options verdict other fault) : field.id = other.id := by
  rcases first.names with rfl | rfl
  · simpa using second.names
  · simpa using second.names

theorem Graph.storedFields_distinct (graph : Graph) (type : DeclId) :
    (graph.storedFields type).Pairwise fun left right => left.id ≠ right.id := by
  refine ((graph.decls_ascending.filter _).filter _).imp fun less same => ?_
  rw [same] at less
  exact Nat.lt_irrefl _ less

theorem isIsolatedType_yields {kept : Ledger → Prop} (kind : TypeKind) (decl : Declaration) :
    Yields answers kept
      (fun isolated : Bool => isolated = true ↔ kind = .actor ∨
        (answers decl.id).domain.isGlobalActor)
      (Conformance.isIsolatedType kind decl) := by
  unfold Conformance.isIsolatedType
  split
  · rename_i actor
    exact .pure (by simp [actor])
  · rename_i other
    refine (Yields.domain decl.id).bind fun domain same => .pure ?_
    simp [other, same]

theorem faults_enumerated {verdict : TypeRef → ModuleId → Sendability} {fields : List SendableIssue}
    (type : decl.typeKind? = some kind)
    (enumerated : Enumerates (fun issue => ∃ field ∈ graph.storedFields decl.id,
      Walk.guarded answers kind field = false ∧ issue.type = decl.id ∧
        decl.FieldFails options verdict field issue.kind) fields) :
    Enumerates
      (fun issue => issue.type = decl.id ∧ decl.FailsOn graph options answers verdict issue.kind)
      ((if kind = .classType && !decl.isFinal then [⟨decl.id, .subclassable⟩] else []) ++ fields) := by
  refine Enumerates.congr (Enumerates.append Enumerates.singleton_if enumerated ?_) fun issue => ?_
  · rintro _ ⟨-, rfl⟩ ⟨field, -, -, -, fails⟩
    cases fails
  · constructor
    · rintro (⟨both, rfl⟩ | ⟨field, stored, unguarded, same, fails⟩)
      · obtain ⟨isClass, isOpen⟩ : kind = .classType ∧ decl.isFinal = false := by simpa using both
        exact ⟨rfl, .subclassable (isClass ▸ type) isOpen⟩
      · exact ⟨same, .field ((counts_iff type).mpr ⟨stored, unguarded⟩) fails⟩
    · obtain ⟨owner, fault⟩ := issue
      rintro ⟨rfl, wrong⟩
      cases wrong with
      | subclassable isClass isOpen =>
        cases type.symm.trans isClass
        exact .inl ⟨by simpa using isOpen, rfl⟩
      | field counted fails =>
        obtain ⟨stored, unguarded⟩ := (counts_iff type).mp counted
        exact .inr ⟨_, stored, unguarded, rfl, fails⟩

/-- All that is wrong with a declaration is listed for it once, and nothing else. -/
theorem declIssues_yields (decl : Declaration) :
    Yields answers (Walk.Honest graph options answers)
      (Enumerates fun issue => issue.type = decl.id ∧ decl.sendable = .checked ∧ decl.isType ∧
        ¬ decl.IsExempt answers ∧
          decl.FailsOn graph options answers (verdictOn graph options answers) issue.kind)
      (Conformance.declIssues graph options decl) := by
  unfold Conformance.declIssues
  split
  · rename_i kind checked type
    have isType : decl.isType := by simp [Declaration.isType, type]
    refine (isIsolatedType_yields kind decl).bind fun isolated isolates => ?_
    have exempt : (kind = .protocol || isolated) ↔ decl.IsExempt answers := by
      simp [Declaration.IsExempt, type, isolates, or_left_comm]
    split
    · rename_i holds
      exact .pure (.nil fun issue wrong => wrong.2.2.2.1 (exempt.mp holds))
    · rename_i answerable
      rw [exempt] at answerable
      refine (Yields.forEach_enumerates (fun field => fieldIssues_yields type) ?_).bind
        fun fields enumerated => .pure ((faults_enumerated type enumerated).congr fun issue => ?_)
      · refine (graph.storedFields_distinct decl.id).imp fun different issue first second => ?_
        exact different (first.2.2.unique second.2.2)
      · simp [checked, isType, answerable]
  · rename_i other
    refine .pure (.nil ?_)
    rintro issue ⟨-, checked, isType, -⟩
    obtain ⟨kind, type⟩ := Option.isSome_iff_exists.mp isType
    exact other kind checked type

theorem conformanceIssues_sorted :
    Yields answers (Walk.Honest graph options answers)
      (fun issues => ∃ listed, issues = sorted listed ∧
        Enumerates (·.Arises graph options answers (verdictOn graph options answers)) listed)
      (conformanceIssues graph options) := by
  refine Yields.bind (.forEach_enumerates (fun decl _ => declIssues_yields decl) ?_)
    fun listed enumerated => .pure ⟨listed, rfl, enumerated⟩
  refine graph.decls_ascending.imp fun less issue first second => ?_
  rw [first.1.symm.trans second.1] at less
  exact Nat.lt_irrefl _ less

theorem conformanceIssues_enumerates :
    Yields answers (Walk.Honest graph options answers)
      (Enumerates (·.Arises graph options answers (verdictOn graph options answers)))
      (conformanceIssues graph options) := by
  refine conformanceIssues_sorted.imp ?_
  rintro _ ⟨listed, rfl, enumerated⟩
  exact enumerated.perm (sortOn_perm _ _)

/-! ### What is refused -/

theorem acceptable_iff {here : UseSite} : here ∈ acceptable graph options answers ↔
    ¬ Bad graph options answers here ∧
      ∀ next, PointsTo graph options answers here next → next ∈ acceptable graph options answers := by
  constructor
  · exact fun accepted => ⟨fun bad => not_acceptable_of_bad bad accepted,
      fun next => acceptable_of_pointsTo accepted⟩
  · intro demands
    rw [acceptable, ← OrderHom.map_gfp]
    exact demands

theorem acceptedAtSight_iff (checked : decl.sendable = .checked) :
    AcceptedAtSight answers decl ↔ decl.IsExempt answers := by
  constructor
  · intro accepted
    cases accepted with
    | actor kind => exact .inl kind
    | globalActor domain => exact .inr (.inr domain)
    | unchecked word => simp [checked] at word
    | checkedProtocol _ kind => exact .inr (.inl kind)
  · rintro (kind | kind | domain)
    · exact .actor kind
    · exact .checkedProtocol checked kind
    · exact .globalActor domain

theorem flawless_of_acceptable (found : graph.decl? decl.id = some decl)
    (checked : decl.sendable = .checked) (isType : decl.isType)
    (accepted : ⟨decl.id, site⟩ ∈ acceptable graph options answers)
    (answerable : ¬ decl.IsExempt answers) (fault : SendableIssueKind) :
    ¬ decl.FailsOn graph options answers (verdictOn graph options answers) fault := by
  obtain ⟨sound, inside⟩ := acceptable_iff.mp accepted
  have unaccepted := mt (acceptedAtSight_iff checked).mp answerable
  have unrefused : ¬ RefusedAtSight graph options answers decl site :=
    fun refused => sound (.refused found isType unaccepted refused)
  intro wrong
  cases wrong with
  | subclassable isClass isOpen => exact unrefused (.subclassable checked isClass isOpen)
  | field counted fails =>
    cases fails with
    | mutableField isClass isMutable =>
      cases final : decl.isFinal with
      | false => exact unrefused (.subclassable checked isClass final)
      | true => exact unrefused (.mutableField checked isClass final counted isMutable)
    | nonSendableField typed refused =>
      rcases verdictOn_eq_notSendable.mp refused with function | ⟨id, mentioned, outside⟩
      · exact unrefused (.functionField counted typed function)
      · exact outside (inside _ (.field found isType unaccepted unrefused counted typed mentioned))

theorem not_refused_of_flawless (checked : decl.sendable = .checked)
    (flawless : ∀ fault,
      ¬ decl.FailsOn graph options answers (verdictOn graph options answers) fault) :
    ¬ RefusedAtSight graph options answers decl site := by
  intro refused
  cases refused with
  | unassertedClass absent => simp [checked] at absent
  | unassertedProtocol absent => simp [checked] at absent
  | subclassable _ isClass isOpen => exact flawless _ (.subclassable isClass isOpen)
  | foreignValue absent => simp [checked] at absent
  | mutableField _ isClass _ counted isMutable =>
    exact flawless _ (.field counted (.mutableField isClass isMutable))
  | functionField counted typed function =>
    refine flawless _ (.field counted (.nonSendableField typed ?_))
    exact verdictOn_eq_notSendable.mpr (.inl function)

/-- A type that asserts to be Sendable is acceptable unless something is wrong with it, from whatever
module it is used. -/
theorem checked_acceptable_iff (found : graph.decl? decl.id = some decl)
    (checked : decl.sendable = .checked) (isType : decl.isType) :
    ⟨decl.id, site⟩ ∈ acceptable graph options answers ↔ decl.IsExempt answers ∨
      ∀ fault, ¬ decl.FailsOn graph options answers (verdictOn graph options answers) fault := by
  constructor
  · intro accepted
    by_cases exempt : decl.IsExempt answers
    · exact .inl exempt
    · exact .inr (flawless_of_acceptable found checked isType accepted exempt)
  · intro fine
    have flawless (unaccepted : ¬ AcceptedAtSight answers decl) :=
      fine.resolve_left (mt (acceptedAtSight_iff checked).mpr unaccepted)
    rw [acceptable_iff]
    constructor
    · intro bad
      cases bad with
      | undeclared absent => cases found.symm.trans absent
      | notType same notType =>
        cases found.symm.trans same
        simp [isType] at notType
      | refused same _ unaccepted refused =>
        cases found.symm.trans same
        exact not_refused_of_flawless checked (flawless unaccepted) refused
    · intro next points
      cases points with
      | field same _ unaccepted _ counted typed mentioned =>
        cases found.symm.trans same
        by_contra outside
        have refused := verdictOn_eq_notSendable.mpr (.inr ⟨_, mentioned, outside⟩)
        exact flawless unaccepted _ (.field counted (.nonSendableField typed refused))

theorem nominal_refused_iff {id : DeclId} :
    verdictOn graph options answers (.nominal id) site = .notSendable ↔
      ⟨id, site⟩ ∉ acceptable graph options answers := by
  simp [verdictOn_eq_notSendable, TypeRef.holdsPlainFunction, TypeRef.nominals]

/-- A checked assertion is not taken as a word. -/
theorem checked_accepted_iff (found : graph.decl? decl.id = some decl)
    (checked : decl.sendable = .checked) :
    verdictOn graph options answers (.nominal decl.id) site = .sendable ↔
      ⟨decl.id, site⟩ ∈ acceptable graph options answers := by
  have wordless : ¬ ∃ id ∈ (TypeRef.nominal decl.id).nominals, RestsOnWord graph answers id := by
    rintro ⟨id, mem, other, same, -, -, -, word⟩
    obtain rfl : id = decl.id := by simpa [TypeRef.nominals] using mem
    cases found.symm.trans same
    simp [checked] at word
  constructor
  · intro accepted
    by_contra outside
    rw [nominal_refused_iff.mpr outside] at accepted
    cases accepted
  · intro inside
    have unrefused := mt verdictOn_eq_notSendable.mpr
      (mt nominal_refused_iff.mp (not_not.mpr inside))
    rw [verdictOn, if_neg unrefused, if_neg wordless]

/-! ### Sessions -/

theorem mem_issues_iff {issues : List SendableIssue} {verdict : TypeRef → ModuleId → Sendability}
    (enumerated : Enumerates (·.Arises graph options answers verdict) issues)
    (declared : decl ∈ graph.decls) (checked : decl.sendable = .checked) (isType : decl.isType)
    (fault : SendableIssueKind) : ⟨decl.id, fault⟩ ∈ issues ↔
      ¬ decl.IsExempt answers ∧ decl.FailsOn graph options answers verdict fault := by
  rw [enumerated.mem_iff]
  constructor
  · rintro ⟨other, mem, same, -, -, wrong⟩
    have found := Graph.decl?_of_mem mem
    rw [← same, Graph.decl?_of_mem declared] at found
    cases found
    exact wrong
  · exact fun wrong => ⟨decl, declared, rfl, checked, isType, wrong⟩

end

/-- The verification of checked assertions and the verdicts agree, whatever the analyzer was asked before
either, and whether isolation comes from a table or is worked out on demand. For a type with a checked
assertion something is listed exactly when it is not Sendable from any module, and nothing when it is
Sendable from all. What is listed, each once, is what is wrong with it: nothing for an exempt type, and
else that it can be subclassed, and its fields that are mutable or that the verdicts refuse at home. -/
theorem conformances_agree_with_verdicts {graph : Graph} {options : Options}
    {source : IsolationSource} {isolation : DeclId → Isolation}
    (serves : source.Serves graph options isolation) (history others : List AnalyzerCall)
    {decl : Declaration} (declared : decl ∈ graph.decls) (checked : decl.sendable = .checked)
    (isType : decl.isType) :
    let after (calls : List AnalyzerCall) := calls.foldl (AnalyzerCall.perform graph options) { source }
    let issues := ((after history).run graph options (conformanceIssues graph options)).1
    let verdict type site :=
      ((after others).run graph options (sendabilityFrom graph options type site)).1
    ((∃ issue ∈ issues, issue.type = decl.id) ↔
        ∀ site, verdict (.nominal decl.id) site = .notSendable) ∧
      ((∀ issue ∈ issues, issue.type ≠ decl.id) ↔
        ∀ site, verdict (.nominal decl.id) site = .sendable) ∧
      issues.Nodup ∧
      ∀ fault, ⟨decl.id, fault⟩ ∈ issues ↔
        ¬ decl.IsExempt isolation ∧ decl.FailsOn graph options isolation verdict fault := by
  intro after issues verdict
  have gives := IsolationSource.gives_served graph options isolation
  have honest (calls : List AnalyzerCall) :=
    Session.honest_gives graph options gives calls { source } serves (by simp [Walk.Honest])
  have verdicts : verdict = verdictOn graph options isolation := by
    funext type site
    obtain ⟨serving, honest⟩ := honest others
    exact (Session.run_gives graph options gives _ (after others) serving).1.trans
      (Walk.verdict_yields type site _ honest).1
  have enumerated := (conformanceIssues_enumerates (after history).ledger (honest history).2).1
  rw [← (Session.run_gives graph options gives _ (after history) (honest history).1).1] at enumerated
  have listed := mem_issues_iff enumerated declared checked isType
  -- Acceptance does not hang on the module, so one verdict is as good as all.
  have accepted (site : ModuleId) := @checked_acceptable_iff graph options isolation decl site
    (Graph.decl?_of_mem declared) checked isType
  have flawed : (∃ issue ∈ issues, issue.type = decl.id) ↔ ¬ (decl.IsExempt isolation ∨
      ∀ fault, ¬ decl.FailsOn graph options isolation (verdictOn graph options isolation) fault) := by
    rw [not_or, not_forall_not, ← exists_and_left]
    simp only [← listed]
    constructor
    · rintro ⟨issue, mem, same⟩
      exact ⟨issue.kind, same ▸ mem⟩
    · rintro ⟨fault, mem⟩
      exact ⟨_, mem, rfl⟩
  rw [verdicts]
  refine ⟨?_, ?_, enumerated.nodup, listed⟩
  · simp only [flawed, nominal_refused_iff, accepted, forall_const]
  · have accepts (site : ModuleId) := @checked_accepted_iff graph options isolation decl site
      (Graph.decl?_of_mem declared) checked
    have flawless := not_congr flawed
    rw [not_not] at flawless
    simp only [accepts, accepted, forall_const, ← flawless, not_exists, not_and, ne_eq]

/-- A list whose nodes may be sent, and one whose head may not: it can change, and it keeps a class that
asserts nothing. -/
def assertedLists : Graph where
  decls :=
    [{ id := ⟨1⟩, name := "Cursor", kind := .type .classType },
      { id := ⟨2⟩, name := "Node", kind := .type .classType, isFinal := true, sendable := .checked },
      { id := ⟨3⟩, name := "next", kind := .storedProperty, enclosing := some ⟨2⟩,
        type := some (.optional (.nominal ⟨2⟩)) },
      { id := ⟨4⟩, name := "Head", kind := .type .classType, isFinal := true, sendable := .checked },
      { id := ⟨5⟩, name := "first", kind := .storedProperty, enclosing := some ⟨4⟩, isMutable := true,
        type := some (.nominal ⟨2⟩) },
      { id := ⟨6⟩, name := "cursor", kind := .storedProperty, enclosing := some ⟨4⟩,
        type := some (.nominal ⟨1⟩) }]
  plan := _
  plan_eq := rfl
  decls_ascending := by decide
  extensions_ascending := Graph.noExtensions_ascending
  edges_ascending := Graph.noCalls_ascending
  sound := by decide +kernel

def assertedIsolation : DeclId → Isolation :=
  (Resolver.byLevels assertedLists {}).snapshot.isolation

theorem assertedLists_agree :
    let session : Session :=
      AnalyzerCall.perform assertedLists {} { source := .onDemand .start } .violations
    let issues := (session.run assertedLists {} (conformanceIssues assertedLists {})).1
    let verdict type site :=
      (Session.run assertedLists {} (sendabilityFrom assertedLists {} type site)
        { source := .onDemand .start }).1
    ⟨⟨4⟩, .mutableField ⟨5⟩⟩ ∈ issues ∧ ⟨⟨4⟩, .nonSendableField ⟨6⟩⟩ ∈ issues ∧ issues.Nodup ∧
      ∀ site, verdict (.nominal ⟨4⟩) site = .notSendable := by
  intro session issues verdict
  have serves := IsolationSource.Serves.onDemand (Resolver.progress_start assertedLists {})
  obtain ⟨refused, -, nodup, listed⟩ := conformances_agree_with_verdicts serves [.violations] []
    (by decide : assertedLists.decls[3] ∈ assertedLists.decls) rfl rfl
  have free : (assertedIsolation ⟨4⟩).domain.isGlobalActor = false := by decide +kernel
  have answerable : ¬ assertedLists.decls[3].IsExempt assertedIsolation := by
    rintro (kind | kind | global)
    · cases kind
    · cases kind
    · cases free.symm.trans global
  have first : Counts assertedLists assertedIsolation assertedLists.decls[3] assertedLists.decls[4] :=
    (counts_iff rfl).mpr ⟨by decide, by decide +kernel⟩
  have second : Counts assertedLists assertedIsolation assertedLists.decls[3] assertedLists.decls[5] :=
    (counts_iff rfl).mpr ⟨by decide, by decide +kernel⟩
  have changes := (listed _).mpr ⟨answerable, .field first (.mutableField rfl rfl)⟩
  have keeps := (listed _).mpr ⟨answerable, .field second (.nonSendableField rfl (by decide +kernel))⟩
  exact ⟨changes, keeps, nodup, refused.mp ⟨_, changes, rfl⟩⟩

end ActorIsolation
