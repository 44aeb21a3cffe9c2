import ActorIsolation.Proofs.Analysis
import ActorIsolation.Proofs.Graph
import ActorIsolation.Proofs.Order
import ActorIsolation.Proofs.Sendability

/-! The walk over types finds the acceptable use sites. A refusal is final: it names a bad site that
can be reached. An acceptance holds under the assumption that the waiting types it leans on are
acceptable; when it leans on no type further out than its own, the assumption is discharged.
-/

set_option autoImplicit false

namespace ActorIsolation

namespace Walk

open UseSite

/-! ### What an outcome leans on -/

/-- The waiting types that were taken for Sendable, or may have been, when the outermost of them
stands at this depth. -/
def leaned (path : List UseSite) (leansOn : Option Nat) : Set UseSite :=
  {key | ∃ depth, depthOf? key path = some depth ∧ ∃ outer ∈ leansOn, outer ≤ depth}

theorem depthOf?_lt {key : UseSite} {path : List UseSite} {depth : Nat}
    (found : depthOf? key path = some depth) : depth < path.length := by
  induction path with
  | nil => simp [depthOf?] at found
  | cons waiting path ih =>
    unfold depthOf? at found
    split at found
    · cases found
      simp
    · exact Nat.lt_succ_of_lt (ih found)

@[simp] theorem leaned_none (path : List UseSite) : leaned path none = ∅ := by
  simp [leaned]

@[simp] theorem leaned_nil (leansOn : Option Nat) : leaned [] leansOn = ∅ := by
  simp [leaned, depthOf?]

theorem leaned_join (path : List UseSite) (first second : Outcome) :
    leaned path (first.join second).leansOn =
      leaned path first.leansOn ∪ leaned path second.leansOn := by
  ext key
  cases left : first.leansOn with
  | none => simp [Outcome.join, left, leaned]
  | some outer =>
    cases right : second.leansOn with
    | none => simp [Outcome.join, left, right, leaned]
    | some other =>
      simp only [Outcome.join, left, right, leaned, Option.mem_def, Option.some.injEq,
        exists_eq_left', Set.mem_union, Set.mem_ofPred_eq]
      have outermost (depth : Nat) : min outer other ≤ depth ↔ outer ≤ depth ∨ other ≤ depth := by
        omega
      simp only [outermost, and_or_left, exists_or]

theorem leaned_cons (key : UseSite) (path : List UseSite) (leansOn : Option Nat) :
    leaned (key :: path) leansOn ⊆ insert key (leaned path leansOn) := by
  rintro other ⟨depth, found, outer, leans, within⟩
  unfold depthOf? at found
  split at found
  · rename_i same
    exact .inl same.symm
  · exact .inr ⟨depth, found, outer, leans, within⟩

theorem leaned_of_final {path : List UseSite} {outcome : Outcome}
    (final : outcome.isFinalAt path.length) : leaned path outcome.leansOn = ∅ := by
  ext key
  simp only [Set.mem_empty_iff_false, iff_false]
  rintro ⟨depth, found, outer, leans, within⟩
  -- It could only lean on a site of the path, but all of those stand further out than it leans.
  have inside := depthOf?_lt found
  rw [Option.mem_def] at leans
  simp only [Outcome.isFinalAt, leans, decide_eq_true_eq] at final
  omega

variable (graph : Graph) (options : Options) (answers : DeclId → Isolation)

/-! ### What a verdict says -/

def PartTenable (assumed : Set UseSite) (site : ModuleId) : TypeRef.Part → Prop
  | .plain verdict => verdict ≠ .notSendable
  | .nominal id => Tenable graph options answers assumed ⟨id, site⟩

def PartRestsOnWord : TypeRef.Part → Prop
  | .plain verdict => verdict = .uncheckedSendable
  | .nominal id => RestsOnWord graph answers id

/-- A verdict on a list of parts, given what it assumes: a refusal assumes nothing, and only an
acceptance distinguishes what rests on an author's word. -/
structure Supports (assumed : Set UseSite) (site : ModuleId) (parts : List TypeRef.Part)
    (verdict : Sendability) : Prop where
  refused : verdict = .notSendable →
    ∃ part ∈ parts, ¬ PartTenable graph options answers ∅ site part
  tenable : verdict ≠ .notSendable →
    ∀ part ∈ parts, PartTenable graph options answers assumed site part
  byWord : verdict ≠ .notSendable →
    (verdict = .uncheckedSendable ↔ ∃ part ∈ parts, PartRestsOnWord graph answers part)

variable {graph options answers} {assumed wider : Set UseSite} {site : ModuleId}

theorem PartTenable.mono {part : TypeRef.Part}
    (tenable : PartTenable graph options answers assumed site part) (widen : assumed ⊆ wider) :
    PartTenable graph options answers wider site part := by
  cases part with
  | plain verdict => exact tenable
  | nominal id => exact Tenable.mono tenable widen

theorem accepted_of_meet {verdict other : Sendability} (both : verdict.meet other ≠ .notSendable) :
    verdict ≠ .notSendable ∧ other ≠ .notSendable := by
  revert both
  cases verdict <;> cases other <;> simp [Sendability.meet]

namespace Supports

variable {parts rest : List TypeRef.Part} {verdict other : Sendability}

/-- What is refused is refused without assumptions. -/
theorem of_notSendable (supports : Supports graph options answers assumed site parts verdict)
    (refusal : verdict = .notSendable) : Supports graph options answers wider site parts verdict where
  refused := supports.refused
  tenable accepted := absurd refusal accepted
  byWord := supports.byWord

theorem nil : Supports graph options answers assumed site [] .sendable where
  refused := nofun
  tenable := by simp
  byWord := by simp

theorem of_bad {id : DeclId} (bad : Bad graph options answers ⟨id, site⟩) :
    Supports graph options answers assumed site [.nominal id] .notSendable where
  refused _ := by
    refine ⟨.nominal id, by simp, ?_⟩
    rw [PartTenable, tenable_empty]
    exact not_acceptable_of_bad bad
  tenable accepted := absurd rfl accepted
  byWord accepted := absurd rfl accepted

theorem plain (verdict : Sendability) :
    Supports graph options answers assumed site [.plain verdict] verdict where
  refused refusal := ⟨.plain verdict, by simp, by simp [PartTenable, refusal]⟩
  tenable accepted := by simpa [PartTenable] using accepted
  byWord _ := by simp [PartRestsOnWord]

theorem append (first : Supports graph options answers assumed site parts verdict)
    (second : Supports graph options answers wider site rest other) :
    Supports graph options answers (assumed ∪ wider) site (parts ++ rest) (verdict.meet other) := by
  constructor
  · intro refusal
    have either : verdict = .notSendable ∨ other = .notSendable := by
      revert refusal
      cases verdict <;> cases other <;> simp [Sendability.meet]
    rcases either with left | right
    · obtain ⟨part, mem, untenable⟩ := first.refused left
      exact ⟨part, List.mem_append_left _ mem, untenable⟩
    · obtain ⟨part, mem, untenable⟩ := second.refused right
      exact ⟨part, List.mem_append_right _ mem, untenable⟩
  · intro both part mem
    obtain ⟨left, right⟩ := accepted_of_meet both
    rcases List.mem_append.mp mem with mem | mem
    · exact (first.tenable left part mem).mono Set.subset_union_left
    · exact (second.tenable right part mem).mono Set.subset_union_right
  · intro both
    obtain ⟨left, right⟩ := accepted_of_meet both
    have words : verdict.meet other = .uncheckedSendable ↔
        verdict = .uncheckedSendable ∨ other = .uncheckedSendable := by
      revert left right
      cases verdict <;> cases other <;> simp [Sendability.meet]
    rw [words, first.byWord left, second.byWord right]
    simp only [List.mem_append, or_and_right, exists_or]

end Supports

/-! ### What is decided at sight -/

def ruled (answers : DeclId → Isolation) (decl : Declaration) : Option Sendability :=
  match decl.typeKind? with
  | none => some .notSendable
  | some .actor => some .sendable
  | some kind =>
    if (answers decl.id).domain.isGlobalActor then some .sendable else byAssertion kind decl

@[simp] theorem byRule_against (decl : Declaration) (ledger : Ledger) :
    (byRule decl).against answers ledger = (ruled answers decl, ledger) := by
  unfold byRule ruled
  cases decl.typeKind? with
  | none => rfl
  | some kind => cases kind <;> rfl

theorem byRule_yields {kept : Ledger → Prop} (decl : Declaration) :
    Analysis.Yields answers kept (· = ruled answers decl) (byRule decl) := by
  intro ledger start
  rw [byRule_against]
  exact ⟨rfl, start⟩

variable {id : DeclId} {decl : Declaration}

theorem accepted_of_ruled (accepted : ruled answers decl = some .sendable ∨
    ruled answers decl = some .uncheckedSendable) :
    decl.isType ∧ AcceptedAtSight answers decl := by
  unfold ruled byAssertion at accepted
  split at accepted
  · simp at accepted
  · rename_i kind
    exact ⟨by simp [Declaration.isType, kind], .actor kind⟩
  · rename_i kind _ typed
    refine ⟨by simp [Declaration.isType, typed], ?_⟩
    by_cases guarded : (answers decl.id).domain.isGlobalActor
    · exact .globalActor guarded
    · simp only [guarded, Bool.false_eq_true, if_false] at accepted
      split at accepted
      · exact .unchecked ‹_›
      · exact .checkedProtocol ‹_› typed
      all_goals simp at accepted

theorem refused_of_ruled (refused : ruled answers decl = some .notSendable) :
    decl.isType = false ∨ decl.isType ∧ ¬ AcceptedAtSight answers decl ∧
      ∀ site, RefusedAtSight graph options answers decl site := by
  unfold ruled byAssertion at refused
  split at refused
  · rename_i untyped
    exact .inl (by simp [Declaration.isType, untyped])
  · simp at refused
  · rename_i kind other typed
    refine .inr ⟨by simp [Declaration.isType, typed], ?_⟩
    by_cases guarded : (answers decl.id).domain.isGlobalActor
    · simp [guarded] at refused
    · simp only [guarded, Bool.false_eq_true, if_false] at refused
      split at refused
      · simp at refused
      · simp at refused
      · rename_i claimed
        have open_ : decl.isFinal = false := by
          by_cases final : decl.isFinal <;> simp_all
        refine ⟨?_, fun _ => .subclassable claimed typed open_⟩
        rintro (kind | global | word | ⟨-, kind⟩) <;> simp_all
      · rename_i claimed
        refine ⟨?_, fun _ => .unassertedProtocol claimed typed⟩
        rintro (kind | global | word | ⟨assertion, -⟩) <;> simp_all
      · rename_i claimed
        refine ⟨?_, fun _ => .unassertedClass claimed typed⟩
        rintro (kind | global | word | ⟨-, kind⟩) <;> simp_all
      · simp at refused

/-- Where the rules decide nothing, only the place of use and the fields can speak against a type. -/
theorem open_of_ruled (undecided : ruled answers decl = none) :
    decl.isType ∧ ¬ AcceptedAtSight answers decl ∧ decl.typeKind? ≠ some .protocol ∧
      (decl.typeKind? = some .classType → decl.sendable = .checked ∧ decl.isFinal) := by
  unfold ruled byAssertion at undecided
  split at undecided
  · simp at undecided
  · simp at undecided
  · rename_i kind other typed
    refine ⟨by simp [Declaration.isType, typed], ?_⟩
    by_cases guarded : (answers decl.id).domain.isGlobalActor
    · simp [guarded] at undecided
    · simp only [guarded, Bool.false_eq_true, if_false] at undecided
      split at undecided
      any_goals simp at undecided
      · refine ⟨?_, by simp [typed], fun _ => ⟨‹_›, undecided⟩⟩
        rintro (kind | global | word | ⟨-, kind⟩) <;> simp_all
      · refine ⟨?_, ?_, ?_⟩
        · rintro (kind | global | word | ⟨assertion, kind⟩) <;> simp_all
        · intro kind
          cases assertion : decl.sendable <;> simp_all
        · intro kind
          cases assertion : decl.sendable <;> simp_all

theorem tenable_of_accepted (found : graph.decl? id = some decl) (typed : decl.isType)
    (accepted : AcceptedAtSight answers decl) : Tenable graph options answers assumed ⟨id, site⟩ := by
  refine Tenable.discharge ?_ ?_
  · rintro (absent | ⟨present, untyped⟩ | ⟨present, -, unaccepted, -⟩)
    · simp [found] at absent
    · cases found.symm.trans present
      simp [typed] at untyped
    · cases found.symm.trans present
      exact unaccepted accepted
  · rintro next ⟨present, -, unaccepted⟩
    cases found.symm.trans present
    exact absurd accepted unaccepted

theorem restsOnWord_iff (found : graph.decl? id = some decl) :
    RestsOnWord graph answers id ↔ ruled answers decl = some .uncheckedSendable := by
  have same := Graph.id_of_decl? found
  subst same
  constructor
  · rintro ⟨other, present, typed, notActor, unguarded, word⟩
    cases found.symm.trans present
    unfold ruled byAssertion
    split <;> simp_all [Declaration.isType]
  · intro word
    refine ⟨decl, found, (accepted_of_ruled (.inr word)).1, ?_⟩
    unfold ruled byAssertion at word
    split at word
    · simp at word
    · simp at word
    · rename_i kind notActor typed
      by_cases guarded : (answers decl.id).domain.isGlobalActor
      · simp [guarded] at word
      · simp only [guarded, Bool.false_eq_true, if_false] at word
        refine ⟨by simpa [typed] using notActor, by simp [guarded], ?_⟩
        split at word
        · assumption
        all_goals simp at word

theorem supports_of_ruled {verdict : Sendability} (found : graph.decl? id = some decl)
    (decided : ruled answers decl = some verdict) :
    Supports graph options answers assumed site [.nominal id] verdict := by
  constructor
  · rintro rfl
    have bad : Bad graph options answers ⟨id, site⟩ := by
      rcases refused_of_ruled decided with untyped | ⟨typed, unaccepted, refused⟩
      · exact .notType found untyped
      · exact .refused found typed unaccepted (refused site)
    have refusal : Supports graph options answers assumed site [.nominal id] .notSendable :=
      .of_bad bad
    exact refusal.refused rfl
  · intro accepted part mem
    obtain rfl := List.mem_singleton.mp mem
    have accepted : ruled answers decl = some .sendable ∨
        ruled answers decl = some .uncheckedSendable := by
      cases verdict <;> simp_all
    obtain ⟨typed, accepted⟩ := accepted_of_ruled accepted
    exact tenable_of_accepted found typed accepted
  · intro _
    simp [PartRestsOnWord, restsOnWord_iff found, decided]

/-! ### Parts and fields -/

section

variable {kept : Ledger → Prop} {path : List UseSite} {visit : DeclId → Analysis Outcome}

def Holds (graph : Graph) (options : Options) (answers : DeclId → Isolation) (path : List UseSite)
    (site : ModuleId) (parts : List TypeRef.Part) (outcome : Outcome) : Prop :=
  Supports graph options answers (leaned path outcome.leansOn) site parts outcome.verdict

theorem partsOutcome_yields
    (visited : ∀ id, Analysis.Yields answers kept (Holds graph options answers path site [.nominal id])
      (visit id)) (parts : List TypeRef.Part) :
    Analysis.Yields answers kept (Holds graph options answers path site parts)
      (partsOutcome visit parts) := by
  induction parts with
  | nil => exact .pure .nil
  | cons part rest ih =>
    have first : Analysis.Yields answers kept (Holds graph options answers path site [part])
        (partOutcome visit part) := by
      cases part with
      | plain verdict => exact .pure (.plain verdict)
      | nominal id => exact visited id
    refine first.bind fun outcome holds => ih.bind fun others holdOthers => .pure ?_
    have both := Supports.append holds holdOthers
    rw [← leaned_join] at both
    exact both

theorem restsOnWord_iff_bind : RestsOnWord graph answers id ↔
    (graph.decl? id).bind (ruled answers) = some .uncheckedSendable := by
  cases found : graph.decl? id with
  | none => simp [RestsOnWord, found]
  | some decl => exact restsOnWord_iff found

theorem restsOnWord_against (ledger : Ledger) : (restsOnWord graph id).against answers ledger =
    (decide ((graph.decl? id).bind (ruled answers) = some .uncheckedSendable), ledger) := by
  unfold restsOnWord
  cases graph.decl? id with
  | none => rfl
  | some decl => simp only [Analysis.against_bind, byRule_against, Analysis.against_pure,
      Option.bind_some]

theorem uncheckedAssertions_yields (type : TypeRef) :
    Analysis.Yields answers kept
      (fun asserted => ∀ id, id ∈ asserted ↔ id ∈ type.nominals ∧ RestsOnWord graph answers id)
      (uncheckedAssertions graph type) := by
  let resting (id : DeclId) : List DeclId :=
    if decide ((graph.decl? id).bind (ruled answers) = some .uncheckedSendable) then [id] else []
  have each (id : DeclId) (ledger : Ledger) : Analysis.against answers
      (do return if ← restsOnWord graph id then [id] else []) ledger = (resting id, ledger) := by
    simp only [Analysis.against_bind, restsOnWord_against, Analysis.against_pure, resting]
  intro ledger start
  rw [uncheckedAssertions, Analysis.against_bind, Analysis.forEach_against answers each]
  refine ⟨fun id => ?_, start⟩
  simp only [Analysis.against_pure, mem_ascending Rank.delimited_declId.injective,
    restsOnWord_iff_bind, resting, List.mem_flatMap, decide_eq_true_eq]
  constructor
  · rintro ⟨other, mentioned, mem⟩
    split at mem
    · obtain rfl := List.mem_singleton.mp mem
      exact ⟨mentioned, ‹_›⟩
    · cases mem
  · rintro ⟨mentioned, word⟩
    exact ⟨id, mentioned, by simp [word]⟩

def FieldTenable (graph : Graph) (options : Options) (answers : DeclId → Isolation)
    (assumed : Set UseSite) (home : ModuleId) (kind : TypeKind) (field : Declaration) : Prop :=
  ¬ (kind = .classType ∧ field.isMutable) ∧ ∃ type, field.type = some type ∧
    ∀ part ∈ type.parts, PartTenable graph options answers assumed home part

theorem FieldTenable.mono {home : ModuleId} {kind : TypeKind} {field : Declaration}
    (tenable : FieldTenable graph options answers assumed home kind field) (widen : assumed ⊆ wider) :
    FieldTenable graph options answers wider home kind field := by
  obtain ⟨constant, type, typed, parts⟩ := tenable
  exact ⟨constant, type, typed, fun part mem => (parts part mem).mono widen⟩

/-- The verdict on some fields: Sendable only under what the outcome leans on, and refused for one of
the fields. -/
structure FieldsHold (graph : Graph) (options : Options) (answers : DeclId → Isolation)
    (path : List UseSite) (home : ModuleId) (kind : TypeKind) (fields : List Declaration)
    (outcome : Outcome) : Prop where
  refused : outcome.verdict = .notSendable →
    ∃ field ∈ fields, ¬ FieldTenable graph options answers ∅ home kind field
  tenable : outcome.verdict ≠ .notSendable → outcome.verdict = .sendable ∧ ∀ field ∈ fields,
    FieldTenable graph options answers (leaned path outcome.leansOn) home kind field

variable {home : ModuleId} {kind : TypeKind} {owner : DeclId}

def guarded (answers : DeclId → Isolation) (kind : TypeKind) (field : Declaration) : Bool :=
  kind = .classType && (answers field.id).domain.isGlobalActor

theorem isGuarded_yields (field : Declaration) :
    Analysis.Yields answers kept (· = guarded answers kind field) (isGuarded kind field) := by
  unfold isGuarded guarded
  split
  · rename_i same
    refine (Analysis.Yields.domain field.id).bind fun domain found => .pure ?_
    simp [same, found]
  · rename_i different
    exact .pure (by simp [different])

theorem acceptByWord_yields {field : Declaration} {type : TypeRef} {outcome : Outcome}
    (typed : field.type = some type) (constant : ¬ (kind = .classType ∧ field.isMutable))
    (holds : Holds graph options answers path home type.parts outcome) :
    Analysis.Yields answers kept (FieldsHold graph options answers path home kind [field])
      (acceptByWord graph owner field.id type outcome) := by
  have tenable (accepted : outcome.verdict ≠ .notSendable) : ∀ other ∈ [field],
      FieldTenable graph options answers (leaned path outcome.leansOn) home kind other := by
    intro other mem
    obtain rfl := List.mem_singleton.mp mem
    exact ⟨constant, type, typed, holds.tenable accepted⟩
  unfold acceptByWord
  split
  · rename_i word
    refine (uncheckedAssertions_yields type).bind fun asserted _ => .pure ⟨nofun, fun _ => ?_⟩
    exact ⟨rfl, tenable (by simp [word])⟩
  · rename_i noWord
    refine .pure ⟨fun refusal => ?_, fun accepted => ⟨?_, tenable accepted⟩⟩
    · obtain ⟨part, mem, untenable⟩ := holds.refused refusal
      refine ⟨field, by simp, fun ⟨_, other, present, parts⟩ => ?_⟩
      cases typed.symm.trans present
      exact untenable (parts part mem)
    · cases verdict : outcome.verdict <;> simp_all

theorem fieldOutcome_yields
    (visited : ∀ id, Analysis.Yields answers kept (Holds graph options answers path home [.nominal id])
      (visit id)) (field : Declaration) :
    Analysis.Yields answers kept
      (fun result => (result = none ∧ guarded answers kind field = true) ∨
        ∃ outcome, result = some outcome ∧ guarded answers kind field = false ∧
          FieldsHold graph options answers path home kind [field] outcome)
      (fieldOutcome graph visit owner kind field) := by
  refine (isGuarded_yields field).bind fun isGuarded same => ?_
  subst same
  split
  · rename_i guards
    exact .pure (.inl ⟨rfl, guards⟩)
  · rename_i unguarded
    rw [Bool.not_eq_true] at unguarded
    split
    · rename_i changes
      simp only [Bool.and_eq_true, decide_eq_true_eq] at changes
      refine .pure (.inr ⟨_, rfl, unguarded, fun _ => ?_, nofun⟩)
      exact ⟨field, by simp, fun tenable => tenable.1 changes⟩
    · rename_i constant
      simp only [Bool.and_eq_true, decide_eq_true_eq] at constant
      split
      · rename_i untyped
        refine .pure (.inr ⟨_, rfl, unguarded, fun _ => ?_, nofun⟩)
        exact ⟨field, by simp, fun ⟨_, type, typed, _⟩ => by simp [untyped] at typed⟩
      · rename_i type typed
        refine (partsOutcome_yields visited type.parts).bind fun outcome holds => ?_
        refine (acceptByWord_yields typed constant holds).bind fun accepted fieldHolds => ?_
        exact .pure (.inr ⟨accepted, rfl, unguarded, fieldHolds⟩)

theorem fieldsOutcome_yields
    (visited : ∀ id, Analysis.Yields answers kept (Holds graph options answers path home [.nominal id])
      (visit id)) (fields : List Declaration) (outcome : Outcome)
    (sendable : outcome.verdict = .sendable) :
    Analysis.Yields answers kept
      (fun final => FieldsHold graph options answers path home kind
          (fields.filter (!guarded answers kind ·)) final ∧
        (final.verdict ≠ .notSendable → leaned path outcome.leansOn ⊆ leaned path final.leansOn))
      (fieldsOutcome graph visit owner kind fields outcome) := by
  induction fields generalizing outcome with
  | nil => exact .pure ⟨⟨by simp [sendable], by simp [sendable]⟩, fun _ => subset_rfl⟩
  | cons field rest ih =>
    refine (fieldOutcome_yields visited field).bind fun result cases => ?_
    rcases cases with ⟨rfl, guards⟩ | ⟨next, rfl, unguarded, holds⟩
    · simpa [guards] using ih outcome sendable
    · simp only [unguarded, List.filter_cons, Bool.not_false, if_true]
      have joined : (outcome.join next).verdict = next.verdict := by
        simp [Outcome.join, sendable]
      rw [joined]
      split
      · rename_i refusal
        obtain ⟨_, mem, untenable⟩ := holds.refused refusal
        obtain rfl := List.mem_singleton.mp mem
        exact .pure ⟨⟨fun _ => ⟨_, by simp, untenable⟩, nofun⟩, nofun⟩
      · rename_i accepted
        obtain ⟨sendableNext, tenable⟩ := holds.tenable accepted
        refine (ih (outcome.join next) (joined.trans sendableNext)).imp fun final ⟨later, wider⟩ => ?_
        rw [leaned_join] at wider
        refine ⟨⟨fun refusal => ?_, fun accepted => ?_⟩, fun accepted => ?_⟩
        · obtain ⟨other, mem, untenable⟩ := later.refused refusal
          exact ⟨other, List.mem_cons_of_mem _ mem, untenable⟩
        · refine ⟨(later.tenable accepted).1, fun other mem => ?_⟩
          rcases List.mem_cons.mp mem with rfl | mem
          · exact (tenable other (by simp)).mono
              (Set.subset_union_right.trans (wider accepted))
          · exact (later.tenable accepted).2 other mem
        · exact Set.subset_union_left.trans (wider accepted)

/-! ### Declarations -/

theorem countedFields_eq (typed : decl.typeKind? = some kind) :
    countedFields graph answers decl =
      (graph.storedFields decl.id).filter (!guarded answers kind ·) := by
  simp [countedFields, guarded, typed]

/-- The fields of an acceptable type are tenable without assumptions. -/
theorem fields_of_acceptable (found : graph.decl? id = some decl)
    (typed : decl.typeKind? = some kind) (undecided : ruled answers decl = none)
    (accepted : ⟨id, site⟩ ∈ acceptable graph options answers) {field : Declaration}
    (counts : Counts graph answers decl field) :
    FieldTenable graph options answers ∅ (options.moduleOf decl.id) kind field := by
  obtain ⟨isType, unaccepted, -, reference⟩ := open_of_ruled undecided
  have unrefused : ¬ RefusedAtSight graph options answers decl site :=
    fun refused => not_acceptable_of_bad (.refused found isType unaccepted refused) accepted
  obtain ⟨type, fieldTyped⟩ := counts.listed.typed
  refine ⟨?_, type, fieldTyped, fun part listed => ?_⟩
  · rintro ⟨rfl, changes⟩
    obtain ⟨checked, final⟩ := reference typed
    exact unrefused (.mutableField checked typed final counts changes)
  · cases part with
    | plain verdict =>
      rintro rfl
      exact unrefused (.functionField counts fieldTyped ((TypeRef.parts_list type).refused.mp listed))
    | nominal next =>
      have mentioned := ((TypeRef.parts_list type).nominal next).mp listed
      rw [PartTenable, tenable_empty]
      exact acceptable_of_pointsTo accepted
        (.field found isType unaccepted unrefused counts fieldTyped mentioned)

/-- A type whose fields are tenable when the type itself is assumed is tenable. -/
theorem tenable_of_fields (found : graph.decl? id = some decl)
    (typed : decl.typeKind? = some kind) (undecided : ruled answers decl = none)
    (native : ¬ (decl.sendable = .absent ∧ kind.isValueType ∧ site ≠ options.moduleOf decl.id))
    (fields : ∀ field, Counts graph answers decl field → FieldTenable graph options answers
      (insert ⟨id, site⟩ assumed) (options.moduleOf decl.id) kind field) :
    Tenable graph options answers assumed ⟨id, site⟩ := by
  obtain ⟨isType, unaccepted, notProtocol, reference⟩ := open_of_ruled undecided
  have unrefused : ¬ RefusedAtSight graph options answers decl site := by
    intro refused
    cases refused with
    | unassertedClass absent isClass => simp [(reference isClass).1] at absent
    | unassertedProtocol _ isProtocol => exact notProtocol isProtocol
    | subclassable _ isClass extensible => simp [(reference isClass).2] at extensible
    | foreignValue absent other value foreign =>
      cases typed.symm.trans other
      exact native ⟨absent, value, foreign⟩
    | mutableField _ isClass _ counts changes =>
      cases typed.symm.trans isClass
      exact (fields _ counts).1 ⟨rfl, changes⟩
    | functionField counts fieldTyped function =>
      obtain ⟨-, type, other, parts⟩ := fields _ counts
      cases fieldTyped.symm.trans other
      exact parts _ ((TypeRef.parts_list _).refused.mpr function) rfl
  -- The assumption that the type itself is tenable is discharged: it is not bad, and all it
  -- points to is tenable under that assumption.
  refine Tenable.discharge ?_ ?_
  · rintro (absent | ⟨present, untyped⟩ | ⟨present, -, -, refused⟩)
    · simp [found] at absent
    · cases found.symm.trans present
      simp [isType] at untyped
    · cases found.symm.trans present
      exact unrefused refused
  · rintro next ⟨present, -, -, -, counts, fieldTyped, mentioned⟩
    cases found.symm.trans present
    obtain ⟨-, type, other, parts⟩ := fields _ counts
    cases fieldTyped.symm.trans other
    exact parts (.nominal _) (((TypeRef.parts_list _).nominal _).mpr mentioned)

theorem declOutcome_yields {key : UseSite} (found : graph.decl? key.decl = some decl)
    (visited : ruled answers decl = none → ∀ id, Analysis.Yields answers kept
      (Holds graph options answers (key :: path) (options.moduleOf decl.id) [.nominal id]) (visit id)) :
    Analysis.Yields answers kept (Holds graph options answers path key.site [.nominal key.decl])
      (declOutcome graph options visit decl key.site) := by
  unfold declOutcome
  split
  · rename_i untyped
    exact .pure (supports_of_ruled found (by simp [ruled, untyped, Outcome.settled]))
  · rename_i kind typed
    refine (byRule_yields decl).bind fun result same => ?_
    subst same
    split
    · rename_i verdict decided
      exact .pure (supports_of_ruled found decided)
    · rename_i undecided
      obtain ⟨isType, unaccepted, -⟩ := open_of_ruled undecided
      have noWord : ¬ RestsOnWord graph answers key.decl := by simp [restsOnWord_iff found, undecided]
      split
      · rename_i foreign
        simp only [Bool.and_eq_true, decide_eq_true_eq] at foreign
        exact .pure (Supports.of_bad (.refused found isType unaccepted
          (.foreignValue foreign.1.1 typed foreign.1.2 foreign.2)))
      · rename_i native
        simp only [Bool.and_eq_true, decide_eq_true_eq, and_assoc] at native
        refine (fieldsOutcome_yields (visited undecided) _ _ rfl).imp fun final outcome => ?_
        have holds := outcome.1
        rw [← countedFields_eq typed] at holds
        refine ⟨fun refusal => ⟨.nominal key.decl, by simp, ?_⟩, fun accepted part mem => ?_,
          fun accepted => ?_⟩
        · obtain ⟨field, mem, untenable⟩ := holds.refused refusal
          rw [PartTenable, tenable_empty]
          exact fun accepted => untenable
            (fields_of_acceptable found typed undecided accepted (mem_countedFields.mp mem))
        · -- The fields may lean on the type itself, which waited for them.
          obtain rfl := List.mem_singleton.mp mem
          refine tenable_of_fields found typed undecided native fun field counts => ?_
          exact ((holds.tenable accepted).2 field (mem_countedFields.mpr counts)).mono
            (leaned_cons key path _)
        · simp [(holds.tenable accepted).1, PartRestsOnWord, noWord]

/-! ### The walk -/

def Honest (graph : Graph) (options : Options) (answers : DeclId → Isolation) (ledger : Ledger) :
    Prop :=
  ∀ entry ∈ ledger.verdicts,
    Supports graph options answers ∅ entry.1.site [.nominal entry.1.decl] entry.2

theorem Honest.enter {ledger : Ledger} (honest : Honest graph options answers ledger)
    (record : AuditRecord) : Honest graph options answers (ledger.enter record) := honest

theorem Honest.remember {ledger : Ledger} {key : UseSite} {verdict : Sendability}
    (honest : Honest graph options answers ledger)
    (supports : Supports graph options answers ∅ key.site [.nominal key.decl] verdict) :
    Honest graph options answers (ledger.remember key verdict) := by
  intro entry mem
  rcases List.mem_cons.mp mem with rfl | mem
  · exact supports
  · exact honest entry mem

/-- A refusal assumes nothing, and neither does an outcome that leans on nobody further out. -/
theorem Holds.supports_of_final {parts : List TypeRef.Part} {outcome : Outcome}
    (holds : Holds graph options answers path site parts outcome)
    (final : outcome.verdict = .notSendable ∨ outcome.isFinalAt path.length) :
    Supports graph options answers ∅ site parts outcome.verdict := by
  rcases final with refusal | last
  · exact holds.of_notSendable refusal
  · simpa [Holds, leaned_of_final last] using holds

theorem conclude_yields {key : UseSite} {outcome : Outcome}
    (holds : Holds graph options answers path key.site [.nominal key.decl] outcome) :
    Analysis.Yields answers (Honest graph options answers)
      (Holds graph options answers path key.site [.nominal key.decl])
      (conclude path.length key outcome) := by
  unfold conclude
  split
  · rename_i final
    have supports := holds.supports_of_final (by simpa using final)
    have remembered : Analysis.Yields answers (Honest graph options answers) (fun _ => True)
        (modify (·.remember key outcome.verdict)) :=
      fun ledger honest => ⟨True.intro, honest.remember supports⟩
    have settled : Holds graph options answers path key.site [.nominal key.decl]
        (.settled outcome.verdict) := by
      simpa [Holds, Outcome.settled] using supports
    refine remembered.bind fun _ _ => ?_
    split
    · refine (Analysis.Yields.auditAll (fun ledger record honest => honest.enter record) _).bind
        fun _ _ => .pure settled
    · exact .pure settled
  · exact .pure holds

theorem Honest.supports {ledger : Ledger} {key : UseSite} {verdict : Sendability}
    (honest : Honest graph options answers ledger) (known : ledger.verdict? key = some verdict) :
    Supports graph options answers ∅ key.site [.nominal key.decl] verdict := by
  exact honest (key, verdict) (mem_of_lookup known)

/-- A waiting type is taken for Sendable, which is what it will be unless it is refused: what rests on
an author's word is decided at sight and never waits. -/
theorem waiting_holds {key : UseSite} {depth : Nat} (waiting : depthOf? key path = some depth)
    (undecided : ¬ RestsOnWord graph answers key.decl) :
    Holds graph options answers path key.site [.nominal key.decl]
      { verdict := .sendable, leansOn := some depth } where
  refused := nofun
  tenable _ := by
    have assumed : key ∈ leaned path (some depth) := ⟨depth, waiting, depth, rfl, le_refl depth⟩
    simpa [PartTenable] using Tenable.of_mem assumed
  byWord _ := by simp [PartRestsOnWord, undecided]

theorem mem_of_depthOf? {key : UseSite} {depth : Nat} (waiting : depthOf? key path = some depth) :
    key ∈ path := by
  induction path with
  | nil => simp [depthOf?] at waiting
  | cons first rest ih =>
    unfold depthOf? at waiting
    split at waiting
    · rename_i same
      simp [same]
    · exact List.mem_cons_of_mem _ (ih waiting)

theorem undecided_cons {key : UseSite} (found : graph.decl? key.decl = some decl)
    (open_ : ruled answers decl = none)
    (undecided : ∀ waiting ∈ path, ¬ RestsOnWord graph answers waiting.decl) :
    ∀ waiting ∈ key :: path, ¬ RestsOnWord graph answers waiting.decl := by
  intro waiting mem
  rcases List.mem_cons.mp mem with rfl | mem
  · simp [restsOnWord_iff found, open_]
  · exact undecided waiting mem

theorem evaluate_yields (path : List UseSite) (key : UseSite)
    (inside : path ≠ [] → key.site ∈ homes graph options)
    (undecided : ∀ waiting ∈ path, ¬ RestsOnWord graph answers waiting.decl) :
    Analysis.Yields answers (Honest graph options answers)
      (Holds graph options answers path key.site [.nominal key.decl])
      (evaluate graph options path key inside) := by
  -- By induction on the room left: each type that is entered takes up one more place on the path.
  induction measure : roomFor graph options path using Nat.strongRecOn generalizing path key with
  | ind _ ih =>
    subst measure
    intro ledger honest
    unfold evaluate
    rw [Analysis.against_bind, Analysis.against_get]
    cases known : ledger.verdict? key with
    | some verdict => exact ⟨by simpa [Holds, Outcome.settled] using honest.supports known, honest⟩
    | none =>
      dsimp only
      split
      · rename_i depth waiting
        exact ⟨waiting_holds waiting (undecided key (mem_of_depthOf? waiting)), honest⟩
      · rename_i fresh
        split
        · rename_i absent
          exact ⟨Supports.of_bad (.undeclared absent), honest⟩
        · rename_i decl found
          -- The type waits while its fields are looked at, and rests on no author's word.
          have looked := declOutcome_yields found fun open_ id =>
            ih _ (roomFor_cons_lt graph options inside (depthOf?_eq_none fresh) found) (key :: path)
              ⟨id, options.moduleOf decl.id⟩ (fun _ => home_mem graph options found)
              (undecided_cons found open_ undecided) rfl
          have concluded := looked.bind fun outcome holds => conclude_yields holds
          unfold tracked
          split
          · exact concluded.tracked _ _ ledger honest
          · exact concluded ledger honest

theorem sendabilityFrom_yields (type : TypeRef) (site : ModuleId) :
    Analysis.Yields answers (Honest graph options answers)
      (Supports graph options answers ∅ site type.parts) (sendabilityFrom graph options type site) := by
  have visited (id : DeclId) : Analysis.Yields answers (Honest graph options answers)
      (Holds graph options answers [] site [.nominal id])
      (evaluate graph options [] ⟨id, site⟩ fun nonempty => absurd rfl nonempty) :=
    evaluate_yields [] ⟨id, site⟩ _ (by simp)
  refine (partsOutcome_yields visited type.parts).bind fun outcome holds => .pure ?_
  simpa [Holds] using holds

/-- A verdict without assumptions is the one that the largest acceptable set gives. -/
theorem Supports.eq_verdictOn {type : TypeRef} {verdict : Sendability}
    (supports : Supports graph options answers ∅ site type.parts verdict) :
    verdict = verdictOn graph options answers type site := by
  have lists := TypeRef.parts_list type
  by_cases refusal : verdict = .notSendable
  · obtain ⟨part, listed, untenable⟩ := supports.refused refusal
    have against : type.holdsPlainFunction ∨
        ∃ id ∈ type.nominals, ⟨id, site⟩ ∉ acceptable graph options answers := by
      cases part with
      | plain decided =>
        obtain rfl : decided = .notSendable := by simpa [PartTenable] using untenable
        exact .inl (lists.refused.mp listed)
      | nominal id =>
        rw [PartTenable, tenable_empty] at untenable
        exact .inr ⟨id, (lists.nominal id).mp listed, untenable⟩
    rw [verdictOn, if_pos against, refusal]
  · have tenable := supports.tenable refusal
    have clear : ¬ (type.holdsPlainFunction ∨
        ∃ id ∈ type.nominals, ⟨id, site⟩ ∉ acceptable graph options answers) := by
      rintro (function | ⟨id, mentioned, unacceptable⟩)
      · exact tenable _ (lists.refused.mpr function) rfl
      · have accepted := tenable _ ((lists.nominal id).mpr mentioned)
        rw [PartTenable, tenable_empty] at accepted
        exact unacceptable accepted
    -- A bare part never rests on a word, so the parts to look at are the nominal ones.
    have words : (∃ part ∈ type.parts, PartRestsOnWord graph answers part) ↔
        ∃ id ∈ type.nominals, RestsOnWord graph answers id := by
      constructor
      · rintro ⟨part, listed, rests⟩
        cases part with
        | plain decided =>
          cases rests
          exact absurd listed lists.unchecked
        | nominal id => exact ⟨id, (lists.nominal id).mp listed, rests⟩
      · rintro ⟨id, mentioned, rests⟩
        exact ⟨.nominal id, (lists.nominal id).mpr mentioned, rests⟩
    have byWord := supports.byWord refusal
    rw [words] at byWord
    rw [verdictOn, if_neg clear]
    split
    · exact byWord.mpr ‹_›
    · have notByWord := mt byWord.mp ‹_›
      cases verdict with
      | sendable => rfl
      | notSendable => exact absurd rfl refusal
      | uncheckedSendable => exact absurd rfl notByWord

theorem verdict_yields (type : TypeRef) (site : ModuleId) :
    Analysis.Yields answers (Honest graph options answers)
      (· = verdictOn graph options answers type site) (sendabilityFrom graph options type site) :=
  (sendabilityFrom_yields type site).imp fun _ supports => supports.eq_verdictOn

end

end Walk

end ActorIsolation
