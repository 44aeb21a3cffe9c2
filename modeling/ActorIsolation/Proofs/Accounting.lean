import ActorIsolation.Proofs.Reliance

/-! The walk keeps the audit log in order: the words that an accepted type relies on are in the log as
soon as the verdict is settled, and no word enters the log that is not due at an acceptable site.
-/

set_option autoImplicit false

namespace ActorIsolation

namespace Walk

open UseSite
open Analysis (Accounts Yields)

/-- A ledger in order: its verdicts are right, the words that accepted types rely on are in its log,
and its log holds justified records only, each once. -/
structure Audited (graph : Graph) (options : Options) (answers : DeclId → Isolation)
    (justified : AuditRecord → Prop) (ledger : Ledger) : Prop where
  honest : Honest graph options answers ledger
  upheld : ∀ entry ∈ ledger.verdicts, entry.2 ≠ .notSendable →
    Upheld graph options answers (Covered graph answers ledger.audit) ∅ entry.1
  justified : ∀ record ∈ ledger.audit, justified record
  ascends : Ascends ledger.audit

def Accounted (graph : Graph) (options : Options) (answers : DeclId → Isolation)
    (path : List UseSite) (site : ModuleId) (parts : List TypeRef.Part) (outcome : Outcome)
    (ledger : Ledger) : Prop :=
  outcome.verdict ≠ .notSendable →
    Reliance graph options answers path site parts ledger.audit outcome

variable {graph : Graph} {options : Options} {answers : DeclId → Isolation}
  {justified : AuditRecord → Prop} {ledger after : Ledger} {records : List AuditRecord}

namespace Audited

theorem empty : Audited graph options answers justified {} where
  honest := by simp [Honest]
  upheld := by simp
  justified := by simp
  ascends := .nil

theorem extend (audited : Audited graph options answers justified ledger)
    (further : ledger.Extends records after) (allJustified : ∀ record ∈ records, justified record) :
    Audited graph options answers justified after where
  honest entry mem := audited.honest entry (further.verdicts ▸ mem)
  upheld entry mem accepted :=
    upheld_mono (audited.upheld entry (further.verdicts ▸ mem) accepted) further.grows subset_rfl
  justified record mem :=
    ((further.mem_audit record).mp mem).elim (audited.justified record) (allJustified record)
  ascends := further.ascends audited.ascends

theorem audit {record : AuditRecord} (audited : Audited graph options answers justified ledger)
    (isJustified : justified record) :
    Accounts answers (Audited graph options answers justified) ledger
      (fun _ after => record ∈ after.audit) (Analysis.audit record) := by
  have further := Analysis.audit_extends answers record ledger
  refine ⟨audited.extend further ?_, further.grows, ?_⟩
  · intro other mem
    rw [List.mem_singleton.mp mem]
    exact isJustified
  · exact (further.mem_audit record).mpr (.inr (List.mem_singleton_self record))

theorem auditAll (audited : Audited graph options answers justified ledger)
    (allJustified : ∀ record ∈ records, justified record) :
    Accounts answers (Audited graph options answers justified) ledger
      (fun _ after => ∀ record ∈ records, record ∈ after.audit) (Analysis.auditAll records) := by
  have further := Analysis.auditAll_extends answers records ledger
  exact ⟨audited.extend further allJustified, further.grows,
    fun record mem => (further.mem_audit record).mpr (.inr mem)⟩

end Audited

/-! ### Parts and fields -/

section

variable {path : List UseSite} {site home : ModuleId} {visit : DeclId → Analysis Outcome}
  {owner : DeclId} {kind : TypeKind}

/-- Visits to nominal types, while those of the path wait, give right verdicts and account for the
words they take. -/
structure Visits (graph : Graph) (options : Options) (answers : DeclId → Isolation)
    (justified : AuditRecord → Prop) (path : List UseSite) (site : ModuleId)
    (visit : DeclId → Analysis Outcome) : Prop where
  yields : ∀ id, Yields answers (Honest graph options answers)
    (Holds graph options answers path site [.nominal id]) (visit id)
  accounts : ∀ id ledger, Audited graph options answers justified ledger →
    Accounts answers (Audited graph options answers justified) ledger
      (Accounted graph options answers path site [.nominal id]) (visit id)

theorem partsOutcome_accounts (visits : Visits graph options answers justified path site visit)
    (parts : List TypeRef.Part) (audited : Audited graph options answers justified ledger) :
    Accounts answers (Audited graph options answers justified) ledger
      (Accounted graph options answers path site parts) (partsOutcome visit parts) := by
  induction parts generalizing ledger with
  | nil => exact .pure audited fun _ => .settled (by simp)
  | cons part rest ih =>
    have first : Accounts answers (Audited graph options answers justified) ledger
        (Accounted graph options answers path site [part]) (partOutcome visit part) := by
      cases part with
      | plain verdict => exact .pure audited fun _ => .settled (by simp)
      | nominal id => exact visits.accounts id ledger audited
    refine first.bind fun outcome middle auditedMiddle _ relies => ?_
    refine (ih auditedMiddle).bind fun others last auditedLast grows relyOthers => ?_
    refine .pure auditedLast fun both => ?_
    obtain ⟨left, right⟩ := accepted_of_meet both
    exact (relies left).join (relyOthers right) grows

def FieldAccounted (graph : Graph) (options : Options) (answers : DeclId → Isolation)
    (path : List UseSite) (home : ModuleId) (owner : DeclId) (field : Declaration) (outcome : Outcome)
    (ledger : Ledger) : Prop :=
  outcome.verdict ≠ .notSendable → outcome.verdict = .sendable ∧
    FieldsReliance graph options answers path home owner [field] ledger.audit outcome

theorem acceptByWord_accounts {field : Declaration} {type : TypeRef} {outcome : Outcome}
    (typed : field.type = some type)
    (holds : Holds graph options answers path home type.parts outcome)
    (relies : Accounted graph options answers path home type.parts outcome ledger)
    (audited : Audited graph options answers justified ledger) :
    Accounts answers (Audited graph options answers justified) ledger
      (FieldAccounted graph options answers path home owner field)
      (acceptByWord graph owner field.id type outcome) := by
  unfold acceptByWord
  split
  · rename_i word
    refine (Accounts.of_yields (fun _ => uncheckedAssertions_yields type) audited).bind ?_
    rintro asserted _ - - ⟨words, rfl⟩
    exact .pure audited fun _ => ⟨rfl, .of_type typed (relies (by simp [word])) words⟩
  · rename_i noWord
    refine .pure audited fun accepted => ?_
    have sendable : outcome.verdict = .sendable := by
      cases verdict : outcome.verdict <;> simp_all
    -- Nothing in the type rests on a word, or the verdict would say so.
    have noWords : ∀ id, id ∈ ([] : List DeclId) ↔
        id ∈ type.nominals ∧ RestsOnWord graph answers id := by
      intro id
      simp only [List.not_mem_nil, false_iff, not_and]
      intro mentioned word
      have part := ((TypeRef.parts_list type).nominal id).mpr mentioned
      exact noWord ((holds.byWord accepted).mpr ⟨_, part, word⟩)
    have relied : FieldsReliance graph options answers path home owner [field] ledger.audit _ :=
      .of_type typed (relies accepted) noWords
    obtain ⟨verdict, leansOn, audits⟩ := outcome
    obtain rfl : verdict = .sendable := sendable
    rw [List.map_nil, List.append_nil] at relied
    exact ⟨rfl, relied⟩

theorem fieldOutcome_accounts (visits : Visits graph options answers justified path home visit)
    (field : Declaration) (audited : Audited graph options answers justified ledger) :
    Accounts answers (Audited graph options answers justified) ledger
      (fun result after => (result = none ∧ guarded answers kind field = true) ∨
        ∃ outcome, result = some outcome ∧ guarded answers kind field = false ∧
          FieldAccounted graph options answers path home owner field outcome after)
      (fieldOutcome graph visit owner kind field) := by
  refine (Accounts.of_yields (fun _ => isGuarded_yields field) audited).bind ?_
  rintro _ _ - - ⟨rfl, rfl⟩
  split
  · rename_i guards
    exact .pure audited (.inl ⟨rfl, guards⟩)
  · rename_i unguarded
    rw [Bool.not_eq_true] at unguarded
    split
    · exact .pure audited (.inr ⟨_, rfl, unguarded, fun accepted => absurd rfl accepted⟩)
    · split
      · exact .pure audited (.inr ⟨_, rfl, unguarded, fun accepted => absurd rfl accepted⟩)
      · rename_i type typed
        have looked := (partsOutcome_accounts visits type.parts audited).and_yields
          (partsOutcome_yields visits.yields type.parts) audited.honest
        refine looked.bind ?_
        rintro outcome middle auditedMiddle - ⟨holds, relies⟩
        refine (acceptByWord_accounts typed holds relies auditedMiddle).bind
          fun final last auditedLast _ fieldRelies => ?_
        exact .pure auditedLast (.inr ⟨final, rfl, unguarded, fieldRelies⟩)

/-- The words of the fields seen so far stay held back while the rest is looked at. -/
theorem fieldsOutcome_accounts (visits : Visits graph options answers justified path home visit)
    (fields seen : List Declaration) (outcome : Outcome) (sendable : outcome.verdict = .sendable)
    (relies : FieldsReliance graph options answers path home owner seen ledger.audit outcome)
    (audited : Audited graph options answers justified ledger) :
    Accounts answers (Audited graph options answers justified) ledger
      (fun final after => final.verdict ≠ .notSendable →
        FieldsReliance graph options answers path home owner
          (seen ++ fields.filter (!guarded answers kind ·)) after.audit final)
      (fieldsOutcome graph visit owner kind fields outcome) := by
  induction fields generalizing outcome seen ledger with
  | nil => exact .pure audited fun _ => by simpa using relies
  | cons field rest ih =>
    refine (fieldOutcome_accounts visits field audited).bind
      fun result middle auditedMiddle grows cases => ?_
    rcases cases with ⟨rfl, guards⟩ | ⟨next, rfl, unguarded, fieldRelies⟩
    · have kept : FieldsReliance graph options answers path home owner seen middle.audit outcome :=
        relies.mono grows
      simpa [guards] using ih seen outcome sendable kept auditedMiddle
    · have joined : (outcome.join next).verdict = next.verdict := by
        simp [Outcome.join, sendable]
      dsimp only
      rw [joined]
      split
      · exact .pure auditedMiddle fun accepted => absurd rfl accepted
      · rename_i accepted
        obtain ⟨sendableNext, nextRelies⟩ := fieldRelies accepted
        have both := relies.join nextRelies grows
        have later := ih (seen ++ [field]) (outcome.join next) (joined.trans sendableNext) both
          auditedMiddle
        simpa [unguarded] using later

/-! ### The walk -/

theorem declOutcome_accounts {key : UseSite} {decl : Declaration}
    (found : graph.decl? key.decl = some decl)
    (visits : ruled answers decl = none → Visits graph options answers justified (key :: path)
      (options.moduleOf decl.id) visit)
    (audited : Audited graph options answers justified ledger) :
    Accounts answers (Audited graph options answers justified) ledger
      (fun outcome after => Holds graph options answers path key.site [.nominal key.decl] outcome ∧
        Accounted graph options answers path key.site [.nominal key.decl] outcome after)
      (declOutcome graph options visit decl key.site) := by
  have yields : Yields answers (Honest graph options answers)
      (Holds graph options answers path key.site [.nominal key.decl])
      (declOutcome graph options visit decl key.site) :=
    declOutcome_yields found fun undecided => (visits undecided).yields
  have looked : Accounts answers (Audited graph options answers justified) ledger
      (fun outcome after => Holds graph options answers path key.site [.nominal key.decl] outcome →
        Accounted graph options answers path key.site [.nominal key.decl] outcome after)
      (declOutcome graph options visit decl key.site) := by
    unfold declOutcome
    split
    · exact .pure audited fun _ accepted => absurd rfl accepted
    · rename_i kind typed
      refine (Accounts.of_yields (fun _ => byRule_yields decl) audited).bind ?_
      rintro _ _ - - ⟨rfl, rfl⟩
      split
      · rename_i verdict decided
        refine .pure audited fun _ accepted => .of_upheld ?_
        have favourable : ruled answers decl = some .sendable ∨
            ruled answers decl = some .uncheckedSendable := by
          cases verdict <;> simp_all [Outcome.settled]
        exact upheld_of_accepted found (accepted_of_ruled favourable).2
      · rename_i undecided
        split
        · exact .pure audited fun _ accepted => absurd rfl accepted
        · -- All counted fields have been seen, and the type is tenable by its verdict.
          refine (fieldsOutcome_accounts (visits undecided) (graph.storedFields decl.id) []
            (.settled .sendable) rfl .nil audited).imp fun final after _ _ relies holds accepted => ?_
          have tenable := holds.tenable accepted _ (List.mem_singleton_self _)
          have fields := relies accepted
          rw [List.nil_append, ← countedFields_eq typed] at fields
          exact .of_fields found undecided tenable fields
  refine (looked.and_yields yields audited.honest).imp fun outcome after _ _ result => ?_
  exact ⟨result.1, result.2 result.1⟩

/-- A verdict that is final is remembered, and the words held back for it go on record. -/
theorem conclude_settles {depth : Nat} {outcome : Outcome} (answers : DeclId → Isolation)
    (ledger : Ledger) (key : UseSite)
    (final : outcome.verdict = .notSendable ∨ outcome.isFinalAt depth) :
    ((conclude depth key outcome).against answers ledger).1 = .settled outcome.verdict ∧
      (ledger.remember key outcome.verdict).Extends
        (if outcome.verdict.isSendable then outcome.audits else [])
        ((conclude depth key outcome).against answers ledger).2 := by
  have modified (change : Ledger → Ledger) (ledger : Ledger) :
      (modify change : Analysis PUnit).against answers ledger = (⟨⟩, change ledger) := rfl
  have reached : (outcome.verdict = .notSendable || outcome.isFinalAt depth) = true := by
    simpa using final
  unfold conclude
  rw [if_pos reached, Analysis.against_bind, modified]
  by_cases accepted : outcome.verdict.isSendable
  · simp only [if_pos accepted, Analysis.against_bind, Analysis.against_pure, true_and]
    exact Analysis.auditAll_extends answers outcome.audits _
  · simp only [if_neg accepted, Analysis.against_pure, true_and]
    exact ⟨rfl, by simp, id⟩

theorem Audited.settle {key : UseSite} {outcome : Outcome}
    (audited : Audited graph options answers justified ledger)
    (warrant : ∀ record, Warranted graph options answers ∅ record → justified record)
    (final : outcome.verdict = .notSendable ∨ outcome.isFinalAt path.length)
    (holds : Holds graph options answers path key.site [.nominal key.decl] outcome)
    (relies : Accounted graph options answers path key.site [.nominal key.decl] outcome ledger)
    (further : (ledger.remember key outcome.verdict).Extends
      (if outcome.verdict.isSendable then outcome.audits else []) after) :
    Audited graph options answers justified after := by
  have accepted_iff : outcome.verdict.isSendable ↔ outcome.verdict ≠ .notSendable := by
    cases outcome.verdict <;> simp [Sendability.isSendable]
  -- Nothing is assumed any more, so what was held back is warranted as it stands.
  have free (accepted : outcome.verdict ≠ .notSendable) :=
    (relies accepted).of_final (final.resolve_left accepted)
  constructor
  · intro entry mem
    rw [further.verdicts] at mem
    exact audited.honest.remember (holds.supports_of_final final) entry mem
  · intro entry mem accepted
    rw [further.verdicts] at mem
    rcases List.mem_cons.mp mem with rfl | mem
    · refine upheld_mono (free accepted).2 (fun record mem => ?_) subset_rfl
      rw [further.mem_audit, if_pos (accepted_iff.mpr accepted)]
      exact List.mem_append.mp mem
    · exact upheld_mono (audited.upheld entry mem accepted) further.grows subset_rfl
  · intro record mem
    rcases (further.mem_audit record).mp mem with mem | mem
    · exact audited.justified record mem
    · split at mem
      · rename_i sends
        exact warrant record ((free (accepted_iff.mp sends)).1 record mem)
      · cases mem
  · exact further.ascends audited.ascends

theorem conclude_accounts {key : UseSite} {outcome : Outcome}
    (warrant : ∀ record, Warranted graph options answers ∅ record → justified record)
    (holds : Holds graph options answers path key.site [.nominal key.decl] outcome)
    (relies : Accounted graph options answers path key.site [.nominal key.decl] outcome ledger)
    (audited : Audited graph options answers justified ledger) :
    Accounts answers (Audited graph options answers justified) ledger
      (Accounted graph options answers path key.site [.nominal key.decl])
      (conclude path.length key outcome) := by
  by_cases final : outcome.verdict = .notSendable ∨ outcome.isFinalAt path.length
  · obtain ⟨value, further⟩ := conclude_settles answers ledger key final
    have settled := audited.settle warrant final holds relies further
    refine ⟨settled, further.grows, ?_⟩
    rw [value]
    refine fun accepted => .of_upheld (settled.upheld (key, outcome.verdict) ?_ accepted)
    rw [further.verdicts]
    exact List.mem_cons_self
  · unfold conclude
    rw [if_neg (by simpa using final)]
    exact .pure audited relies

theorem evaluate_accounts
    (warrant : ∀ record, Warranted graph options answers ∅ record → justified record)
    (path : List UseSite) (key : UseSite) (inside : path ≠ [] → key.site ∈ homes graph options)
    (undecided : ∀ waiting ∈ path, ¬ RestsOnWord graph answers waiting.decl)
    (audited : Audited graph options answers justified ledger) :
    Accounts answers (Audited graph options answers justified) ledger
      (Accounted graph options answers path key.site [.nominal key.decl])
      (evaluate graph options path key inside) := by
  -- By induction on the room left, as for the verdicts.
  induction measure : roomFor graph options path using Nat.strongRecOn generalizing path key ledger with
  | ind _ ih =>
    subst measure
    unfold evaluate
    refine (Accounts.get audited).bind ?_
    rintro _ _ - - ⟨rfl, rfl⟩
    cases known : ledger.verdict? key with
    | some verdict =>
      -- The words were put on record when the verdict was settled, whoever asked for it then.
      exact .pure audited fun accepted =>
        .of_upheld (audited.upheld (key, verdict) (mem_of_lookup known) accepted)
    | none =>
      dsimp only
      split
      · rename_i depth waiting
        -- Nothing is asked of a waiting type, on which the outcome leans.
        refine .pure audited fun _ => ⟨by simp, fun id mem => ?_⟩
        obtain rfl : id = key.decl := by simpa using mem
        exact .of_mem ⟨depth, waiting, depth, rfl, le_refl depth⟩
      · rename_i fresh
        split
        · exact .pure audited fun accepted => absurd rfl accepted
        · rename_i decl found
          have visits (open_ : ruled answers decl = none) : Visits graph options answers justified
              (key :: path) (options.moduleOf decl.id) fun id =>
                evaluate graph options (key :: path) ⟨id, options.moduleOf decl.id⟩
                  fun _ => home_mem graph options found :=
            { yields := fun id => evaluate_yields _ _ _ (undecided_cons found open_ undecided)
              accounts := fun id _ auditedThen =>
                ih _ (roomFor_cons_lt graph options inside (depthOf?_eq_none fresh) found) _
                  ⟨id, options.moduleOf decl.id⟩ _ (undecided_cons found open_ undecided) auditedThen
                  rfl }
          have concluded := (declOutcome_accounts found visits audited).bind
            fun outcome middle auditedMiddle _ relies =>
              conclude_accounts warrant relies.1 relies.2 auditedMiddle
          unfold tracked
          split
          · exact concluded.tracked _ _
          · exact concluded

/-! ### Types that no other waits for -/

theorem partsOutcome_settled {kept : Ledger → Prop}
    (visited : ∀ id, Yields answers kept (·.audits = []) (visit id)) (parts : List TypeRef.Part) :
    Yields answers kept (·.audits = []) (partsOutcome visit parts) := by
  induction parts with
  | nil => exact .pure rfl
  | cons part rest ih =>
    have first : Yields answers kept (·.audits = []) (partOutcome visit part) := by
      cases part with
      | plain verdict => exact .pure rfl
      | nominal id => exact visited id
    refine first.bind fun outcome empty => ih.bind fun others emptyOthers => .pure ?_
    rw [Outcome.join, empty, emptyOthers]
    rfl

/-- With nobody further out every outcome is final, so nothing is held back. -/
theorem evaluate_settled (key : UseSite) (inside : [] ≠ [] → key.site ∈ homes graph options) :
    Yields answers (fun _ => True) (·.audits = []) (evaluate graph options [] key inside) := by
  have anything {α : Type} (analysis : Analysis α) :
      Yields answers (fun _ => True) (fun _ => True) analysis :=
    fun _ _ => ⟨True.intro, True.intro⟩
  have concluded (outcome : Outcome) :
      Yields answers (fun _ => True) (·.audits = []) (conclude 0 key outcome) := by
    have final : outcome.isFinalAt 0 := by
      unfold Outcome.isFinalAt
      split <;> simp
    intro ledger _
    rw [(conclude_settles answers ledger key (.inr final)).1]
    exact ⟨rfl, True.intro⟩
  unfold evaluate
  refine (anything get).bind fun ledger _ => ?_
  split
  · exact .pure rfl
  · split
    · rename_i waiting
      simp [depthOf?] at waiting
    · split
      · exact .pure rfl
      · exact Yields.tracked _ _ ((anything _).bind fun outcome _ => concluded outcome)

theorem sendabilityFrom_accounts
    (warrant : ∀ record, Warranted graph options answers ∅ record → justified record)
    (type : TypeRef) (site : ModuleId) (audited : Audited graph options answers justified ledger) :
    Accounts answers (Audited graph options answers justified) ledger
      (fun verdict after => verdict = verdictOn graph options answers type site ∧
        (verdict ≠ .notSendable → ∀ id ∈ type.nominals,
          Upheld graph options answers (Covered graph answers after.audit) ∅ ⟨id, site⟩))
      (sendabilityFrom graph options type site) := by
  have visits : Visits graph options answers justified [] site fun id =>
      evaluate graph options [] ⟨id, site⟩ fun nonempty => absurd rfl nonempty :=
    { yields := fun id => evaluate_yields [] ⟨id, site⟩ _ (by simp)
      accounts := fun id _ => evaluate_accounts warrant [] ⟨id, site⟩ _ (by simp) }
  have settled (id : DeclId) : Yields answers (fun _ => True) (·.audits = [])
      (evaluate graph options [] ⟨id, site⟩ fun nonempty => absurd rfl nonempty) :=
    evaluate_settled ⟨id, site⟩ _
  have looked := (partsOutcome_accounts visits type.parts audited).and_yields
    (partsOutcome_yields visits.yields type.parts) audited.honest
  refine (looked.and_yields (partsOutcome_settled settled type.parts) True.intro).bind ?_
  rintro outcome after auditedAfter - ⟨empty, holds, relies⟩
  refine .pure auditedAfter ⟨?_, fun accepted id mentioned => ?_⟩
  · exact Supports.eq_verdictOn (by simpa [Holds] using holds)
  · have part := ((TypeRef.parts_list type).nominal id).mpr mentioned
    simpa [empty] using (relies accepted).upheld id part

end

end Walk

end ActorIsolation
