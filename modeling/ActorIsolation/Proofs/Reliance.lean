import ActorIsolation.Proofs.Walk

/-! The words that an acceptance relies on. A type that is accepted for its fields takes a word for each
author whose assertion one of these fields rests on. The walk holds such words back until the verdict
is final, so what it has on record and what it still holds back are followed together: every word is
taken for a type that is tenable under the assumptions made, and no word is missing at a site that can
be reached, unless it is reached through such an assumption.
-/

set_option autoImplicit false

namespace ActorIsolation

namespace UseSite

variable (graph : Graph) (options : Options) (answers : DeclId → Isolation)

inductive TakenFor (owner : DeclId) (field : Declaration) : AuditRecord → Prop where
  | word {type : TypeRef} {asserted : DeclId} : field.type = some type → asserted ∈ type.nominals →
      RestsOnWord graph answers asserted → TakenFor owner field ⟨asserted, .field owner field.id⟩

/-- The type at a use site is judged by its fields and takes this word for one of them. -/
inductive Due : UseSite → AuditRecord → Prop where
  | field {id : DeclId} {site : ModuleId} {decl field : Declaration} {record : AuditRecord} :
      graph.decl? id = some decl → decl.isType → ¬ AcceptedAtSight answers decl →
      Counts graph answers decl field → TakenFor graph answers decl.id field record →
      Due ⟨id, site⟩ record

def Covered (log : List AuditRecord) (here : UseSite) : Prop :=
  ∀ record, Due graph answers here record → record ∈ log

def Warranted (assumed : Set UseSite) (record : AuditRecord) : Prop :=
  ∃ here, Due graph answers here record ∧ Tenable graph options answers assumed here

variable {graph options answers} {assumed wider : Set UseSite}

theorem Covered.mono {log longer : List AuditRecord} {here : UseSite}
    (covered : Covered graph answers log here) (grows : log ⊆ longer) :
    Covered graph answers longer here :=
  fun record due => grows (covered record due)

theorem Warranted.mono {record : AuditRecord} (warranted : Warranted graph options answers assumed record)
    (widen : assumed ⊆ wider) : Warranted graph options answers wider record := by
  obtain ⟨here, due, tenable⟩ := warranted
  exact ⟨here, due, tenable.mono widen⟩

end UseSite

namespace Walk

open UseSite

variable (graph : Graph) (options : Options) (answers : DeclId → Isolation)

/-! ### What an outcome relies on -/

/-- What an outcome that accepts the parts relies on, when these records are in the log. -/
structure Reliance (path : List UseSite) (site : ModuleId) (parts : List TypeRef.Part)
    (log : List AuditRecord) (outcome : Outcome) : Prop where
  warranted : ∀ record ∈ outcome.audits,
    Warranted graph options answers (leaned path outcome.leansOn) record
  upheld : ∀ id, .nominal id ∈ parts → Upheld graph options answers
    (Covered graph answers (log ++ outcome.audits)) (leaned path outcome.leansOn) ⟨id, site⟩

/-- The same for the fields of a type. The words taken for the fields themselves are warranted only once
the type is known to be tenable. -/
structure FieldsReliance (path : List UseSite) (home : ModuleId) (owner : DeclId)
    (fields : List Declaration) (log : List AuditRecord) (outcome : Outcome) : Prop where
  warranted : ∀ record ∈ outcome.audits,
    Warranted graph options answers (leaned path outcome.leansOn) record ∨
      ∃ field ∈ fields, TakenFor graph answers owner field record
  taken : ∀ field ∈ fields, ∀ record, TakenFor graph answers owner field record →
    record ∈ outcome.audits
  upheld : ∀ field ∈ fields, ∀ type, field.type = some type → ∀ id ∈ type.nominals,
    Upheld graph options answers (Covered graph answers (log ++ outcome.audits))
      (leaned path outcome.leansOn) ⟨id, home⟩

variable {graph options answers} {path : List UseSite} {site home : ModuleId} {owner : DeclId}
  {log longer : List AuditRecord} {first second outcome : Outcome}

theorem upheld_mono {fewer more : List AuditRecord} {assumed wider : Set UseSite} {here : UseSite}
    (upheld : Upheld graph options answers (Covered graph answers fewer) assumed here)
    (records : fewer ⊆ more) (widen : assumed ⊆ wider) :
    Upheld graph options answers (Covered graph answers more) wider here :=
  upheld.mono (fun _ covered => covered.mono records) widen

theorem leaned_subset_join_left : leaned path first.leansOn ⊆ leaned path (first.join second).leansOn := by
  rw [leaned_join]
  exact Set.subset_union_left

theorem leaned_subset_join_right :
    leaned path second.leansOn ⊆ leaned path (first.join second).leansOn := by
  rw [leaned_join]
  exact Set.subset_union_right

theorem append_mono {records more : List AuditRecord} (grows : log ⊆ longer)
    (further : records ⊆ more) : log ++ records ⊆ longer ++ more :=
  List.append_subset.mpr
    ⟨List.subset_append_of_subset_left _ grows, List.subset_append_of_subset_right _ further⟩

theorem log_subset_join_left (grows : log ⊆ longer) :
    log ++ first.audits ⊆ longer ++ (first.join second).audits :=
  append_mono grows (List.subset_append_left _ _)

theorem log_subset_join_right : longer ++ second.audits ⊆ longer ++ (first.join second).audits :=
  append_mono (List.Subset.refl _) (List.subset_append_right _ _)

namespace Reliance

variable {parts rest : List TypeRef.Part}

theorem settled {verdict : Sendability} (upheld : ∀ id, .nominal id ∈ parts →
    Upheld graph options answers (Covered graph answers log) ∅ ⟨id, site⟩) :
    Reliance graph options answers path site parts log (.settled verdict) where
  warranted := by simp [Outcome.settled]
  upheld id mem := by simpa [Outcome.settled] using upheld id mem

theorem of_upheld {key : UseSite} {verdict : Sendability}
    (upheld : Upheld graph options answers (Covered graph answers log) ∅ key) :
    Reliance graph options answers path key.site [.nominal key.decl] log (.settled verdict) := by
  refine settled fun id mem => ?_
  obtain rfl : id = key.decl := by simpa using mem
  exact upheld

/-- An outcome that leans on nobody further out relies on what it says and on nothing else. -/
theorem of_final {key : UseSite}
    (relies : Reliance graph options answers path key.site [.nominal key.decl] log outcome)
    (last : outcome.isFinalAt path.length) :
    (∀ record ∈ outcome.audits, Warranted graph options answers ∅ record) ∧
      Upheld graph options answers (Covered graph answers (log ++ outcome.audits)) ∅ key := by
  rw [← leaned_of_final last]
  exact ⟨relies.warranted, relies.upheld key.decl (List.mem_singleton_self _)⟩

theorem join (relies : Reliance graph options answers path site parts log first)
    (others : Reliance graph options answers path site rest longer second) (grows : log ⊆ longer) :
    Reliance graph options answers path site (parts ++ rest) longer (first.join second) := by
  constructor
  · intro record mem
    rcases List.mem_append.mp mem with mem | mem
    · exact (relies.warranted record mem).mono leaned_subset_join_left
    · exact (others.warranted record mem).mono leaned_subset_join_right
  · intro id mem
    rcases List.mem_append.mp mem with mem | mem
    · exact upheld_mono (relies.upheld id mem) (log_subset_join_left grows) leaned_subset_join_left
    · exact upheld_mono (others.upheld id mem) log_subset_join_right leaned_subset_join_right

end Reliance

namespace FieldsReliance

variable {fields rest : List Declaration} {field : Declaration} {type : TypeRef}

theorem nil {verdict : Sendability} :
    FieldsReliance graph options answers path home owner [] log (.settled verdict) where
  warranted := by simp [Outcome.settled]
  taken := by simp
  upheld := by simp

theorem mono (relies : FieldsReliance graph options answers path home owner fields log outcome)
    (grows : log ⊆ longer) :
    FieldsReliance graph options answers path home owner fields longer outcome where
  warranted := relies.warranted
  taken := relies.taken
  upheld field listed type typed id mentioned :=
    upheld_mono (relies.upheld field listed type typed id mentioned)
      (append_mono grows (List.Subset.refl _)) subset_rfl

theorem join (relies : FieldsReliance graph options answers path home owner fields log first)
    (others : FieldsReliance graph options answers path home owner rest longer second)
    (grows : log ⊆ longer) :
    FieldsReliance graph options answers path home owner (fields ++ rest) longer
      (first.join second) := by
  constructor
  · intro record mem
    rcases List.mem_append.mp mem with mem | mem
    · rcases relies.warranted record mem with warranted | ⟨field, listed, taken⟩
      · exact .inl (warranted.mono leaned_subset_join_left)
      · exact .inr ⟨field, List.mem_append_left _ listed, taken⟩
    · rcases others.warranted record mem with warranted | ⟨field, listed, taken⟩
      · exact .inl (warranted.mono leaned_subset_join_right)
      · exact .inr ⟨field, List.mem_append_right _ listed, taken⟩
  · intro field listed record taken
    rcases List.mem_append.mp listed with listed | listed
    · exact List.mem_append_left _ (relies.taken field listed record taken)
    · exact List.mem_append_right _ (others.taken field listed record taken)
  · intro field listed type typed id mentioned
    rcases List.mem_append.mp listed with listed | listed
    · exact upheld_mono (relies.upheld field listed type typed id mentioned)
        (log_subset_join_left grows) leaned_subset_join_left
    · exact upheld_mono (others.upheld field listed type typed id mentioned)
        log_subset_join_right leaned_subset_join_right

theorem of_type {asserted : List DeclId} (typed : field.type = some type)
    (relies : Reliance graph options answers path home type.parts log outcome)
    (words : ∀ id, id ∈ asserted ↔ id ∈ type.nominals ∧ RestsOnWord graph answers id) :
    FieldsReliance graph options answers path home owner [field] log
      { outcome with
        verdict := .sendable
        audits := outcome.audits ++ asserted.map (⟨·, .field owner field.id⟩) } := by
  constructor
  · intro record mem
    rcases List.mem_append.mp mem with mem | mem
    · exact .inl (relies.warranted record mem)
    · obtain ⟨id, listed, rfl⟩ := List.mem_map.mp mem
      obtain ⟨mentioned, word⟩ := (words id).mp listed
      exact .inr ⟨field, List.mem_singleton_self field, .word typed mentioned word⟩
  · intro other listed record taken
    obtain rfl := List.mem_singleton.mp listed
    obtain ⟨otherTyped, mentioned, word⟩ := taken
    cases typed.symm.trans otherTyped
    exact List.mem_append_right _ (List.mem_map.mpr ⟨_, (words _).mpr ⟨mentioned, word⟩, rfl⟩)
  · intro other listed otherType otherTyped id mentioned
    obtain rfl := List.mem_singleton.mp listed
    cases typed.symm.trans otherTyped
    have part := ((TypeRef.parts_list type).nominal id).mpr mentioned
    refine upheld_mono (relies.upheld id part) ?_ subset_rfl
    exact append_mono (List.Subset.refl _) (List.subset_append_left _ _)

end FieldsReliance

/-- A type that is tenable relies on what its fields rely on. It may have been assumed by them. -/
theorem Reliance.of_fields {key : UseSite} {decl : Declaration}
    (found : graph.decl? key.decl = some decl) (undecided : ruled answers decl = none)
    (tenable : Tenable graph options answers (leaned path outcome.leansOn) key)
    (relies : FieldsReliance graph options answers (key :: path) (options.moduleOf decl.id) decl.id
      (countedFields graph answers decl) log outcome) :
    Reliance graph options answers path key.site [.nominal key.decl] log outcome := by
  obtain ⟨isType, unaccepted, -⟩ := open_of_ruled undecided
  constructor
  · intro record mem
    rcases relies.warranted record mem with ⟨here, due, held⟩ | ⟨field, listed, taken⟩
    · exact ⟨here, due, (held.mono (leaned_cons key path _)).cut tenable⟩
    · exact ⟨key, .field found isType unaccepted (mem_countedFields.mp listed) taken, tenable⟩
  · intro id mem
    obtain rfl : id = key.decl := by simpa using mem
    apply Upheld.discharge
    · rintro record ⟨present, -, -, counts, taken⟩
      cases found.symm.trans present
      exact List.mem_append_right _ (relies.taken _ (mem_countedFields.mpr counts) record taken)
    · rintro next ⟨present, -, -, -, counts, typed, mentioned⟩
      cases found.symm.trans present
      exact (relies.upheld _ (mem_countedFields.mpr counts) _ typed _ mentioned).mono
        (fun _ covered => covered) (leaned_cons key path _)

theorem upheld_of_accepted {id : DeclId} {decl : Declaration} {assumed : Set UseSite}
    (found : graph.decl? id = some decl) (accepted : AcceptedAtSight answers decl) :
    Upheld graph options answers (Covered graph answers log) assumed ⟨id, site⟩ := by
  apply Upheld.discharge
  · rintro record ⟨present, -, unaccepted, -⟩
    cases found.symm.trans present
    exact absurd accepted unaccepted
  · rintro next ⟨present, -, unaccepted⟩
    cases found.symm.trans present
    exact absurd accepted unaccepted

end Walk

end ActorIsolation
