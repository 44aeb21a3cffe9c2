import ActorIsolation.Isolation.Inquiry

/-! What an inquiry comes to when every question has one fixed answer, and what it shares with a run
against a responder that keeps a state.
-/

set_option autoImplicit false

namespace ActorIsolation

namespace Inquiry

variable {α β σ : Type} (answers : DeclId → Isolation)

/-- The value of an inquiry whose questions all have fixed answers. -/
def against : Inquiry α → α
  | .done value => value
  | .ask id next => (next (answers id)).against
  | .note _ next => (next ()).against

def notes : Inquiry α → List Event
  | .done _ => []
  | .ask id next => (next (answers id)).notes
  | .note event next => event :: (next ()).notes

@[simp] theorem against_done (value : α) : (Inquiry.done value).against answers = value := rfl

@[simp] theorem against_isolation (id : DeclId) :
    (Inquiry.isolation id).against answers = answers id := rfl

@[simp] theorem against_report (event : Event) : (Inquiry.report event).against answers = () := rfl

@[simp] theorem against_bind (inquiry : Inquiry α) (next : α → Inquiry β) :
    (inquiry >>= next).against answers = (next (inquiry.against answers)).against answers := by
  induction inquiry with
  | done value => rfl
  | ask id answered ih => exact ih (answers id)
  | note event noted ih => exact ih ()

@[simp] theorem notes_bind (inquiry : Inquiry α) (next : α → Inquiry β) :
    (inquiry >>= next).notes answers =
      inquiry.notes answers ++ (next (inquiry.against answers)).notes answers := by
  induction inquiry with
  | done value => rfl
  | ask id answered ih => exact ih (answers id)
  | note event noted ih => exact congrArg (event :: ·) (ih ())

/-- A responder that always gives the fixed answers, whatever its state, does not change the value.
The states it passes through satisfy any property that it and the record of events preserve;
`kept` sees the events written so far, so that it can speak of the log as well. -/
theorem run_against {respond : DeclId → σ → Isolation × σ} {record : Event → σ → σ}
    {kept : List Event → σ → Prop}
    (answered : ∀ id log state, kept log state →
      (respond id state).1 = answers id ∧ kept log (respond id state).2)
    (recorded : ∀ event log state, kept log state → kept (log ++ [event]) (record event state))
    (inquiry : Inquiry α) (log : List Event) (state : σ) (start : kept log state) :
    (inquiry.run respond record state).1 = inquiry.against answers ∧
      kept (log ++ inquiry.notes answers) (inquiry.run respond record state).2 := by
  induction inquiry generalizing log state with
  | done value => simpa [run, against, notes] using start
  | ask id next ih =>
    obtain ⟨same, after⟩ := answered id log state start
    simp only [run, against, notes, same]
    exact ih (answers id) log _ after
  | note event next ih =>
    have result := ih () (log ++ [event]) _ (recorded event log state start)
    rw [List.append_assoc, List.singleton_append] at result
    exact result

/-- Every question that an inquiry can come to ask, under any answers, is one of these. -/
def AsksOnly (allowed : DeclId → Prop) : Inquiry α → Prop
  | .done _ => True
  | .ask id next => allowed id ∧ ∀ isolation, (next isolation).AsksOnly allowed
  | .note _ next => (next ()).AsksOnly allowed

section

variable {allowed : DeclId → Prop}

theorem asksOnly_isolation {id : DeclId} (permitted : allowed id) :
    (Inquiry.isolation id).AsksOnly allowed :=
  ⟨permitted, fun _ => trivial⟩

theorem AsksOnly.bind {inquiry : Inquiry α} {next : α → Inquiry β}
    (first : inquiry.AsksOnly allowed) (rest : ∀ value, (next value).AsksOnly allowed) :
    (inquiry >>= next).AsksOnly allowed := by
  induction inquiry with
  | done value => exact rest value
  | ask id answered ih => exact ⟨first.1, fun isolation => ih isolation (first.2 isolation)⟩
  | note event noted ih => exact ih () first

theorem AsksOnly.imp {inquiry : Inquiry α} {wider : DeclId → Prop} (asks : inquiry.AsksOnly allowed)
    (implies : ∀ id, allowed id → wider id) : inquiry.AsksOnly wider := by
  induction inquiry with
  | done value => exact trivial
  | ask id answered ih => exact ⟨implies id asks.1, fun isolation => ih isolation (asks.2 isolation)⟩
  | note event noted ih => exact ih () asks

/-- Answers to questions that are never asked do not matter. -/
theorem AsksOnly.against_congr {inquiry : Inquiry α} {others : DeclId → Isolation}
    (asks : inquiry.AsksOnly allowed) (agree : ∀ id, allowed id → answers id = others id) :
    inquiry.against answers = inquiry.against others := by
  induction inquiry with
  | done value => rfl
  | ask id answered ih =>
    simp only [against, ← agree id asks.1]
    exact ih (answers id) (asks.2 (answers id))
  | note event noted ih => exact ih () asks

theorem AsksOnly.attempt_congr {inquiry : Inquiry α} {respond other : DeclId → σ → Option Isolation × σ}
    {record : Event → σ → σ} (asks : inquiry.AsksOnly allowed)
    (agree : ∀ id state, allowed id → respond id state = other id state) (state : σ) :
    inquiry.attempt respond record state = inquiry.attempt other record state := by
  induction inquiry generalizing state with
  | done value => rfl
  | ask id next ih =>
    unfold attempt
    rw [agree id state asks.1]
    split
    · exact ih _ (asks.2 _) _
    · rfl
  | note event next ih => exact ih () asks _

end

def EndsIn (final : α → Prop) : Inquiry α → Prop
  | .done value => final value
  | .ask _ next => ∀ isolation, (next isolation).EndsIn final
  | .note _ next => (next ()).EndsIn final

section

variable {final : α → Prop} {last : β → Prop}

theorem EndsIn.bind {inquiry : Inquiry α} {next : α → Inquiry β} (ends : inquiry.EndsIn final)
    (rest : ∀ value, final value → (next value).EndsIn last) : (inquiry >>= next).EndsIn last := by
  induction inquiry with
  | done value => exact rest value ends
  | ask id answered ih => exact fun isolation => ih isolation (ends isolation)
  | note event noted ih => exact ih () ends

theorem EndsIn.mono {other : α → Prop} {inquiry : Inquiry α} (ends : inquiry.EndsIn final)
    (implies : ∀ value, final value → other value) : inquiry.EndsIn other := by
  induction inquiry with
  | done value => exact implies value ends
  | ask id next ih => exact fun isolation => ih isolation (ends isolation)
  | note event next ih => exact ih () ends

theorem endsIn_trivial (inquiry : Inquiry α) : inquiry.EndsIn fun _ => True := by
  induction inquiry with
  | done value => exact True.intro
  | ask id next ih => exact ih
  | note event next ih => exact ih ()

theorem EndsIn.attempt {inquiry : Inquiry α} (ends : inquiry.EndsIn final)
    {respond : DeclId → σ → Option Isolation × σ} {record : Event → σ → σ} {state : σ} {value : α}
    (ended : (inquiry.attempt respond record state).1 = some value) : final value := by
  induction inquiry generalizing state with
  | done value => exact Option.some.inj ended ▸ ends
  | ask id next ih =>
    unfold Inquiry.attempt at ended
    split at ended
    · exact ih _ (ends _) ended
    · cases ended
  | note event next ih => exact ih () ends ended

end

def Mute : Inquiry α → Prop
  | .done _ => True
  | .ask _ next => ∀ isolation, (next isolation).Mute
  | .note _ _ => False

theorem Mute.bind {inquiry : Inquiry α} {next : α → Inquiry β} (first : inquiry.Mute)
    (rest : ∀ value, (next value).Mute) : (inquiry >>= next).Mute := by
  induction inquiry with
  | done value => exact rest value
  | ask id answered ih => exact fun isolation => ih isolation (first isolation)
  | note event noted => exact first.elim

/-- A property of inquiries that holds of those that do nothing and of the questions that are allowed,
and passes from an inquiry and its continuations to their sequence. -/
structure Composable (allowed : DeclId → Prop) (holds : (α : Type) → Inquiry α → Prop) : Prop where
  done {α : Type} (value : α) : holds α (.done value)
  isolation {id : DeclId} : allowed id → holds Isolation (Inquiry.isolation id)
  bind {α β : Type} {inquiry : Inquiry α} {next : α → Inquiry β} : holds α inquiry →
    (∀ value, holds β (next value)) → holds β (inquiry >>= next)

theorem AsksOnly.composable (allowed : DeclId → Prop) :
    Composable allowed fun _ inquiry => inquiry.AsksOnly allowed :=
  ⟨fun _ => trivial, asksOnly_isolation, bind⟩

theorem Mute.composable (allowed : DeclId → Prop) : Composable allowed fun _ inquiry => inquiry.Mute :=
  ⟨fun _ => trivial, fun _ _ => trivial, bind⟩

/-- How an attempt can go when each question, asked in one state, is met as `Met` says: with an answer
or without, and in a new state. -/
inductive Trail (record : Event → σ → σ) (Met : DeclId → σ → Option Isolation → σ → Prop) :
    Inquiry α → σ → Option α → σ → Prop where
  | done (value : α) (state : σ) : Trail record Met (.done value) state (some value) state
  | answered {id : DeclId} {next : Isolation → Inquiry α} {state middle final : σ}
      {isolation : Isolation} {result : Option α} :
      Met id state (some isolation) middle → Trail record Met (next isolation) middle result final →
      Trail record Met (.ask id next) state result final
  | unanswered {id : DeclId} {next : Isolation → Inquiry α} {state final : σ} :
      Met id state none final → Trail record Met (.ask id next) state none final
  | noted {event : Event} {next : Unit → Inquiry α} {state final : σ} {result : Option α} :
      Trail record Met (next ()) (record event state) result final →
      Trail record Met (.note event next) state result final

theorem attempt_trail {respond : DeclId → σ → Option Isolation × σ} {record : Event → σ → σ}
    {Met : DeclId → σ → Option Isolation → σ → Prop} {allowed : DeclId → Prop}
    (met : ∀ id state, allowed id → Met id state (respond id state).1 (respond id state).2)
    (inquiry : Inquiry α) (asks : inquiry.AsksOnly allowed) (state : σ) :
    Trail record Met inquiry state (inquiry.attempt respond record state).1
      (inquiry.attempt respond record state).2 := by
  induction inquiry generalizing state with
  | done value => exact .done value state
  | ask id next ih =>
    have first := met id state asks.1
    unfold attempt
    split
    · rename_i isolation middle reply
      rw [reply] at first
      exact .answered first (ih isolation (asks.2 isolation) middle)
    · rename_i final reply
      rw [reply] at first
      exact .unanswered first
  | note event next ih => exact .noted (ih () asks _)

section

variable {respond : DeclId → σ → Option Isolation × σ} {record : Event → σ → σ}

theorem attempt_keeps {kept : σ → Prop} (answered : ∀ id state, kept state → kept (respond id state).2)
    (recorded : ∀ event state, kept state → kept (record event state)) (inquiry : Inquiry α)
    (state : σ) (start : kept state) : kept (inquiry.attempt respond record state).2 := by
  induction inquiry generalizing state with
  | done value => exact start
  | ask id next ih =>
    have after := answered id state start
    unfold attempt
    split
    · rename_i isolation middle reply
      rw [reply] at after
      exact ih isolation middle after
    · rename_i final reply
      rwa [reply] at after
  | note event next ih => exact ih () _ (recorded event state start)

theorem Mute.attempt_keeps {kept : σ → Prop} {inquiry : Inquiry α} (mute : inquiry.Mute)
    (answered : ∀ id state, kept state → kept (respond id state).2) (state : σ) (start : kept state) :
    kept (inquiry.attempt respond record state).2 := by
  induction inquiry generalizing state with
  | done value => exact start
  | ask id next ih =>
    have after := answered id state start
    unfold attempt
    split
    · rename_i isolation middle reply
      rw [reply] at after
      exact ih isolation (mute isolation) middle after
    · rename_i final reply
      rwa [reply] at after
  | note event next => exact mute.elim

theorem attempt_commutes {change : σ → σ}
    (answered : ∀ id state, respond id (change state) =
      ((respond id state).1, change (respond id state).2))
    (recorded : ∀ event state, record event (change state) = change (record event state))
    (inquiry : Inquiry α) (state : σ) : inquiry.attempt respond record (change state) =
      ((inquiry.attempt respond record state).1, change (inquiry.attempt respond record state).2) := by
  induction inquiry generalizing state with
  | done value => rfl
  | ask id next ih =>
    unfold attempt
    rw [answered]
    cases reply : respond id state with
    | mk isolation middle =>
      cases isolation with
      | none => rfl
      | some isolation => exact ih isolation middle
  | note event next ih =>
    unfold attempt
    rw [recorded]
    exact ih () _

end

end Inquiry

end ActorIsolation
