import ActorIsolation.Activity.Event
import ActorIsolation.Isolation.Domain

/-! Computations that ask for the isolation of declarations. What is asked next may hang on the
answers so far, but not on who gives them: the same inquiry runs against a finished table or against
a resolver that works out each answer when it is first needed.
-/

set_option autoImplicit false

namespace ActorIsolation

inductive Inquiry (α : Type) where
  | done (value : α)
  | ask (id : DeclId) (next : Isolation → Inquiry α)
  | note (event : Event) (next : Unit → Inquiry α)

namespace Inquiry

variable {α β σ : Type}

protected def bind (inquiry : Inquiry α) (next : α → Inquiry β) : Inquiry β :=
  match inquiry with
  | .done value => next value
  | .ask id answered => .ask id fun isolation => (answered isolation).bind next
  | .note event noted => .note event fun token => (noted token).bind next

instance : Monad Inquiry where
  pure := .done
  bind := Inquiry.bind

@[simp] theorem pure_eq (value : α) : (pure value : Inquiry α) = .done value := rfl

@[simp] theorem done_bind (value : α) (next : α → Inquiry β) :
    (Inquiry.done value >>= next) = next value := rfl

@[simp] theorem ask_bind (id : DeclId) (answered : Isolation → Inquiry α) (next : α → Inquiry β) :
    (Inquiry.ask id answered >>= next) = .ask id fun isolation => answered isolation >>= next := rfl

@[simp] theorem note_bind (event : Event) (noted : Unit → Inquiry α) (next : α → Inquiry β) :
    (Inquiry.note event noted >>= next) = .note event fun token => noted token >>= next := rfl

instance : LawfulMonad Inquiry :=
  LawfulMonad.mk' _
    (fun inquiry => by
      change inquiry >>= (fun value => pure value) = inquiry
      induction inquiry with
      | done => rfl
      | ask id answered ih => simp only [ask_bind, ih]
      | note event noted ih => simp only [note_bind, ih])
    (fun _ _ => rfl)
    (fun inquiry _ _ => by
      induction inquiry with
      | done => rfl
      | ask id answered ih => simp only [ask_bind, ih]
      | note event noted ih => simp only [note_bind, ih])

def isolation (id : DeclId) : Inquiry Isolation := .ask id .done

def report (event : Event) : Inquiry Unit := .note event .done

def run (respond : DeclId → σ → Isolation × σ) (record : Event → σ → σ) :
    Inquiry α → σ → α × σ
  | .done value, state => (value, state)
  | .ask id next, state =>
    let (isolation, state) := respond id state
    (next isolation).run respond record state
  | .note event next, state => (next ()).run respond record (record event state)

/-- Runs an inquiry against a responder that may fail to answer, which ends the inquiry. -/
def attempt (respond : DeclId → σ → Option Isolation × σ) (record : Event → σ → σ) :
    Inquiry α → σ → Option α × σ
  | .done value, state => (some value, state)
  | .ask id next, state =>
    match respond id state with
    | (some isolation, state) => (next isolation).attempt respond record state
    | (none, state) => (none, state)
  | .note event next, state => (next ()).attempt respond record (record event state)

end Inquiry

end ActorIsolation
