/-! Measures for what is left to do: the room that a path has, which never holds a value twice, and the
weight of a list.
-/

set_option autoImplicit false

namespace ActorIsolation

/-- How many of the values are not on the path yet. -/
def room {α : Type} [DecidableEq α] (values path : List α) : Nat :=
  values.countP (· ∉ path)

variable {α : Type} [DecidableEq α] {values path : List α} {value : α}

theorem room_cons_le : room values (value :: path) ≤ room values path :=
  List.countP_mono_left fun x _ hx => by simp_all

theorem room_cons_lt (known : value ∈ values) (fresh : value ∉ path) :
    room values (value :: path) < room values path := by
  induction values with
  | nil => simp at known
  | cons first rest ih =>
    have mono := @room_cons_le α _ rest path value
    unfold room at *
    by_cases same : first = value
    · subst same
      rw [List.countP_cons_of_neg (by simp), List.countP_cons_of_pos (by simpa using fresh)]
      omega
    · have shorter := ih (by simpa [Ne.symm same] using known)
      by_cases onPath : first ∈ path
      · rw [List.countP_cons_of_neg (by simp [onPath]), List.countP_cons_of_neg (by simpa)]
        exact shorter
      · rw [List.countP_cons_of_pos (by simp [same, onPath]), List.countP_cons_of_pos (by simpa)]
        omega

/-! ### Weights -/

def weigh {α : Type} (weight : α → Nat) : List α → Nat
  | [] => 0
  | value :: rest => weight value + weigh weight rest

section

variable {α β : Type} {weight : α → Nat}

theorem weigh_cons (value : α) (rest : List α) :
    weigh weight (value :: rest) = weight value + weigh weight rest := rfl

theorem weigh_append (first second : List α) :
    weigh weight (first ++ second) = weigh weight first + weigh weight second := by
  induction first with
  | nil => simp [weigh]
  | cons value rest ih => simp only [List.cons_append, weigh_cons, ih, Nat.add_assoc]

theorem weigh_reverse (values : List α) : weigh weight values.reverse = weigh weight values := by
  induction values with
  | nil => rfl
  | cons value rest ih =>
    rw [List.reverse_cons, weigh_append, ih, weigh_cons, weigh_cons]
    exact Nat.add_comm _ _

theorem weigh_map (f : β → α) (values : List β) :
    weigh weight (values.map f) = weigh (fun value => weight (f value)) values := by
  induction values with
  | nil => rfl
  | cons value rest ih => rw [List.map_cons, weigh_cons, weigh_cons, ih]

theorem weigh_filter_le (weight : α → Nat) {kept wider : α → Bool} (values : List α)
    (widens : ∀ value, kept value → wider value) :
    weigh weight (values.filter kept) ≤ weigh weight (values.filter wider) := by
  induction values with
  | nil => exact Nat.le_refl 0
  | cons value rest ih =>
    rw [List.filter_cons, List.filter_cons]
    split
    · rw [if_pos (widens value ‹_›), weigh_cons, weigh_cons]
      omega
    · split
      · rw [weigh_cons]
        omega
      · exact ih

theorem weigh_filter_add_le (weight : α → Nat) {kept wider : α → Bool} {values : List α} {value : α}
    (listed : value ∈ values) (before : wider value) (after : ¬ kept value)
    (widens : ∀ value, kept value → wider value) :
    weight value + weigh weight (values.filter kept) ≤ weigh weight (values.filter wider) := by
  induction values with
  | nil => cases listed
  | cons first rest ih =>
    rcases List.mem_cons.mp listed with rfl | later
    · rw [List.filter_cons_of_neg after, List.filter_cons_of_pos before, weigh_cons]
      exact Nat.add_le_add_left (weigh_filter_le weight rest widens) _
    · have others := ih later
      rw [List.filter_cons, List.filter_cons]
      split
      · rw [if_pos (widens first ‹_›), weigh_cons, weigh_cons]
        omega
      · split
        · rw [weigh_cons]
          omega
        · exact others

end

end ActorIsolation
