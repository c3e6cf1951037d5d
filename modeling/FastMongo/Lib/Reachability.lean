import Mathlib.Data.Option.Basic

/-!
Deterministic labelled transition systems: a step function that either takes an enabled
action or refuses it, the states reachable from an initial state, the invariant rule, and
the executable runs that witness reachability; and the invariant rules for a loop that takes a
step for each of its inputs, a left fold of a step function, and a fold whose steps may fail.
-/

namespace StepSystem

variable {S A : Type} (step : S → A → Option S)

/-- The states that a sequence of enabled actions reaches from `start`. -/
inductive Reachable (start : S) : S → Prop
  | refl : Reachable start start
  | tail {s next : S} (action : A) : Reachable start s → step s action = some next →
      Reachable start next

/-- This run takes the actions in order and fails at the first refused one. -/
def runActions : S → List A → Option S
  | s, [] => some s
  | s, action :: rest => (step s action).bind fun next => runActions next rest

@[simp] theorem runActions_nil (s : S) : runActions step s [] = some s := rfl

@[simp] theorem runActions_cons (s : S) (action : A) (rest : List A) :
    runActions step s (action :: rest) = (step s action).bind fun next => runActions step next rest :=
  rfl

variable {step}

theorem Reachable.trans {start middle finish : S} (first : Reachable step start middle)
    (second : Reachable step middle finish) : Reachable step start finish := by
  induction second with
  | refl => exact first
  | tail action _ enabled ih => exact .tail action ih enabled

/-- A run that ends at `finish` is a reachability witness. -/
theorem Reachable.of_runActions {start finish : S} (actions : List A)
    (ran : runActions step start actions = some finish) : Reachable step start finish := by
  induction actions generalizing start with
  | nil =>
      simp only [runActions_nil, Option.some.injEq] at ran
      subst ran
      exact .refl
  | cons action rest ih =>
      simp only [runActions_cons, Option.bind_eq_some_iff] at ran
      obtain ⟨next, enabled, continued⟩ := ran
      exact Reachable.trans (.tail action .refl enabled) (ih continued)

/-- A concrete schedule whose final state passes a computable test witnesses a reachable state
with that property. -/
theorem Reachable.exists_of_runActions {start : S} (actions : List A) (property : S → Bool)
    (checked : (runActions step start actions).any property = true) :
    ∃ finish, Reachable step start finish ∧ property finish = true := by
  cases ran : runActions step start actions with
  | none =>
      rw [ran] at checked
      cases checked
  | some finish =>
      rw [ran, Option.any_some] at checked
      exact ⟨finish, Reachable.of_runActions actions ran, checked⟩

/-- A concrete schedule whose final state is observed to give `value` witnesses a reachable state
that gives it; the observation may mention free parameters of the system. -/
theorem Reachable.exists_of_runActions_map {B : Type} {start : S} (actions : List A)
    (observe : S → B) {value : B}
    (observed : (runActions step start actions).map observe = some value) :
    ∃ finish, Reachable step start finish ∧ observe finish = value := by
  obtain ⟨finish, ran, same⟩ := Option.map_eq_some_iff.mp observed
  exact ⟨finish, Reachable.of_runActions actions ran, same⟩

/-- The invariant rule: a property of the start state that every enabled step keeps holds in
every reachable state. -/
theorem Reachable.invariant (holds : S → Prop) {start finish : S} (initial : holds start)
    (preserved : ∀ s action next, holds s → step s action = some next → holds next)
    (reached : Reachable step start finish) : holds finish := by
  induction reached with
  | refl => exact initial
  | tail action _ enabled ih => exact preserved _ action _ ih enabled

/-- The invariant rule for a run whose actions are all of an allowed kind: a property of the start
state that every allowed enabled step keeps holds where the run ends. -/
theorem runActions_invariant (holds : S → Prop) (allowed : A → Prop)
    (preserved : ∀ s action next, allowed action → holds s → step s action = some next → holds next) :
    ∀ (actions : List A) (start finish : S), (∀ action ∈ actions, allowed action) → holds start →
      runActions step start actions = some finish → holds finish := by
  intro actions
  induction actions with
  | nil =>
      intro start finish _ initial ran
      simp only [runActions_nil, Option.some.injEq] at ran
      exact ran ▸ initial
  | cons action rest ih =>
      intro start finish permitted initial ran
      simp only [runActions_cons, Option.bind_eq_some_iff] at ran
      obtain ⟨next, enabled, continued⟩ := ran
      exact ih next finish (fun other member => permitted other (List.mem_cons_of_mem _ member))
        (preserved start action next (permitted action List.mem_cons_self) initial enabled) continued

/-- The invariant rule for a loop that takes a step for each input in order. -/
theorem foldl_invariant {T B : Type} (holds : T → Prop) (next : T → B → T) (inputs : List B)
    (preserved : ∀ state input, input ∈ inputs → holds state → holds (next state input)) :
    ∀ state, holds state → holds (inputs.foldl next state) := by
  induction inputs with
  | nil => exact fun _ initial => initial
  | cons input rest ih =>
      intro state initial
      rw [List.foldl_cons]
      apply ih fun state other member => preserved state other (List.mem_cons_of_mem _ member)
      exact preserved state input List.mem_cons_self initial

/-- The invariant rule for a loop that may fail at each input: a property indexed by the number of
inputs taken, which every successful step carries one input further, holds of a successful loop's
result at the number of all its inputs. -/
theorem foldlM_invariant {ε T B : Type} (holds : Nat → T → Prop) (next : T → B → Except ε T)
    (preserved : ∀ taken state input result, holds taken state → next state input = .ok result →
      holds (taken + 1) result) :
    ∀ (inputs : List B) (taken : Nat) (state finish : T), holds taken state →
      inputs.foldlM next state = .ok finish → holds (taken + inputs.length) finish := by
  intro inputs
  induction inputs with
  | nil =>
      intro taken state finish initial ran
      cases ran
      exact initial
  | cons input rest ih =>
      intro taken state finish initial ran
      rw [List.foldlM_cons] at ran
      cases stepped : next state input with
      | error failure =>
          rw [stepped] at ran
          cases ran
      | ok result =>
          rw [stepped] at ran
          have later := ih (taken + 1) result finish (preserved taken state input result initial stepped) ran
          rwa [List.length_cons, ← Nat.add_assoc, Nat.add_right_comm]

/-- A loop whose step functions agree on every input it takes computes the same. -/
theorem foldlM_congr {M : Type → Type} [Monad M] {T B : Type} (next next' : T → B → M T)
    (inputs : List B) (agree : ∀ state input, input ∈ inputs → next state input = next' state input) :
    ∀ state, inputs.foldlM next state = inputs.foldlM next' state := by
  induction inputs with
  | nil => exact fun _ => rfl
  | cons input rest ih =>
      intro state
      have later := ih fun state other member => agree state other (List.mem_cons_of_mem _ member)
      simp only [List.foldlM_cons, agree state input List.mem_cons_self, later]

end StepSystem
