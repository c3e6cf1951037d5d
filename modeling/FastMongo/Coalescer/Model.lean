import FastMongo.Base.Status
import FastMongo.Lib.Reachability
import Mathlib.Control.Monad.Basic

/-!
`ConfigQueryCoalescer` (`db/s/config/config_query_coalescer.cpp`) as a transition system over
any number of concurrent `tryCoalesce` calls. Everything between taking and releasing `_mutex`
is one step; the unlocked parts are the `_shutdown` test at entry, the `queryFunc` call and the
read of the caller's own `WaiterState` after the lock is released. Call `id` asks for the
namespace and version `requests id`, and its `queryFunc`, if it runs, ends as `answers id`:
a value, an error status or an exception escaping `queryFunc`. Wait times are left to the
schedule: a waiting follower may time out whenever the code would re-check its clock. The
statistics counters are not modelled.
-/

namespace FastMongo.Coalescer

/-- `ConfigQueryCoalescer::Config` without the wait durations. -/
structure Config where
  maxWaitersPerGroup : Nat
  maxVersionGap : Nat

/-- What one call asks for: the grouping key `ns` and `requestVersion`. -/
structure Request where
  ns : String
  version : Nat

/-- How a call's `queryFunc` ends when it is run. -/
inductive QueryOutcome (γ : Type) where
  | value (result : List γ)
  | error (status : Status)
  | exception

/-- `WaiterState`, shared between a call and the group lists that hold it; `status = none`
is `Status::OK()`, `result = none` is a null `SharedResult`. -/
structure WaiterState (γ : Type) where
  result : Option (List γ) := none
  status : Option Status := none
  done : Bool := false

/-- `Waiter`: the call whose shared state it points to and the version it asked for. -/
structure Waiter where
  call : Nat
  requestedVersion : Nat
  deriving DecidableEq, Repr

/-- `CoalescingGroup`. -/
structure CoalescingGroup where
  ns : String
  generation : Nat
  minVersion : Nat
  maxVersion : Nat
  queryInProgress : Bool
  queryCompleted : Bool
  waiters : List Waiter

/-- Where a `tryCoalesce` call is. -/
inductive Phase (γ : Type) where
  | idle
  /-- Past the unlocked `_shutdown` test, waiting for `_mutex`. -/
  | entering
  /-- Case 1: created the group of this generation and runs `queryFunc` unlocked. -/
  | leading (generation : Nat)
  /-- Version gap or overflow: runs its own `queryFunc` unlocked. -/
  | independent
  /-- Case 2: joined the group of this generation and is in the wait loop. -/
  | waiting (generation : Nat)
  /-- A follower promoted to leader that runs `queryFunc` unlocked. -/
  | promoted (generation : Nat)
  | returned (result : StatusWith (List γ))
  /-- An exception escaped `queryFunc` and left `tryCoalesce`. -/
  | unwound
  deriving DecidableEq

/-- The mutex-protected fields of the coalescer, the shared waiter states, each call's place,
and, as history only, whether each call has invoked its own `queryFunc`. -/
structure State (γ : Type) where
  groups : List CoalescingGroup
  nextGeneration : Nat
  shutdown : Bool
  waiterStates : Nat → WaiterState γ
  phases : Nat → Phase γ
  ranQuery : Nat → Bool

/-- The scheduler's choices: which call moves, or a `shutdown()`. -/
inductive Action where
  | call (id : Nat)
  | lock (id : Nat)
  | finishQuery (id : Nat)
  | wake (id : Nat)
  | timeOut (id : Nat)
  | promote (id : Nat)
  | shutdown

variable {γ : Type}

/-- The coalescer before any call. -/
def State.init : State γ where
  groups := []
  nextGeneration := 0
  shutdown := false
  waiterStates := fun _ => {}
  phases := fun _ => .idle
  ranQuery := fun _ => false

/-- The status of every shut-down return. -/
def shutdownStatus : Status := ⟨.shutdownInProgress, "ConfigQueryCoalescer is shutting down"⟩

/-- The status of a total wait timeout. -/
def timeoutStatus (ns : String) : Status :=
  ⟨.exceededTimeLimit, "Coalescing wait timed out for " ++ ns⟩

/-- `_groups.find(ns)`. -/
def findGroup (groups : List CoalescingGroup) (ns : String) : Option CoalescingGroup :=
  groups.find? fun group => group.ns == ns

/-- `_groups.erase(ns)`. -/
def eraseGroup (groups : List CoalescingGroup) (ns : String) : List CoalescingGroup :=
  groups.filter fun group => group.ns != ns

/-- An in-place change of the group stored under `ns`. -/
def modifyGroup (groups : List CoalescingGroup) (ns : String)
    (change : CoalescingGroup → CoalescingGroup) : List CoalescingGroup :=
  groups.map fun group => if group.ns == ns then change group else group

/-- The group a Case 1 leader creates: its own waiter only, the query already marked running. -/
def newGroup (id : Nat) (request : Request) (generation : Nat) : CoalescingGroup where
  ns := request.ns
  generation := generation
  minVersion := request.version
  maxVersion := request.version
  queryInProgress := true
  queryCompleted := false
  waiters := [⟨id, request.version⟩]

/-- `waiters.emplace_back(waiterState, requestVersion)`. -/
def addWaiter (group : CoalescingGroup) (waiter : Waiter) : CoalescingGroup :=
  { group with waiters := group.waiters ++ [waiter] }

/-- `waiters.remove_if(w.state == waiterState)`. -/
def removeWaiter (group : CoalescingGroup) (id : Nat) : CoalescingGroup :=
  { group with waiters := group.waiters.filter fun waiter => waiter.call != id }

/-- The total-timeout removal: only from the group of the follower's own generation. -/
def leaveGroup (groups : List CoalescingGroup) (ns : String) (generation id : Nat) :
    List CoalescingGroup :=
  match findGroup groups ns with
  | some group =>
      if group.generation = generation then modifyGroup groups ns (removeWaiter · id) else groups
  | none => groups

/-- `StatusWith` of a `queryFunc` that returned. -/
def QueryOutcome.toStatusWith : QueryOutcome γ → Option (StatusWith (List γ))
  | .value result => some (.ok result)
  | .error status => some (.error status)
  | .exception => none

/-- What `std::move(queryResult.getValue())` leaves in `queryResult`: a moved-from vector, which
is empty. -/
def movedFrom : StatusWith (List γ) → StatusWith (List γ)
  | .ok _ => .ok []
  | .error status => .error status

/-- The shared state a waiter ends with when the leader hands it the query result. -/
def completedState (queryResult : StatusWith (List γ)) : WaiterState γ :=
  match queryResult with
  | .ok result => { result := some result, status := none, done := true }
  | .error status => { result := none, status := some status, done := true }

/-- The distribution loop: every listed waiter's shared state gets the result and is done. -/
def distribute (states : Nat → WaiterState γ) (waiters : List Waiter)
    (queryResult : StatusWith (List γ)) : Nat → WaiterState γ :=
  fun id => if waiters.any fun waiter => waiter.call == id then completedState queryResult else states id

/-- The shutdown loop: every listed waiter's shared state gets the shutdown status. -/
def notifyShutdown (states : Nat → WaiterState γ) (groups : List CoalescingGroup) :
    Nat → WaiterState γ :=
  fun id =>
    if groups.any fun group => group.waiters.any fun waiter => waiter.call == id then
      { states id with status := some shutdownStatus, done := true }
    else states id

/-- What a call returns from its own `WaiterState`. -/
def readWaiterState (state : WaiterState γ) : StatusWith (List γ) :=
  match state.status, state.result with
  | some status, _ => .error status
  | none, some result => .ok result
  | none, none => .ok []

/-- The call moves to another place in `tryCoalesce`. -/
def State.setPhase (s : State γ) (id : Nat) (phase : Phase γ) : State γ :=
  { s with phases := Function.update s.phases id phase }

/-- History: the call has invoked its own `queryFunc`. -/
def State.markRan (s : State γ) (id : Nat) : State γ :=
  { s with ranQuery := Function.update s.ranQuery id true }

/-- The locked code after a leader's `queryFunc` returned: if the group of its generation is
still stored, every waiter gets the result and the group is erased. -/
def completeGroup (s : State γ) (ns : String) (generation : Nat)
    (queryResult : StatusWith (List γ)) : State γ :=
  match findGroup s.groups ns with
  | some group =>
      if group.generation = generation then
        { s with
          waiterStates := distribute s.waiterStates group.waiters queryResult
          groups := eraseGroup s.groups ns }
      else s
  | none => s

section Step

variable (config : Config) (requests : Nat → Request) (answers : Nat → QueryOutcome γ)

/-- The entry of `tryCoalesce`: the unlocked `_shutdown` test. -/
def callStep (s : State γ) (id : Nat) : Option (State γ) :=
  match s.phases id with
  | .idle =>
      some (s.setPhase id (if s.shutdown then .returned (.error shutdownStatus) else .entering))
  | _ => none

/-- The first locked section: Case 1 creates a group and leads it; Case 2 checks the version
gap and the waiter count, then joins. -/
def lockStep (s : State γ) (id : Nat) : Option (State γ) :=
  match s.phases id with
  | .entering =>
      let request := requests id
      match findGroup s.groups request.ns with
      | none =>
          let generation := s.nextGeneration + 1
          some ((({ s with
            groups := newGroup id request generation :: s.groups
            nextGeneration := generation }).setPhase id (.leading generation)).markRan id)
      | some group =>
          let newMinVersion := min group.minVersion request.version
          let newMaxVersion := max group.maxVersion request.version
          if newMaxVersion - newMinVersion > config.maxVersionGap ∨
              group.waiters.length ≥ config.maxWaitersPerGroup then
            some ((s.setPhase id .independent).markRan id)
          else
            some (({ s with
              groups := modifyGroup s.groups request.ns
                (addWaiter · ⟨id, request.version⟩) }).setPhase id (.waiting group.generation))
  | _ => none

/-- A `queryFunc` ends; a leader or promoted follower then runs its locked distribution. -/
def finishQueryStep (s : State γ) (id : Nat) : Option (State γ) :=
  match s.phases id, (answers id).toStatusWith with
  | .leading _, none | .independent, none | .promoted _, none => some (s.setPhase id .unwound)
  | .independent, some queryResult => some (s.setPhase id (.returned queryResult))
  | .leading generation, some queryResult =>
      if s.shutdown then some (s.setPhase id (.returned (.error shutdownStatus)))
      else
        let s' := completeGroup s (requests id).ns generation queryResult
        some (s'.setPhase id (.returned (readWaiterState (s'.waiterStates id))))
  | .promoted generation, some queryResult =>
      if s.shutdown then some (s.setPhase id (.returned (.error shutdownStatus)))
      else
        -- when the group is still stored its waiters get the result, moved out of `queryResult`
        let stored := (findGroup s.groups (requests id).ns).any fun group =>
          group.generation == generation
        some ((completeGroup s (requests id).ns generation queryResult).setPhase id
          (.returned (if stored then movedFrom queryResult else queryResult)))
  | _, _ => none

/-- The wait loop breaks on `done` or `_shutdown`; the caller then reads its own state. -/
def wakeStep (s : State γ) (id : Nat) : Option (State γ) :=
  match s.phases id with
  | .waiting _ =>
      if (s.waiterStates id).done || s.shutdown then
        some (s.setPhase id (.returned
          (if s.shutdown then .error shutdownStatus else readWaiterState (s.waiterStates id))))
      else none
  | _ => none

/-- The total wait time ran out: the follower leaves its group, if still stored, and fails. -/
def timeOutStep (s : State γ) (id : Nat) : Option (State γ) :=
  match s.phases id with
  | .waiting generation =>
      if (s.waiterStates id).done || s.shutdown then none
      else
        some ({ s with groups := leaveGroup s.groups (requests id).ns generation id }.setPhase id
          (.returned (.error (timeoutStatus (requests id).ns))))
  | _ => none

/-- One wait timed out and the group of the follower's generation has no query running or
done: the follower marks the query as running, leaves the list and runs `queryFunc`. -/
def promoteStep (s : State γ) (id : Nat) : Option (State γ) :=
  match s.phases id with
  | .waiting generation =>
      if (s.waiterStates id).done || s.shutdown then none
      else
        match findGroup s.groups (requests id).ns with
        | some group =>
            if group.generation = generation ∧ !group.queryInProgress ∧ !group.queryCompleted then
              some ((({ s with
                groups := modifyGroup s.groups (requests id).ns fun group =>
                  removeWaiter { group with queryInProgress := true } id }).setPhase id
                (.promoted generation)).markRan id)
            else none
        | none => none
  | _ => none

/-- `shutdown()`: every waiter still listed gets the shutdown status and the map is cleared. -/
def shutdownStep (s : State γ) : State γ :=
  { s with
    shutdown := true
    waiterStates := notifyShutdown s.waiterStates s.groups
    groups := [] }

/-- One scheduled step of the coalescer. -/
def step (s : State γ) : Action → Option (State γ)
  | .call id => callStep s id
  | .lock id => lockStep config requests s id
  | .finishQuery id => finishQueryStep requests answers s id
  | .wake id => wakeStep s id
  | .timeOut id => timeOutStep requests s id
  | .promote id => promoteStep requests s id
  | .shutdown => some (shutdownStep s)

/-- The states that some interleaving of the calls and shutdowns reaches. -/
def Reachable (s : State γ) : Prop :=
  StepSystem.Reachable (step config requests answers) State.init s

/-- A schedule whose final state passes a computable test witnesses a reachable state with that
property. -/
theorem exists_reachable_of_run (actions : List Action) (property : State γ → Bool)
    (checked : (StepSystem.runActions (step config requests answers) State.init actions).any
      property = true) :
    ∃ s, Reachable config requests answers s ∧ property s = true :=
  StepSystem.Reachable.exists_of_runActions actions property checked

/-- A schedule whose final state is observed to give `value` witnesses a reachable state that
gives it. -/
theorem exists_reachable_of_run_map {B : Type} (actions : List Action) (observe : State γ → B)
    {value : B}
    (observed : (StepSystem.runActions (step config requests answers) State.init actions).map
      observe = some value) :
    ∃ s, Reachable config requests answers s ∧ observe s = value :=
  StepSystem.Reachable.exists_of_runActions_map actions observe observed

end Step

end FastMongo.Coalescer
