import FastMongo.Coalescer.Model
import Mathlib.Data.List.Nodup

/-!
The invariant of the coalescer over every interleaving. Its facts: the group map has one group
per key; every stored group has its query marked running (so a follower is never promoted);
a group's version range is the creator's version alone, since joins never widen it; every
listed waiter is within the version gap of that version; and every shared result a follower
reads was produced by the `queryFunc` of a call with the same key and a version within the gap.
-/

namespace FastMongo.Coalescer

variable {γ : Type}

/-- The distance between two versions, as the gap test measures it. -/
def versionGap (first second : Nat) : Nat := max first second - min first second

@[simp] theorem State.setPhase_groups (s : State γ) (id : Nat) (phase : Phase γ) :
    (s.setPhase id phase).groups = s.groups := rfl
@[simp] theorem State.setPhase_nextGeneration (s : State γ) (id : Nat) (phase : Phase γ) :
    (s.setPhase id phase).nextGeneration = s.nextGeneration := rfl
@[simp] theorem State.setPhase_shutdown (s : State γ) (id : Nat) (phase : Phase γ) :
    (s.setPhase id phase).shutdown = s.shutdown := rfl
@[simp] theorem State.setPhase_waiterStates (s : State γ) (id : Nat) (phase : Phase γ) :
    (s.setPhase id phase).waiterStates = s.waiterStates := rfl
@[simp] theorem State.setPhase_ranQuery (s : State γ) (id : Nat) (phase : Phase γ) :
    (s.setPhase id phase).ranQuery = s.ranQuery := rfl
@[simp] theorem State.setPhase_phases (s : State γ) (id : Nat) (phase : Phase γ) :
    (s.setPhase id phase).phases = Function.update s.phases id phase := rfl
@[simp] theorem State.markRan_groups (s : State γ) (id : Nat) : (s.markRan id).groups = s.groups := rfl
@[simp] theorem State.markRan_nextGeneration (s : State γ) (id : Nat) :
    (s.markRan id).nextGeneration = s.nextGeneration := rfl
@[simp] theorem State.markRan_shutdown (s : State γ) (id : Nat) :
    (s.markRan id).shutdown = s.shutdown := rfl
@[simp] theorem State.markRan_waiterStates (s : State γ) (id : Nat) :
    (s.markRan id).waiterStates = s.waiterStates := rfl
@[simp] theorem State.markRan_phases (s : State γ) (id : Nat) : (s.markRan id).phases = s.phases := rfl
@[simp] theorem State.markRan_ranQuery (s : State γ) (id : Nat) :
    (s.markRan id).ranQuery = Function.update s.ranQuery id true := rfl

@[simp] theorem newGroup_ns (id : Nat) (request : Request) (generation : Nat) :
    (newGroup id request generation).ns = request.ns := rfl
@[simp] theorem addWaiter_ns (group : CoalescingGroup) (waiter : Waiter) :
    (addWaiter group waiter).ns = group.ns := rfl
@[simp] theorem removeWaiter_ns (group : CoalescingGroup) (id : Nat) :
    (removeWaiter group id).ns = group.ns := rfl

section GroupMap

variable {groups : List CoalescingGroup} {ns : String} {group : CoalescingGroup}

theorem findGroup_some (found : findGroup groups ns = some group) :
    group ∈ groups ∧ group.ns = ns := by
  refine ⟨List.mem_of_find?_eq_some found, ?_⟩
  simpa using List.find?_some found

theorem findGroup_none (missing : findGroup groups ns = none) : ∀ group ∈ groups, group.ns ≠ ns := by
  intro group member same
  simp only [findGroup, List.find?_eq_none, beq_iff_eq] at missing
  exact missing group member same

/-- With one group per key, the stored group of a key is the one `find` returns. -/
theorem findGroup_of_mem (unique : (groups.map CoalescingGroup.ns).Nodup) (member : group ∈ groups) :
    findGroup groups group.ns = some group := by
  cases found : findGroup groups group.ns with
  | none => exact absurd rfl (findGroup_none found group member)
  | some other =>
      obtain ⟨otherMember, sameNs⟩ := findGroup_some found
      rw [List.inj_on_of_nodup_map unique otherMember member sameNs]

theorem mem_eraseGroup : group ∈ eraseGroup groups ns ↔ group ∈ groups ∧ group.ns ≠ ns := by
  simp [eraseGroup]

theorem mem_modifyGroup {change : CoalescingGroup → CoalescingGroup}
    (member : group ∈ modifyGroup groups ns change) :
    ∃ old ∈ groups, (old.ns = ns ∧ group = change old) ∨ (old.ns ≠ ns ∧ group = old) := by
  simp only [modifyGroup, List.mem_map] at member
  obtain ⟨old, oldMember, changed⟩ := member
  refine ⟨old, oldMember, ?_⟩
  by_cases same : old.ns = ns
  · exact .inl ⟨same, by simpa [same] using changed.symm⟩
  · exact .inr ⟨same, by simpa [same] using changed.symm⟩

theorem modifyGroup_keys {change : CoalescingGroup → CoalescingGroup}
    (keepsNs : ∀ group, (change group).ns = group.ns) :
    (modifyGroup groups ns change).map CoalescingGroup.ns = groups.map CoalescingGroup.ns := by
  simp only [modifyGroup, List.map_map]
  apply List.map_congr_left
  intro group _
  by_cases same : group.ns = ns <;> simp [same, keepsNs]

theorem eraseGroup_nodup (unique : (groups.map CoalescingGroup.ns).Nodup) :
    ((eraseGroup groups ns).map CoalescingGroup.ns).Nodup :=
  unique.sublist ((List.filter_sublist).map _)

theorem leaveGroup_cases {generation id : Nat} (member : group ∈ leaveGroup groups ns generation id) :
    ∃ old ∈ groups, group = old ∨ group = removeWaiter old id := by
  unfold leaveGroup at member
  split at member
  · split at member
    · obtain ⟨old, oldMember, ⟨_, changed⟩ | ⟨_, kept⟩⟩ := mem_modifyGroup member
      · exact ⟨old, oldMember, .inr changed⟩
      · exact ⟨old, oldMember, .inl kept⟩
    · exact ⟨group, member, .inl rfl⟩
  · exact ⟨group, member, .inl rfl⟩

theorem leaveGroup_keys {generation id : Nat} :
    (leaveGroup groups ns generation id).map CoalescingGroup.ns = groups.map CoalescingGroup.ns := by
  unfold leaveGroup
  split
  · split
    · exact modifyGroup_keys fun group => removeWaiter_ns group id
    · rfl
  · rfl

end GroupMap

theorem distribute_listed {states : Nat → WaiterState γ} {waiters : List Waiter}
    {queryResult : StatusWith (List γ)} {id : Nat} (listed : ∃ waiter ∈ waiters, waiter.call = id) :
    distribute states waiters queryResult id = completedState queryResult := by
  have found : (waiters.any fun waiter => waiter.call == id) = true := by simpa using listed
  simp only [distribute, found, if_true]

theorem distribute_unlisted {states : Nat → WaiterState γ} {waiters : List Waiter}
    {queryResult : StatusWith (List γ)} {id : Nat} (unlisted : ¬ ∃ waiter ∈ waiters, waiter.call = id) :
    distribute states waiters queryResult id = states id := by
  have missing : (waiters.any fun waiter => waiter.call == id) = false := by simpa using unlisted
  simp only [distribute, missing, Bool.false_eq_true, if_false]

theorem notifyShutdown_status (states : Nat → WaiterState γ) (groups : List CoalescingGroup) (id : Nat) :
    notifyShutdown states groups id = states id ∨
      (notifyShutdown states groups id).status = some shutdownStatus := by
  unfold notifyShutdown
  split
  · exact .inr rfl
  · exact .inl rfl

section Invariant

variable (config : Config) (requests : Nat → Request) (answers : Nat → QueryOutcome γ)

/-- Call `leader` has run its `queryFunc`, which returned `result`, for the key of call `served`
and for a version within the gap of `served`'s version. -/
def Serves (s : State γ) (leader : Nat) (result : List γ) (served : Nat) : Prop :=
  answers leader = .value result ∧ s.ranQuery leader = true ∧
    (requests leader).ns = (requests served).ns ∧
    versionGap (requests served).version (requests leader).version ≤ config.maxVersionGap

/-- The facts every reachable state of the coalescer keeps. -/
structure Invariant (s : State γ) : Prop where
  keysUnique : (s.groups.map CoalescingGroup.ns).Nodup
  inProgress : ∀ group ∈ s.groups, group.queryInProgress = true
  versionsFixed : ∀ group ∈ s.groups, group.maxVersion = group.minVersion
  generationBound : ∀ group ∈ s.groups, group.generation ≤ s.nextGeneration
  waitersClose : ∀ group ∈ s.groups, ∀ waiter ∈ group.waiters,
    (requests waiter.call).ns = group.ns ∧ waiter.requestedVersion = (requests waiter.call).version ∧
      versionGap waiter.requestedVersion group.minVersion ≤ config.maxVersionGap
  leaderGroup : ∀ leader generation, s.phases leader = .leading generation →
    generation ≤ s.nextGeneration ∧ s.ranQuery leader = true ∧
      ∀ group ∈ s.groups, group.generation = generation →
        group.ns = (requests leader).ns ∧ group.minVersion = (requests leader).version
  groupCreator : ∀ group ∈ s.groups, s.shutdown = true ∨ ∃ leader,
    s.phases leader = .leading group.generation ∨ s.phases leader = .unwound
  independentRan : ∀ id, s.phases id = .independent → s.ranQuery id = true
  unwoundThrew : ∀ id, s.phases id = .unwound → answers id = .exception
  notPromoted : ∀ id generation, s.phases id ≠ .promoted generation
  sharedResult : ∀ id, (s.waiterStates id).done = true → (s.waiterStates id).status = none →
    ∃ leader result, (s.waiterStates id).result = some result ∧
      Serves config requests answers s leader result id
  returnedResult : ∀ id result, s.phases id = .returned (.ok result) → s.ranQuery id = false →
    ∃ leader, Serves config requests answers s leader result id

variable {config requests answers}

theorem Serves.mono {s s' : State γ} {leader served : Nat} {result : List γ}
    (serves : Serves config requests answers s leader result served)
    (ranKept : ∀ id, s.ranQuery id = true → s'.ranQuery id = true) :
    Serves config requests answers s' leader result served :=
  ⟨serves.1, ranKept _ serves.2.1, serves.2.2⟩

theorem invariant_init : Invariant config requests answers (State.init : State γ) where
  keysUnique := List.nodup_nil
  inProgress := by simp [State.init]
  versionsFixed := by simp [State.init]
  generationBound := by simp [State.init]
  waitersClose := by simp [State.init]
  leaderGroup := by simp [State.init]
  groupCreator := by simp [State.init]
  independentRan := by simp [State.init]
  unwoundThrew := by simp [State.init]
  notPromoted := by simp [State.init]
  sharedResult := by simp [State.init]
  returnedResult := by simp [State.init]

/-- Recording that a call ran its `queryFunc` keeps every fact: the history only grows. -/
theorem Invariant.markRan {s : State γ} (holds : Invariant config requests answers s) (id : Nat) :
    Invariant config requests answers (s.markRan id) := by
  have ranKept : ∀ other, s.ranQuery other = true → (s.markRan id).ranQuery other = true := by
    intro other ran
    by_cases same : other = id
    · simp [same]
    · simpa [Function.update_of_ne same] using ran
  refine { holds with
    leaderGroup := ?_
    independentRan := fun other independent => ranKept other (holds.independentRan other independent)
    sharedResult := ?_
    returnedResult := ?_ }
  · intro leader generation leading
    obtain ⟨bound, ran, groups⟩ := holds.leaderGroup leader generation leading
    exact ⟨bound, ranKept leader ran, groups⟩
  · intro other done ok
    obtain ⟨leader, result, stored, serves⟩ := holds.sharedResult other done ok
    exact ⟨leader, result, stored, serves.mono ranKept⟩
  · intro other result returned notRan
    have notRanBefore : s.ranQuery other = false := by
      by_cases same : other = id
      · simp [same] at notRan
      · simpa [Function.update_of_ne same] using notRan
    obtain ⟨leader, serves⟩ := holds.returnedResult other result returned notRanBefore
    exact ⟨leader, serves.mono ranKept⟩

/-- A timed-out follower leaving its group keeps every fact about the stored groups. -/
theorem Invariant.afterLeave {s : State γ} (holds : Invariant config requests answers s)
    (ns : String) (generation id : Nat) :
    Invariant config requests answers
      { s with groups := FastMongo.Coalescer.leaveGroup s.groups ns generation id } := by
  have origin : ∀ group ∈ FastMongo.Coalescer.leaveGroup s.groups ns generation id, ∃ old ∈ s.groups,
      group = old ∨ group = removeWaiter old id := fun _ member => leaveGroup_cases member
  refine { holds with
    keysUnique := ?_
    inProgress := ?_
    versionsFixed := ?_
    generationBound := ?_
    waitersClose := ?_
    leaderGroup := ?_
    groupCreator := ?_ }
  · simpa only [leaveGroup_keys] using holds.keysUnique
  · intro group member
    obtain ⟨old, oldMember, rfl | rfl⟩ := origin group member
    · exact holds.inProgress _ oldMember
    · exact holds.inProgress old oldMember
  · intro group member
    obtain ⟨old, oldMember, rfl | rfl⟩ := origin group member
    · exact holds.versionsFixed _ oldMember
    · exact holds.versionsFixed old oldMember
  · intro group member
    obtain ⟨old, oldMember, rfl | rfl⟩ := origin group member
    · exact holds.generationBound _ oldMember
    · exact holds.generationBound old oldMember
  · intro group member waiter listed
    obtain ⟨old, oldMember, rfl | rfl⟩ := origin group member
    · exact holds.waitersClose _ oldMember waiter listed
    · simp only [removeWaiter, List.mem_filter] at listed
      exact holds.waitersClose old oldMember waiter listed.1
  · intro leader leaderGeneration leading
    obtain ⟨bound, ran, groups⟩ := holds.leaderGroup leader leaderGeneration leading
    refine ⟨bound, ran, fun group member same => ?_⟩
    obtain ⟨old, oldMember, rfl | rfl⟩ := origin group member
    · exact groups _ oldMember same
    · exact groups old oldMember same
  · intro group member
    obtain ⟨old, oldMember, rfl | rfl⟩ := origin group member
    · exact holds.groupCreator _ oldMember
    · exact holds.groupCreator old oldMember

/-- Moving a call that creates no group to a place that neither leads, nor is promoted, nor
unwinds keeps every fact, provided a successful return there is served by some leader. -/
theorem Invariant.setPhase_inert {s : State γ} {id : Nat} {phase : Phase γ}
    (holds : Invariant config requests answers s)
    (notCreator : s.shutdown = false → ∀ group ∈ s.groups, s.phases id ≠ .leading group.generation)
    (notUnwound : s.phases id ≠ .unwound)
    (notLeading : ∀ generation, phase ≠ .leading generation)
    (notPromotedNew : ∀ generation, phase ≠ .promoted generation) (notUnwoundNew : phase ≠ .unwound)
    (ranIfIndependent : phase = .independent → s.ranQuery id = true)
    (served : ∀ result, phase = .returned (.ok result) → s.ranQuery id = false →
      ∃ leader, Serves config requests answers s leader result id) :
    Invariant config requests answers (s.setPhase id phase) := by
  have lookup : ∀ other, other ≠ id → (s.setPhase id phase).phases other = s.phases other :=
    fun other different => by simp [Function.update_of_ne different]
  refine { holds with
    leaderGroup := ?_
    groupCreator := ?_
    independentRan := ?_
    unwoundThrew := ?_
    notPromoted := ?_
    returnedResult := ?_ }
  · intro leader generation leading
    by_cases same : leader = id
    · subst same
      simp only [State.setPhase_phases, Function.update_self] at leading
      exact absurd leading (notLeading generation)
    · rw [lookup leader same] at leading
      exact holds.leaderGroup leader generation leading
  · intro group member
    cases shut : s.shutdown
    · obtain shut' | ⟨leader, created⟩ := holds.groupCreator group member
      · rw [shut] at shut'
        cases shut'
      refine .inr ⟨leader, ?_⟩
      by_cases same : leader = id
      · subst same
        rcases created with leading | unwound
        · exact absurd leading (notCreator shut group member)
        · exact absurd unwound notUnwound
      · rwa [lookup leader same]
    · exact .inl shut
  · intro other independent
    by_cases same : other = id
    · subst same
      simp only [State.setPhase_phases, Function.update_self] at independent
      exact ranIfIndependent independent
    · rw [lookup other same] at independent
      exact holds.independentRan other independent
  · intro other unwound
    by_cases same : other = id
    · subst same
      simp only [State.setPhase_phases, Function.update_self] at unwound
      exact absurd unwound notUnwoundNew
    · rw [lookup other same] at unwound
      exact holds.unwoundThrew other unwound
  · intro other generation promoted
    by_cases same : other = id
    · subst same
      simp only [State.setPhase_phases, Function.update_self] at promoted
      exact notPromotedNew generation promoted
    · rw [lookup other same] at promoted
      exact holds.notPromoted other generation promoted
  · intro other result returned notRan
    by_cases same : other = id
    · subst same
      simp only [State.setPhase_phases, Function.update_self] at returned
      exact served result returned notRan
    · rw [lookup other same] at returned
      exact holds.returnedResult other result returned notRan

theorem readWaiterState_ok {state : WaiterState γ} {result : List γ}
    (read : readWaiterState state = .ok result) :
    state.status = none ∧ (state.result = some result ∨ state.result = none ∧ result = []) := by
  unfold readWaiterState at read
  cases status : state.status with
  | some error => simp [status] at read
  | none =>
      cases stored : state.result with
      | some value =>
          simp only [status, stored, Except.ok.injEq] at read
          exact ⟨rfl, .inl (congrArg some read)⟩
      | none =>
          simp only [status, stored, Except.ok.injEq] at read
          exact ⟨rfl, .inr ⟨rfl, read.symm⟩⟩

theorem callStep_invariant {s s' : State γ} {id : Nat} (holds : Invariant config requests answers s)
    (stepped : callStep s id = some s') : Invariant config requests answers s' := by
  unfold callStep at stepped
  split at stepped
  · rename_i idle
    cases stepped
    apply holds.setPhase_inert (fun _ _ _ => by simp [idle]) (by simp [idle])
    all_goals cases s.shutdown <;> simp
  · cases stepped

theorem wakeStep_invariant {s s' : State γ} {id : Nat} (holds : Invariant config requests answers s)
    (stepped : wakeStep s id = some s') : Invariant config requests answers s' := by
  unfold wakeStep at stepped
  split at stepped
  · rename_i generation waiting
    split at stepped
    · rename_i woken
      cases stepped
      apply holds.setPhase_inert (fun _ _ _ => by simp [waiting]) (by simp [waiting]) (by simp)
        (by simp) (by simp) (by simp)
      intro result returned notRan
      cases shut : s.shutdown
      · -- without a shutdown the follower was woken by `done` and reads the shared result
        simp only [shut, Bool.false_eq_true, if_false, Phase.returned.injEq] at returned
        simp only [shut, Bool.or_false] at woken
        obtain ⟨ok, stored⟩ := readWaiterState_ok returned
        obtain ⟨leader, shared, storedShared, serves⟩ := holds.sharedResult id woken ok
        rcases stored with stored | ⟨empty, _⟩
        · rw [stored, Option.some.injEq] at storedShared
          exact ⟨leader, storedShared ▸ serves⟩
        · rw [empty] at storedShared
          cases storedShared
      · simp [shut] at returned
    · cases stepped
  · cases stepped

theorem timeOutStep_invariant {s s' : State γ} {id : Nat} (holds : Invariant config requests answers s)
    (stepped : timeOutStep requests s id = some s') : Invariant config requests answers s' := by
  unfold timeOutStep at stepped
  split at stepped
  · rename_i generation waiting
    split at stepped
    · cases stepped
    · cases stepped
      have left := holds.afterLeave (requests id).ns generation id
      apply left.setPhase_inert (fun _ _ _ => by simp [waiting]) (by simp [waiting])
      all_goals simp
  · cases stepped

/-- A follower is never promoted: every stored group has its query marked as running. -/
theorem promoteStep_none {s : State γ} {id : Nat} (holds : Invariant config requests answers s) :
    promoteStep requests s id = none := by
  unfold promoteStep
  split
  · split
    · rfl
    · split
      · rename_i group found
        have running := holds.inProgress group (findGroup_some found).1
        simp [running]
      · rfl
  · rfl

theorem shutdownStep_invariant {s : State γ} (holds : Invariant config requests answers s) :
    Invariant config requests answers (shutdownStep s) := by
  refine { holds with
    keysUnique := List.nodup_nil
    inProgress := by simp [shutdownStep]
    versionsFixed := by simp [shutdownStep]
    generationBound := by simp [shutdownStep]
    waitersClose := by simp [shutdownStep]
    leaderGroup := ?_
    groupCreator := by simp [shutdownStep]
    sharedResult := ?_ }
  · intro leader generation leading
    obtain ⟨bound, ran, _⟩ := holds.leaderGroup leader generation leading
    exact ⟨bound, ran, by simp [shutdownStep]⟩
  · intro other done ok
    rcases notifyShutdown_status s.waiterStates s.groups other with same | shut
    · simp only [shutdownStep, same] at done ok ⊢
      exact holds.sharedResult other done ok
    · simp only [shutdownStep] at ok
      rw [shut] at ok
      cases ok

/-- Case 1 of the first locked section: the call creates the group of the next generation. -/
theorem Invariant.afterCreate {s : State γ} {id : Nat} (holds : Invariant config requests answers s)
    (entering : s.phases id = .entering) (missing : findGroup s.groups (requests id).ns = none) :
    Invariant config requests answers
      ((({ s with
        groups := newGroup id (requests id) (s.nextGeneration + 1) :: s.groups
        nextGeneration := s.nextGeneration + 1 } : State γ).setPhase id
          (.leading (s.nextGeneration + 1))).markRan id) := by
  have ranKept : ∀ other, s.ranQuery other = true →
      Function.update s.ranQuery id true other = true := by
    intro other ran
    by_cases same : other = id
    · simp [same]
    · simpa [Function.update_of_ne same] using ran
  have otherPhase : ∀ other, other ≠ id →
      Function.update s.phases id (.leading (s.nextGeneration + 1)) other = s.phases other :=
    fun other different => Function.update_of_ne different _ _
  refine
    { keysUnique := ?_
      inProgress := ?_
      versionsFixed := ?_
      generationBound := ?_
      waitersClose := ?_
      leaderGroup := ?_
      groupCreator := ?_
      independentRan := ?_
      unwoundThrew := ?_
      notPromoted := ?_
      sharedResult := ?_
      returnedResult := ?_ }
  · refine List.nodup_cons.mpr ⟨?_, holds.keysUnique⟩
    simp only [newGroup_ns, List.mem_map, not_exists, not_and]
    exact fun group member same => findGroup_none missing group member same
  · intro group member
    rcases List.mem_cons.mp member with rfl | old
    · rfl
    · exact holds.inProgress group old
  · intro group member
    rcases List.mem_cons.mp member with rfl | old
    · rfl
    · exact holds.versionsFixed group old
  · intro group member
    rcases List.mem_cons.mp member with rfl | old
    · exact Nat.le_refl _
    · exact Nat.le_succ_of_le (holds.generationBound group old)
  · intro group member waiter listed
    rcases List.mem_cons.mp member with rfl | old
    · simp only [newGroup, List.mem_singleton] at listed
      subst listed
      simp [newGroup, versionGap]
    · exact holds.waitersClose group old waiter listed
  · intro leader generation leading
    by_cases same : leader = id
    · subst same
      simp only [State.markRan_phases, State.setPhase_phases, Function.update_self,
        Phase.leading.injEq] at leading
      subst leading
      refine ⟨Nat.le_refl _, by simp, fun group member fresh => ?_⟩
      rcases List.mem_cons.mp member with rfl | old
      · exact ⟨rfl, rfl⟩
      · have bound := holds.generationBound group old
        omega
    · simp only [State.markRan_phases, State.setPhase_phases, otherPhase leader same] at leading
      obtain ⟨bound, ran, groups⟩ := holds.leaderGroup leader generation leading
      refine ⟨Nat.le_succ_of_le bound, ranKept leader ran, fun group member same => ?_⟩
      rcases List.mem_cons.mp member with rfl | old
      · simp only [newGroup] at same
        omega
      · exact groups group old same
  · intro group member
    rcases List.mem_cons.mp member with rfl | old
    · exact .inr ⟨id, .inl (by simp [newGroup])⟩
    · obtain shut | ⟨leader, created⟩ := holds.groupCreator group old
      · exact .inl shut
      have different : leader ≠ id := by
        rintro rfl
        rcases created with leading | unwound
        · rw [entering] at leading
          cases leading
        · rw [entering] at unwound
          cases unwound
      have moved := otherPhase leader different
      refine .inr ⟨leader, ?_⟩
      simpa only [State.markRan_phases, State.setPhase_phases, moved] using created
  · intro other independent
    by_cases same : other = id
    · subst same
      simp at independent
    · simp only [State.markRan_phases, State.setPhase_phases, otherPhase other same] at independent
      exact ranKept other (holds.independentRan other independent)
  · intro other unwound
    by_cases same : other = id
    · subst same
      simp at unwound
    · simp only [State.markRan_phases, State.setPhase_phases, otherPhase other same] at unwound
      exact holds.unwoundThrew other unwound
  · intro other generation promoted
    by_cases same : other = id
    · subst same
      simp at promoted
    · simp only [State.markRan_phases, State.setPhase_phases, otherPhase other same] at promoted
      exact holds.notPromoted other generation promoted
  · intro other done ok
    obtain ⟨leader, result, stored, serves⟩ := holds.sharedResult other done ok
    exact ⟨leader, result, stored, serves.mono ranKept⟩
  · intro other result returned notRan
    by_cases same : other = id
    · subst same
      simp at returned
    · simp only [State.markRan_phases, State.setPhase_phases, otherPhase other same] at returned
      simp only [State.markRan_ranQuery, Function.update_of_ne same] at notRan
      obtain ⟨leader, serves⟩ := holds.returnedResult other result returned notRan
      exact ⟨leader, serves.mono ranKept⟩

/-- Case 2 join: the group keeps its version range, and the new waiter is within the gap of it. -/
theorem Invariant.afterJoin {s : State γ} {id : Nat} {group : CoalescingGroup}
    (holds : Invariant config requests answers s)
    (found : findGroup s.groups (requests id).ns = some group)
    (close : max group.maxVersion (requests id).version - min group.minVersion (requests id).version
      ≤ config.maxVersionGap) :
    Invariant config requests answers
      { s with groups := modifyGroup s.groups (requests id).ns (addWaiter · ⟨id, (requests id).version⟩) } := by
  obtain ⟨foundMember, foundNs⟩ := findGroup_some found
  have origin : ∀ member ∈ modifyGroup s.groups (requests id).ns (addWaiter · ⟨id, (requests id).version⟩),
      ∃ old ∈ s.groups, member = old ∨ (old = group ∧ member = addWaiter old ⟨id, (requests id).version⟩) := by
    intro member listed
    obtain ⟨old, oldMember, ⟨sameNs, changed⟩ | ⟨_, kept⟩⟩ := mem_modifyGroup listed
    · have isFound : old = group := by
        have stored := findGroup_of_mem holds.keysUnique oldMember
        rw [sameNs, found, Option.some.injEq] at stored
        exact stored.symm
      exact ⟨old, oldMember, .inr ⟨isFound, changed⟩⟩
    · exact ⟨old, oldMember, .inl kept⟩
  refine { holds with
    keysUnique := ?_
    inProgress := ?_
    versionsFixed := ?_
    generationBound := ?_
    waitersClose := ?_
    leaderGroup := ?_
    groupCreator := ?_ }
  · simpa only [modifyGroup_keys fun group => addWaiter_ns group _] using holds.keysUnique
  · intro member listed
    obtain ⟨old, oldMember, rfl | ⟨_, rfl⟩⟩ := origin member listed
    · exact holds.inProgress _ oldMember
    · exact holds.inProgress old oldMember
  · intro member listed
    obtain ⟨old, oldMember, rfl | ⟨_, rfl⟩⟩ := origin member listed
    · exact holds.versionsFixed _ oldMember
    · exact holds.versionsFixed old oldMember
  · intro member listed
    obtain ⟨old, oldMember, rfl | ⟨_, rfl⟩⟩ := origin member listed
    · exact holds.generationBound _ oldMember
    · exact holds.generationBound old oldMember
  · intro member listed waiter waiting
    obtain ⟨old, oldMember, rfl | ⟨rfl, rfl⟩⟩ := origin member listed
    · exact holds.waitersClose _ oldMember waiter waiting
    · simp only [addWaiter, List.mem_append, List.mem_singleton] at waiting
      rcases waiting with earlier | rfl
      · exact holds.waitersClose _ oldMember waiter earlier
      · -- the new waiter: its range is the group's fixed version and its own
        have fixed := holds.versionsFixed _ oldMember
        refine ⟨foundNs.symm, rfl, ?_⟩
        simp only [versionGap, addWaiter]
        rw [fixed] at close
        omega
  · intro leader generation leading
    obtain ⟨bound, ran, groups⟩ := holds.leaderGroup leader generation leading
    refine ⟨bound, ran, fun member listed same => ?_⟩
    obtain ⟨old, oldMember, rfl | ⟨_, rfl⟩⟩ := origin member listed
    · exact groups _ oldMember same
    · exact groups old oldMember same
  · intro member listed
    obtain ⟨old, oldMember, rfl | ⟨_, rfl⟩⟩ := origin member listed
    · exact holds.groupCreator _ oldMember
    · exact holds.groupCreator old oldMember

theorem lockStep_invariant {s s' : State γ} {id : Nat} (holds : Invariant config requests answers s)
    (stepped : lockStep config requests s id = some s') : Invariant config requests answers s' := by
  unfold lockStep at stepped
  split at stepped
  · rename_i entering
    dsimp only at stepped
    split at stepped
    · rename_i missing
      cases stepped
      exact holds.afterCreate entering missing
    · rename_i group found
      split at stepped
      · -- the version gap or the waiter count sends the call to its own query
        cases stepped
        exact ((holds.markRan id).setPhase_inert (fun _ _ _ => by simp [entering])
          (by simp [entering]) (by simp) (by simp) (by simp) (fun _ => by simp) (by simp))
      · rename_i near
        cases stepped
        have close : max group.maxVersion (requests id).version -
            min group.minVersion (requests id).version ≤ config.maxVersionGap := by
          simp only [not_or, gt_iff_lt, Nat.not_lt] at near
          exact near.1
        exact (holds.afterJoin found close).setPhase_inert (fun _ _ _ => by simp [entering])
          (by simp [entering]) (by simp) (by simp) (by simp) (by simp) (by simp)
  · cases stepped

theorem completeGroup_frame (s : State γ) (ns : String) (generation : Nat)
    (queryResult : StatusWith (List γ)) :
    (completeGroup s ns generation queryResult).phases = s.phases ∧
      (completeGroup s ns generation queryResult).ranQuery = s.ranQuery ∧
      (completeGroup s ns generation queryResult).shutdown = s.shutdown := by
  unfold completeGroup
  split
  · split <;> exact ⟨rfl, rfl, rfl⟩
  · exact ⟨rfl, rfl, rfl⟩

theorem toStatusWith_none {outcome : QueryOutcome γ} (thrown : outcome.toStatusWith = none) :
    outcome = .exception := by
  cases outcome <;> simp_all [QueryOutcome.toStatusWith]

theorem toStatusWith_ok {outcome : QueryOutcome γ} {result : List γ}
    (returned : outcome.toStatusWith = some (.ok result)) : outcome = .value result := by
  cases outcome <;> simp_all [QueryOutcome.toStatusWith]

/-- An exception escapes a running `queryFunc`: the call unwinds and nothing else changes. -/
theorem Invariant.afterThrow {s : State γ} {id : Nat} (holds : Invariant config requests answers s)
    (running : (∃ generation, s.phases id = .leading generation) ∨ s.phases id = .independent)
    (thrown : (answers id).toStatusWith = none) :
    Invariant config requests answers (s.setPhase id .unwound) := by
  have lookup : ∀ other, other ≠ id → (s.setPhase id .unwound).phases other = s.phases other :=
    fun other different => by simp [Function.update_of_ne different]
  refine { holds with
    leaderGroup := ?_
    groupCreator := ?_
    independentRan := ?_
    unwoundThrew := ?_
    notPromoted := ?_
    returnedResult := ?_ }
  · intro leader generation leading
    by_cases same : leader = id
    · subst same
      simp at leading
    · rw [lookup leader same] at leading
      exact holds.leaderGroup leader generation leading
  · intro group member
    obtain shut | ⟨leader, created⟩ := holds.groupCreator group member
    · exact .inl shut
    by_cases same : leader = id
    · subst same
      exact .inr ⟨leader, .inr (by simp)⟩
    · exact .inr ⟨leader, by rwa [lookup leader same]⟩
  · intro other independent
    by_cases same : other = id
    · subst same
      simp at independent
    · rw [lookup other same] at independent
      exact holds.independentRan other independent
  · intro other unwound
    by_cases same : other = id
    · subst same
      exact toStatusWith_none thrown
    · rw [lookup other same] at unwound
      exact holds.unwoundThrew other unwound
  · intro other generation promoted
    by_cases same : other = id
    · subst same
      simp at promoted
    · rw [lookup other same] at promoted
      exact holds.notPromoted other generation promoted
  · intro other result returned notRan
    by_cases same : other = id
    · subst same
      simp at returned
    · rw [lookup other same] at returned
      exact holds.returnedResult other result returned notRan

/-- The leader's locked distribution: every listed waiter receives the leader's own result, the
group is erased, and no stored group is left with the leader's generation. -/
theorem Invariant.afterComplete {s : State γ} {id generation : Nat} {queryResult : StatusWith (List γ)}
    (holds : Invariant config requests answers s) (leading : s.phases id = .leading generation)
    (finished : (answers id).toStatusWith = some queryResult) :
    Invariant config requests answers (completeGroup s (requests id).ns generation queryResult) ∧
      ∀ group ∈ (completeGroup s (requests id).ns generation queryResult).groups,
        group.generation ≠ generation := by
  obtain ⟨_, ran, leaderGroups⟩ := holds.leaderGroup id generation leading
  unfold completeGroup
  split
  · rename_i group found
    obtain ⟨foundMember, foundNs⟩ := findGroup_some found
    split
    · rename_i sameGeneration
      refine ⟨{ holds with
        keysUnique := eraseGroup_nodup holds.keysUnique
        inProgress := fun member listed => holds.inProgress member (mem_eraseGroup.mp listed).1
        versionsFixed := fun member listed => holds.versionsFixed member (mem_eraseGroup.mp listed).1
        generationBound := fun member listed => holds.generationBound member (mem_eraseGroup.mp listed).1
        waitersClose := fun member listed => holds.waitersClose member (mem_eraseGroup.mp listed).1
        leaderGroup := ?_
        groupCreator := fun member listed => holds.groupCreator member (mem_eraseGroup.mp listed).1
        sharedResult := ?_ }, ?_⟩
      · intro leader leaderGeneration leaderLeading
        obtain ⟨bound, leaderRan, groups⟩ := holds.leaderGroup leader leaderGeneration leaderLeading
        exact ⟨bound, leaderRan, fun member listed => groups member (mem_eraseGroup.mp listed).1⟩
      · intro other done ok
        by_cases listed : ∃ waiter ∈ group.waiters, waiter.call = other
        · -- a waiter of the completed group holds the leader's own result
          obtain ⟨waiter, waiting, rfl⟩ := listed
          simp only [distribute_listed ⟨waiter, waiting, rfl⟩] at done ok ⊢
          cases queryResult with
          | error status => simp [completedState] at ok
          | ok result =>
              obtain ⟨waiterNs, waiterVersion, gap⟩ := holds.waitersClose group foundMember waiter waiting
              obtain ⟨groupNs, groupVersion⟩ := leaderGroups group foundMember sameGeneration
              refine ⟨id, result, rfl, toStatusWith_ok finished, ran, ?_, ?_⟩
              · rw [waiterNs, groupNs]
              · rw [← waiterVersion, ← groupVersion]
                exact gap
        · simp only [distribute_unlisted listed] at done ok ⊢
          exact holds.sharedResult other done ok
      · intro member listed same
        obtain ⟨stored, otherNs⟩ := mem_eraseGroup.mp listed
        exact otherNs ((leaderGroups member stored same).1)
    · rename_i otherGeneration
      refine ⟨holds, fun member listed same => ?_⟩
      have memberNs := (leaderGroups member listed same).1
      have stored := findGroup_of_mem holds.keysUnique listed
      rw [memberNs, found, Option.some.injEq] at stored
      rw [stored] at otherGeneration
      exact otherGeneration same
  · rename_i missing
    refine ⟨holds, fun member listed same => ?_⟩
    exact findGroup_none missing member listed (leaderGroups member listed same).1

theorem finishQueryStep_invariant {s s' : State γ} {id : Nat}
    (holds : Invariant config requests answers s)
    (stepped : finishQueryStep requests answers s id = some s') : Invariant config requests answers s' := by
  unfold finishQueryStep at stepped
  split at stepped
  · rename_i generation leading thrown
    cases stepped
    exact holds.afterThrow (.inl ⟨generation, leading⟩) thrown
  · rename_i independent thrown
    cases stepped
    exact holds.afterThrow (.inr independent) thrown
  · rename_i generation promoted _
    exact absurd promoted (holds.notPromoted id generation)
  · rename_i queryResult independent _
    cases stepped
    have ran := holds.independentRan id independent
    exact holds.setPhase_inert (fun _ _ _ => by simp [independent]) (by simp [independent])
      (by simp) (by simp) (by simp) (by simp) (fun _ _ notRan => by rw [ran] at notRan; cases notRan)
  · rename_i generation queryResult leading finished
    have ran := (holds.leaderGroup id generation leading).2.1
    split at stepped
    · -- shut down meanwhile: the group is left in place and the leader returns the error
      rename_i shut
      cases stepped
      exact holds.setPhase_inert (fun unshut => by rw [shut] at unshut; cases unshut)
        (by simp [leading]) (by simp) (by simp) (by simp) (by simp)
        (fun _ _ notRan => by rw [ran] at notRan; cases notRan)
    · cases stepped
      obtain ⟨completed, noneLeft⟩ := holds.afterComplete leading finished
      obtain ⟨samePhases, sameRan, _⟩ := completeGroup_frame s (requests id).ns generation queryResult
      have noCreator : ∀ member ∈ (completeGroup s (requests id).ns generation queryResult).groups,
          (completeGroup s (requests id).ns generation queryResult).phases id ≠
            .leading member.generation := by
        intro member listed same
        rw [samePhases, leading, Phase.leading.injEq] at same
        exact noneLeft member listed same.symm
      apply completed.setPhase_inert (fun _ => noCreator)
        (by rw [samePhases, leading]; simp) (by simp) (by simp) (by simp) (by simp)
      intro _ _ notRan
      rw [sameRan, ran] at notRan
      cases notRan
  · rename_i generation queryResult promoted _
    exact absurd promoted (holds.notPromoted id generation)
  · cases stepped

/-- One step of any kind keeps the invariant. -/
theorem step_invariant {s s' : State γ} {action : Action} (holds : Invariant config requests answers s)
    (stepped : step config requests answers s action = some s') : Invariant config requests answers s' := by
  cases action with
  | call id => exact callStep_invariant holds stepped
  | lock id => exact lockStep_invariant holds stepped
  | finishQuery id => exact finishQueryStep_invariant holds stepped
  | wake id => exact wakeStep_invariant holds stepped
  | timeOut id => exact timeOutStep_invariant holds stepped
  | promote id =>
      rw [step, promoteStep_none holds] at stepped
      cases stepped
  | shutdown =>
      cases stepped
      exact shutdownStep_invariant holds

/-- Every state of every interleaving satisfies the invariant. -/
theorem reachable_invariant {s : State γ} (reached : Reachable config requests answers s) :
    Invariant config requests answers s :=
  StepSystem.Reachable.invariant _ invariant_init (fun _ _ _ holds stepped => step_invariant holds stepped)
    reached

end Invariant

end FastMongo.Coalescer
