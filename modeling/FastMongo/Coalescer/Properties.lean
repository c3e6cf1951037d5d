import FastMongo.Coalescer.Invariant

/-!
What a caller of `tryCoalesce` can rely on, and where the coalescer departs from it: the
version range a group records is never widened by a join; a follower may be served a leader
whose version is above its own; and a leader whose `queryFunc` throws leaves its group stored.
The schedules below are concrete interleavings of three calls.
-/

namespace FastMongo.Coalescer

variable {γ : Type}

section Properties

variable (config : Config) (requests : Nat → Request) (answers : Nat → QueryOutcome γ)

/-- The recorded range of every stored group contains its waiters' versions and spans at most
the gap. -/
def GroupRangeCovers (s : State γ) : Prop :=
  ∀ group ∈ s.groups, (∀ waiter ∈ group.waiters,
    group.minVersion ≤ waiter.requestedVersion ∧ waiter.requestedVersion ≤ group.maxVersion) ∧
      group.maxVersion - group.minVersion ≤ config.maxVersionGap

instance (s : State γ) : Decidable (GroupRangeCovers config s) :=
  inferInstanceAs (Decidable (∀ group ∈ s.groups, _))

/-- A call served without running its own `queryFunc` gets the result of a call with the same
key whose version is at most its own. -/
def ServedFromNoNewerVersion (s : State γ) : Prop :=
  ∀ id result, s.phases id = .returned (.ok result) → s.ranQuery id = false →
    ∃ leader, answers leader = .value result ∧ s.ranQuery leader = true ∧
      (requests leader).ns = (requests id).ns ∧ (requests leader).version ≤ (requests id).version

variable {config requests answers}

/-- A call served without running its own `queryFunc` returns the result that the `queryFunc`
of a call with the same key returned, and that call's version is within the gap of its own. -/
theorem coalescedResult_within_versionGap {s : State γ} (reached : Reachable config requests answers s)
    {id : Nat} {result : List γ} (returned : s.phases id = .returned (.ok result))
    (notRan : s.ranQuery id = false) :
    ∃ leader, answers leader = .value result ∧ s.ranQuery leader = true ∧
      (requests leader).ns = (requests id).ns ∧
      versionGap (requests id).version (requests leader).version ≤ config.maxVersionGap :=
  (reachable_invariant reached).returnedResult id result returned notRan

/-- No follower is ever promoted: every stored group keeps its query marked as running. -/
theorem never_promoted {s : State γ} (reached : Reachable config requests answers s) (id generation : Nat) :
    s.phases id ≠ .promoted generation :=
  (reachable_invariant reached).notPromoted id generation

end Properties

/-- The default limits: 1000 waiters per group and a version gap of 500. -/
def defaultConfig : Config := ⟨1000, 500⟩

/-- Each call's `queryFunc`, when run, returns its own call number. -/
def resultOfCaller (id : Nat) : QueryOutcome Nat := .value [id]

/-- Three `config.chunks` refreshes at versions 100, 550 and 0. -/
def threeRefreshes : Nat → Request
  | 0 => ⟨"config.chunks", 100⟩
  | 1 => ⟨"config.chunks", 550⟩
  | _ => ⟨"config.chunks", 0⟩

/-- The second and third refresh join the first one's group while its query runs: the group
still records the range [100, 100] beside a waiter at 550, and both joiners are then served the
first call's result though their versions are 550 apart. -/
theorem groupRange_not_widened :
    (∃ s, Reachable defaultConfig threeRefreshes resultOfCaller s ∧
      ¬ GroupRangeCovers defaultConfig s) ∧
    ∃ s, Reachable defaultConfig threeRefreshes resultOfCaller s ∧
      s.phases 1 = .returned (.ok [0]) ∧ s.phases 2 = .returned (.ok [0]) ∧
      defaultConfig.maxVersionGap < versionGap (threeRefreshes 1).version (threeRefreshes 2).version := by
  constructor
  · obtain ⟨s, reached, violated⟩ := exists_reachable_of_run defaultConfig threeRefreshes resultOfCaller
      [.call 0, .lock 0, .call 1, .lock 1, .call 2, .lock 2]
      (fun s => !decide (GroupRangeCovers defaultConfig s)) (by decide)
    exact ⟨s, reached, by simpa using violated⟩
  · obtain ⟨s, reached, served⟩ := exists_reachable_of_run defaultConfig threeRefreshes resultOfCaller
      [.call 0, .lock 0, .call 1, .lock 1, .call 2, .lock 2, .finishQuery 0, .wake 1, .wake 2]
      (fun s => decide (s.phases 1 = .returned (.ok [0]) ∧ s.phases 2 = .returned (.ok [0])))
      (by decide)
    simp only [decide_eq_true_eq] at served
    exact ⟨s, reached, served.1, served.2, by decide⟩

theorem never_promoted_waiting :
    ∃ s, Reachable defaultConfig threeRefreshes resultOfCaller s ∧ s.phases 1 = .waiting 1 ∧
      s.phases 1 ≠ .promoted 1 := by
  obtain ⟨s, reached, joined⟩ := exists_reachable_of_run defaultConfig threeRefreshes
    resultOfCaller [.call 0, .lock 0, .call 1, .lock 1] (fun s => decide (s.phases 1 = .waiting 1))
    (by decide)
  exact ⟨s, reached, of_decide_eq_true joined, never_promoted reached 1 1⟩

/-- A refresh at version 100 and a follower at version 50. -/
def lowerFollower : Nat → Request
  | 0 => ⟨"config.chunks", 100⟩
  | _ => ⟨"config.chunks", 50⟩

/-- The follower at version 50 joins while the leader at 100 queries and is served the
leader's result, which only covers chunks newer than 100. -/
theorem servedFromNoNewerVersion_fails :
    ¬ ∀ s, Reachable defaultConfig lowerFollower resultOfCaller s →
      ServedFromNoNewerVersion lowerFollower resultOfCaller s := by
  intro everyServedFromNoNewer
  obtain ⟨s, reached, served⟩ := exists_reachable_of_run defaultConfig lowerFollower resultOfCaller
    [.call 0, .lock 0, .call 1, .lock 1, .finishQuery 0, .wake 1]
    (fun s => decide (s.phases 1 = .returned (.ok [0]) ∧ s.ranQuery 1 = false)) (by decide)
  simp only [decide_eq_true_eq] at served
  obtain ⟨leader, produced, _, _, older⟩ := everyServedFromNoNewer s reached 1 [0] served.1 served.2
  simp only [resultOfCaller, QueryOutcome.value.injEq, List.cons.injEq, and_true] at produced
  subst produced
  simp [lowerFollower] at older

theorem coalescedResult_within_versionGap_lowerFollower :
    ∃ s, Reachable defaultConfig lowerFollower resultOfCaller s ∧
      s.phases 1 = .returned (.ok [0]) ∧ s.ranQuery 1 = false ∧
      ∃ leader, resultOfCaller leader = .value [0] ∧ s.ranQuery leader = true ∧
        (lowerFollower leader).ns = (lowerFollower 1).ns ∧
        versionGap (lowerFollower 1).version (lowerFollower leader).version ≤ defaultConfig.maxVersionGap := by
  obtain ⟨s, reached, served⟩ := exists_reachable_of_run defaultConfig lowerFollower resultOfCaller
    [.call 0, .lock 0, .call 1, .lock 1, .finishQuery 0, .wake 1]
    (fun s => decide (s.phases 1 = .returned (.ok [0]) ∧ s.ranQuery 1 = false)) (by decide)
  simp only [decide_eq_true_eq] at served
  exact ⟨s, reached, served.1, served.2, coalescedResult_within_versionGap reached served.1 served.2⟩

/-- Two requests for one key; the first call's `queryFunc` throws. -/
def sameKeyPair (_ : Nat) : Request := ⟨"config.chunks", 100⟩

/-- The first call's `queryFunc` throws; every other call's returns its call number. -/
def throwingLeader : Nat → QueryOutcome Nat
  | 0 => .exception
  | id => .value [id]

/-- The first call creates the group of generation 1 and its `queryFunc` throws: the call has
unwound, the group is still stored with the query marked running, and a later call for the same
key joins it and waits. -/
theorem abandonedGroup_outlives_leader :
    ∃ s, Reachable defaultConfig sameKeyPair throwingLeader s ∧ s.phases 0 = .unwound ∧
      s.phases 1 = .waiting 1 ∧
      ∃ group ∈ s.groups, group.generation = 1 ∧ group.queryInProgress = true ∧
        ⟨1, 100⟩ ∈ group.waiters := by
  obtain ⟨s, reached, left⟩ := exists_reachable_of_run defaultConfig sameKeyPair throwingLeader
    [.call 0, .lock 0, .finishQuery 0, .call 1, .lock 1]
    (fun s => decide (s.phases 0 = .unwound ∧ s.phases 1 = .waiting 1 ∧
      ∃ group ∈ s.groups, group.generation = 1 ∧ group.queryInProgress = true ∧
        (⟨1, 100⟩ : Waiter) ∈ group.waiters)) (by decide)
  simp only [decide_eq_true_eq] at left
  exact ⟨s, reached, left⟩

end FastMongo.Coalescer
