import FastMongo.Lib.RangeMap
import Mathlib.Order.Interval.Set.LinearOrder

/-!
Maps whose entries are half-open intervals `[key, hi value)`: the key starts an interval and a
function of the value ends it. When the intervals are nonempty and each ends at or before any
later one starts (`Apart`), a search by position finds them: the entry before `upperBound k` is
the only one that can hold `k`, and the entries that meet an interval `[lo, hi')` are those before
`lowerBound hi'` from `lowerBound lo` on, together with the entry just before `lowerBound lo` when
it reaches past `lo`. An interval that starts where every other has ended is inserted keeping the
intervals apart.
-/

namespace RangeMap

variable {K V : Type} [LinearOrder K]

/-- The elements from position `a` up to, not including, position `b`, when these are exactly the
positions where `P` holds, are the elements that satisfy `P`. -/
theorem drop_take_eq_filter {α : Type} (P : α → Bool) :
    ∀ (l : List α) (a b : Nat), (∀ i (h : i < l.length), P l[i] = true ↔ a ≤ i ∧ i < b) →
      (l.drop a).take (b - a) = l.filter P
  | [], _, _, _ => by simp
  | x :: xs, a, b, exact => by
      have head := exact 0 (by simp)
      have tail : ∀ i (h : i < xs.length), P xs[i] = true ↔ a - 1 ≤ i ∧ i < b - 1 := by
        intro i h
        have shifted := exact (i + 1) (by simp; omega)
        simp only [List.getElem_cons_succ] at shifted
        rw [shifted]
        omega
      have rest := drop_take_eq_filter P xs (a - 1) (b - 1) tail
      simp only [List.getElem_cons_zero] at head
      by_cases start : a = 0
      · subst start
        by_cases stop : b = 0
        · -- no position is in the range
          subst stop
          have none : ∀ y ∈ x :: xs, P y = false := by
            intro y member
            obtain ⟨i, h, rfl⟩ := List.getElem_of_mem member
            simpa using (exact i h).not.mpr (by omega)
          rw [List.drop_zero, Nat.zero_sub, List.take_zero]
          exact (List.filter_eq_nil_iff.mpr fun y member => by simp [none y member]).symm
        · obtain ⟨c, rfl⟩ : ∃ c, b = c + 1 := ⟨b - 1, by omega⟩
          rw [List.filter_cons_of_pos (head.mpr (by omega))]
          simpa using rest
      · rw [List.filter_cons_of_neg (by simpa using head.not.mpr (by omega))]
        obtain ⟨c, rfl⟩ : ∃ c, a = c + 1 := ⟨a - 1, by omega⟩
        simpa [show b - (c + 1) = b - 1 - c by omega] using rest

/-- When every position before `n` fails `p` and position `n`, if there is one, satisfies it,
`find?` returns the element at `n`. -/
theorem find?_eq_getElem? {α : Type} (p : α → Bool) :
    ∀ (l : List α) (n : Nat), (∀ j (h : j < l.length), j < n → p l[j] = false) →
      (∀ h : n < l.length, p l[n] = true) → l.find? p = l[n]?
  | [], _, _, _ => rfl
  | x :: xs, 0, _, found => by
      have head : p x = true := found (by simp)
      simp [head]
  | x :: xs, n + 1, before, found => by
      have head : p x = false := before 0 (by simp) (by omega)
      rw [List.find?_cons_of_neg (by simp [head]), List.getElem?_cons_succ]
      exact find?_eq_getElem? p xs n (fun j h lt => before (j + 1) (by simp; omega) (by omega))
        fun h => found (by simp; omega)

/-- `[a, c)` is `[a, b)` followed by `[b, c)`. -/
theorem Ico_split {a b c k : K} (ab : a ≤ b) (bc : b ≤ c) :
    (a ≤ k ∧ k < c) ↔ (a ≤ k ∧ k < b) ∨ (b ≤ k ∧ k < c) := by
  have joined := Set.ext_iff.mp (Set.Ico_union_Ico_eq_Ico ab bc) k
  simpa [Set.mem_Ico] using joined.symm

namespace OrdMap

section Positions

variable (m : OrdMap K V) {p : K → Bool}

theorem boundBy_le_length : m.boundBy p ≤ m.entries.length :=
  (List.takeWhile_sublist _).length_le

/-- The entries before `boundBy p` are those whose key satisfies `p`. -/
theorem getElem_boundBy (closed : ClosedBelow p) {i : Nat} (h : i < m.entries.length) :
    p (m.entries[i]).1 = decide (i < m.boundBy p) := by
  by_cases before : i < m.boundBy p
  · have inTake : m.entries[i] ∈ m.entries.take (m.boundBy p) :=
      List.mem_take_iff_getElem.mpr ⟨i, by simpa using ⟨before, h⟩, rfl⟩
    rw [m.take_boundBy closed] at inTake
    simp [(List.mem_filter.mp inTake).2, before]
  · have inDrop : m.entries[i] ∈ m.entries.drop (m.boundBy p) :=
      List.mem_drop_iff_getElem.mpr ⟨i - m.boundBy p, by omega, by congr 1; omega⟩
    rw [m.drop_boundBy closed] at inDrop
    simpa [before] using (List.mem_filter.mp inDrop).2

theorem lt_lowerBound_iff {x : K} {i : Nat} (h : i < m.entries.length) :
    i < m.lowerBound x ↔ (m.entries[i]).1 < x := by
  have position := m.getElem_boundBy (closedBelow_lt x) h
  rw [lowerBound]
  simpa using position.symm

theorem lt_upperBound_iff {x : K} {i : Nat} (h : i < m.entries.length) :
    i < m.upperBound x ↔ (m.entries[i]).1 ≤ x := by
  have position := m.getElem_boundBy (closedBelow_le x) h
  rw [upperBound]
  simpa using position.symm

/-- The entry before `upperBound k` starts at or before `k`. -/
theorem floor_le {k : K} (floorIn : m.upperBound k - 1 < m.entries.length)
    (stepped : m.upperBound k ≠ 0) : (m.entries[m.upperBound k - 1]).1 ≤ k :=
  (m.lt_upperBound_iff floorIn).mp (by omega)

/-- The entry at `upperBound k` starts after `k`. -/
theorem lt_getElem_upperBound {k : K} (upperIn : m.upperBound k < m.entries.length) :
    k < (m.entries[m.upperBound k]).1 :=
  not_le.mp fun starts => lt_irrefl _ ((m.lt_upperBound_iff upperIn).mpr starts)

/-- An entry that starts after `k` lies at or after `upperBound k`. -/
theorem upperBound_le_of_lt {k : K} {i : Nat} (h : i < m.entries.length)
    (after : k < (m.entries[i]).1) : m.upperBound k ≤ i :=
  not_lt.mp fun before => not_le.mpr after ((m.lt_upperBound_iff h).mp before)

/-- Entries at increasing positions have increasing keys. -/
theorem getElem_lt_getElem {i j : Nat} (hj : j < m.entries.length) (lt : i < j) :
    (m.entries[i]).1 < (m.entries[j]).1 :=
  List.pairwise_iff_getElem.mp m.sorted i j (lt.trans hj) hj lt

end Positions

/-- The map without the entry of key `k`: `std::map::erase(k)`. -/
def erase (m : OrdMap K V) (k : K) : OrdMap K V :=
  ⟨m.entries.filter fun e => e.1 ≠ k, m.sorted.filter _⟩

theorem mem_erase (m : OrdMap K V) {k : K} {e : K × V} :
    e ∈ (m.erase k).entries ↔ e ∈ m.entries ∧ e.1 ≠ k := by
  simp [erase]

/-- Two entries with one key are the same entry. -/
theorem eq_of_key_eq (m : OrdMap K V) {e e' : K × V} (member : e ∈ m.entries)
    (member' : e' ∈ m.entries) (same : e.1 = e'.1) : e = e' := by
  obtain ⟨i, hi, rfl⟩ := List.getElem_of_mem member
  obtain ⟨j, hj, rfl⟩ := List.getElem_of_mem member'
  rcases lt_trichotomy i j with before | rfl | after
  · exact absurd same (ne_of_lt (m.getElem_lt_getElem hj before))
  · rfl
  · exact absurd same.symm (ne_of_lt (m.getElem_lt_getElem hi after))

/-- Erasing the keys of some items one after another removes exactly the entries of those
keys. -/
theorem mem_foldl_erase {α : Type} (key : α → K) {e : K × V} :
    ∀ (items : List α) (m : OrdMap K V),
      e ∈ (items.foldl (fun m item => m.erase (key item)) m).entries ↔
        e ∈ m.entries ∧ ∀ item ∈ items, e.1 ≠ key item
  | [], m => by simp
  | item :: rest, m => by
      rw [List.foldl_cons, mem_foldl_erase key rest, mem_erase]
      simp only [List.mem_cons, forall_eq_or_imp]
      tauto

/-- An insertion leaves the map nonempty. -/
theorem insert_ne_nil (m : OrdMap K V) (entry : K × V) : (m.insert entry).entries ≠ [] := by
  simp only [insert]
  cases m.entries with
  | nil => simp [insertEntry]
  | cons e rest =>
      simp only [insertEntry]
      split_ifs <;> simp

/-- Two maps with the same entries in any order are the same map: both are sorted by key. -/
theorem eq_of_perm {m m' : OrdMap K V} (perm : m.entries.Perm m'.entries) : m = m' := by
  have same : m.entries = m'.entries :=
    perm.eq_of_pairwise (fun _ _ _ _ below above => absurd (below.trans above) (lt_irrefl _))
      m.sorted m'.sorted
  cases m
  cases m'
  simp only at same
  subst same
  rfl

section Intervals

variable (m : OrdMap K V) (hi : V → K)

/-- `k` lies in the interval of an entry. -/
def Covers (k : K) : Prop := ∃ e ∈ m.entries, e.1 ≤ k ∧ k < hi e.2

/-- The intervals of the entries are nonempty, and each ends at or before any later one starts. -/
structure Apart : Prop where
  nonempty : ∀ e ∈ m.entries, e.1 < hi e.2
  apart : ∀ e ∈ m.entries, ∀ e' ∈ m.entries, e.1 < e'.1 → hi e.2 ≤ e'.1

/-- Apart with a gap: no interval ends where a later one starts. -/
def Separated : Prop := ∀ e ∈ m.entries, ∀ e' ∈ m.entries, e.1 < e'.1 → hi e.2 < e'.1

variable {m hi}

theorem Covers.ne_nil {k : K} (covered : m.Covers hi k) : m.entries ≠ [] := by
  obtain ⟨e, member, -⟩ := covered
  exact List.ne_nil_of_mem member

/-- The entries of a map whose intervals are apart, in order: each starts before and ends at or
before the start of any later one. -/
theorem Apart.pairwise (intervals : m.Apart hi) :
    m.entries.Pairwise fun e e' => e.1 < e'.1 ∧ hi e.2 ≤ e'.1 :=
  m.sorted.imp_of_mem fun member member' lt =>
    ⟨lt, intervals.apart _ member _ member' lt⟩

theorem Apart.hi_le_of_lt (intervals : m.Apart hi) {i j : Nat} (hj : j < m.entries.length)
    (lt : i < j) : hi (m.entries[i]).2 ≤ (m.entries[j]).1 :=
  intervals.apart _ (List.getElem_mem _) _ (List.getElem_mem _) (m.getElem_lt_getElem hj lt)

/-- An entry that starts at or before `k` ends by the end of the entry before `upperBound k`. -/
theorem Apart.hi_le_floor (intervals : m.Apart hi) {k : K} {i : Nat} (h : i < m.entries.length)
    (starts : (m.entries[i]).1 ≤ k) :
    m.upperBound k ≠ 0 ∧ ∃ floorIn : m.upperBound k - 1 < m.entries.length,
      hi (m.entries[i]).2 ≤ hi (m.entries[m.upperBound k - 1]).2 := by
  have before : i < m.upperBound k := (m.lt_upperBound_iff h).mpr starts
  have bounded : m.upperBound k ≤ m.entries.length := m.boundBy_le_length
  refine ⟨by omega, by omega, ?_⟩
  rcases Nat.lt_or_ge i (m.upperBound k - 1) with earlier | floor
  · exact (intervals.hi_le_of_lt _ earlier).trans (intervals.nonempty _ (List.getElem_mem _)).le
  · have same : i = m.upperBound k - 1 := by omega
    subst same
    exact le_rfl

/-- Only the entry before `upperBound k` can hold `k`: any earlier one ends before it starts.
At position zero, `upperBound k - 1` is the first entry, which starts above `k`. -/
theorem Apart.covers_iff_floor (intervals : m.Apart hi) (k : K) :
    m.Covers hi k ↔ ∃ e, m.entries[m.upperBound k - 1]? = some e ∧ e.1 ≤ k ∧ k < hi e.2 := by
  constructor
  · rintro ⟨e, member, starts, ends⟩
    obtain ⟨i, h, rfl⟩ := List.getElem_of_mem member
    have before : i < m.upperBound k := (m.lt_upperBound_iff h).mpr starts
    have floorIn : m.upperBound k - 1 < m.entries.length := by
      have bounded : m.upperBound k ≤ m.entries.length := m.boundBy_le_length
      omega
    have same : i = m.upperBound k - 1 := by
      by_contra differ
      have ended := intervals.hi_le_of_lt floorIn (show i < m.upperBound k - 1 by omega)
      have floorStarts := (m.lt_upperBound_iff (x := k) floorIn).mp (by omega)
      exact absurd ends (not_lt.mpr (ended.trans floorStarts))
    subst same
    exact ⟨_, List.getElem?_eq_getElem floorIn, starts, ends⟩
  · rintro ⟨e, found, starts, ends⟩
    exact ⟨e, List.mem_of_getElem? found, starts, ends⟩

/-- The entry at position `i` meets `[lo, hi')` exactly when it lies before `lowerBound hi'` and
from `lowerBound lo` on, or is the entry just before `lowerBound lo` and reaches past `lo`. -/
theorem Apart.meets_iff (intervals : m.Apart hi) {lo hi' : K} {i : Nat}
    (h : i < m.entries.length) :
    ((m.entries[i]).1 < hi' ∧ lo < hi (m.entries[i]).2) ↔
      i < m.lowerBound hi' ∧
        (m.lowerBound lo ≤ i ∨ (i + 1 = m.lowerBound lo ∧ lo < hi (m.entries[i]).2)) := by
  rw [← m.lt_lowerBound_iff h]
  constructor
  · rintro ⟨below, reaches⟩
    refine ⟨below, ?_⟩
    by_cases later : m.lowerBound lo ≤ i
    · exact .inl later
    · -- an entry after it that starts below `lo` would end it before `lo`
      refine .inr ⟨?_, reaches⟩
      by_contra notLast
      have nextIn : i + 1 < m.entries.length := by
        have bounded : m.lowerBound lo ≤ m.entries.length := m.boundBy_le_length
        omega
      have ended := intervals.hi_le_of_lt nextIn (Nat.lt_succ_self i)
      have nextStarts := (m.lt_lowerBound_iff (x := lo) nextIn).mp (by omega)
      exact absurd reaches (not_lt.mpr (ended.trans nextStarts.le))
  · rintro ⟨below, later | ⟨-, reaches⟩⟩
    · have starts : lo ≤ (m.entries[i]).1 := not_lt.mp fun lt => by
        have := (m.lt_lowerBound_iff h).mpr lt
        omega
      exact ⟨below, lt_of_le_of_lt starts (intervals.nonempty _ (List.getElem_mem _))⟩
    · exact ⟨below, reaches⟩

/-- An interval that starts where every interval of the map has ended has a key of its own. -/
theorem Apart.mem_insert_of_after (intervals : m.Apart hi) {entry x : K × V}
    (after : ∀ e ∈ m.entries, hi e.2 ≤ entry.1) :
    x ∈ (m.insert entry).entries ↔ x = entry ∨ x ∈ m.entries :=
  m.mem_insert_of_absent fun e member =>
    ne_of_lt (lt_of_lt_of_le (intervals.nonempty e member) (after e member))

/-- An interval that starts where every interval of the map has ended is inserted keeping the
intervals apart, and adds its own keys to those covered. -/
theorem Apart.insert (intervals : m.Apart hi) (entry : K × V) (nonempty : entry.1 < hi entry.2)
    (after : ∀ e ∈ m.entries, hi e.2 ≤ entry.1) :
    (m.insert entry).Apart hi ∧
      ∀ k, (m.insert entry).Covers hi k ↔ m.Covers hi k ∨ (entry.1 ≤ k ∧ k < hi entry.2) := by
  have member : ∀ x, x ∈ (m.insert entry).entries ↔ x = entry ∨ x ∈ m.entries :=
    fun x => intervals.mem_insert_of_after after
  refine ⟨⟨?_, ?_⟩, ?_⟩
  · intro e inserted
    rcases (member e).mp inserted with rfl | old
    · exact nonempty
    · exact intervals.nonempty e old
  · intro e inserted e' inserted' lt
    rcases (member e).mp inserted with rfl | old <;> rcases (member e').mp inserted' with rfl | old'
    · exact absurd lt (lt_irrefl _)
    · -- the new interval starts after `e'` has ended, so it cannot start before `e'`
      exact absurd (lt_of_lt_of_le (intervals.nonempty e' old') (after e' old'))
        (not_lt.mpr lt.le)
    · exact after e old
    · exact intervals.apart e old e' old' lt
  · intro k
    simp only [Covers, member, exists_eq_or_imp]
    exact or_comm

/-- An interval that starts strictly after every interval of the map has ended is inserted
keeping a gap after each interval. -/
theorem Separated.insert (separated : m.Separated hi) (intervals : m.Apart hi) (entry : K × V)
    (after : ∀ e ∈ m.entries, hi e.2 < entry.1) : (m.insert entry).Separated hi := by
  have member : ∀ x, x ∈ (m.insert entry).entries ↔ x = entry ∨ x ∈ m.entries :=
    fun x => intervals.mem_insert_of_after fun e old => (after e old).le
  intro e inserted e' inserted' lt
  rcases (member e).mp inserted with rfl | old <;> rcases (member e').mp inserted' with rfl | old'
  · exact absurd lt (lt_irrefl _)
  · exact absurd ((intervals.nonempty e' old').trans (after e' old')) (not_lt.mpr lt.le)
  · exact after e old
  · exact separated e old e' old' lt

/-- A map whose entries are entries of a map with apart intervals has apart intervals. -/
theorem Apart.mono {m' : OrdMap K V} (intervals : m.Apart hi)
    (within : ∀ e ∈ m'.entries, e ∈ m.entries) : m'.Apart hi where
  nonempty e member := intervals.nonempty e (within e member)
  apart e member e' member' := intervals.apart e (within e member) e' (within e' member')

/-- An interval that meets none of the map's intervals is inserted keeping them apart. -/
theorem Apart.insert_of_disjoint (intervals : m.Apart hi) (entry : K × V)
    (nonempty : entry.1 < hi entry.2)
    (disjoint : ∀ e ∈ m.entries, ¬(e.1 < hi entry.2 ∧ entry.1 < hi e.2)) :
    (m.insert entry).Apart hi ∧
      ∀ k, (m.insert entry).Covers hi k ↔ m.Covers hi k ∨ (entry.1 ≤ k ∧ k < hi entry.2) := by
  have absent : ∀ e ∈ m.entries, e.1 ≠ entry.1 := fun e member same =>
    disjoint e member ⟨same ▸ nonempty, same ▸ intervals.nonempty e member⟩
  have member : ∀ x, x ∈ (m.insert entry).entries ↔ x = entry ∨ x ∈ m.entries :=
    fun x => m.mem_insert_of_absent (x := x) absent
  refine ⟨⟨?_, ?_⟩, ?_⟩
  · intro e inserted
    rcases (member e).mp inserted with rfl | old
    · exact nonempty
    · exact intervals.nonempty e old
  · intro e inserted e' inserted' lt
    rcases (member e).mp inserted with rfl | old <;> rcases (member e').mp inserted' with rfl | old'
    · exact absurd lt (lt_irrefl _)
    · -- `e'` starts inside or after the new interval; meeting none, it starts after its end
      exact not_lt.mp fun inside => disjoint e' old' ⟨inside,
        lt.trans (intervals.nonempty e' old')⟩
    · exact not_lt.mp fun reaches => disjoint e old ⟨lt.trans nonempty, reaches⟩
    · exact intervals.apart e old e' old' lt
  · intro k
    simp only [Covers, member, exists_eq_or_imp]
    exact or_comm

end Intervals

end OrdMap

end RangeMap
