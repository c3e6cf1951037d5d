import Mathlib.Data.List.MinMax
import Mathlib.Data.List.Pairwise
import Mathlib.Data.List.Perm.Basic
import Mathlib.Order.Basic

/-!
Maps ordered by key, read through positions as a search-tree map is read through iterators:
`lowerBound x` is the position of the first entry whose key is not below `x`, `upperBound x`
that of the first entry whose key is above `x`, `eraseRange` removes the entries between two
ordered positions and `insert` adds an entry unless its key is present. Both bounds are
`boundBy p` for a predicate `p` closed downwards, the position where `p` stops holding: erasing
between `boundBy p` and `boundBy q` removes exactly the keys where `q` holds and `p` fails, and
the two positions differ exactly when an entry has such a key.

Tilings of a key range: pieces that cut `[lo, hi)` into disjoint half-open intervals
`[lower i, upper i)`. A point of `(lo, hi]` then lies in some `(lower i, upper i]` too.
-/

namespace RangeMap

/-- A map from `K` to `V` as its entries in strictly increasing key order. -/
structure OrdMap (K V : Type) [LinearOrder K] where
  entries : List (K × V)
  sorted : entries.Pairwise fun a b => a.1 < b.1

/-- Two positions `first ≤ last`: an iterator range. -/
structure Span where
  first : Nat
  last : Nat
  ordered : first ≤ last

variable {K V : Type} [LinearOrder K]

section Counting

variable {α : Type}

/-- Of two predicates where the first implies the second, the second counts the first's
elements and those it adds. -/
theorem countP_eq_add_of_imp {p q : α → Bool} (implies : ∀ a, p a = true → q a = true) :
    ∀ l : List α, l.countP q = l.countP p + l.countP fun a => q a && !p a
  | [] => rfl
  | a :: rest => by
      have tail := countP_eq_add_of_imp implies rest
      have head := implies a
      simp only [List.countP_cons, tail]
      cases hp : p a <;> cases hq : q a <;> simp [hp, hq] at head ⊢ <;> omega

theorem countP_ne_iff_of_imp {p q : α → Bool} (implies : ∀ a, p a = true → q a = true)
    (l : List α) : l.countP p ≠ l.countP q ↔ ∃ a ∈ l, q a = true ∧ p a = false := by
  have added : 0 < (l.countP fun a => q a && !p a) ↔ ∃ a ∈ l, q a = true ∧ p a = false := by
    simp [List.countP_pos_iff]
  rw [countP_eq_add_of_imp implies l, ← added]
  omega

end Counting

section Sorted

variable {p : K → Bool}

/-- `p` holds below every key where it holds. -/
def ClosedBelow (p : K → Bool) : Prop := ∀ a b, a < b → p b = true → p a = true

theorem closedBelow_lt (x : K) : ClosedBelow fun k => decide (k < x) := by
  intro a b below holds
  simp only [decide_eq_true_eq] at holds ⊢
  exact below.trans holds

theorem closedBelow_le (x : K) : ClosedBelow fun k => decide (k ≤ x) := by
  intro a b below holds
  simp only [decide_eq_true_eq] at holds ⊢
  exact below.le.trans holds

/-- Past the first sorted entry where a predicate closed downwards fails, it fails everywhere. -/
theorem filter_eq_nil_of_not {e : K × V} {rest : List (K × V)} (closed : ClosedBelow p)
    (after : ∀ a ∈ rest, e.1 < a.1) (fails : p e.1 = false) : rest.filter (fun a => p a.1) = [] := by
  rw [List.filter_eq_nil_iff]
  intro a member holds
  have below := closed _ _ (after a member) holds
  rw [fails] at below
  cases below

theorem takeWhile_eq_filter (closed : ClosedBelow p) :
    ∀ {l : List (K × V)}, l.Pairwise (fun a b => a.1 < b.1) →
      l.takeWhile (fun e => p e.1) = l.filter (fun e => p e.1)
  | [], _ => rfl
  | e :: rest, sorted => by
      rw [List.pairwise_cons] at sorted
      cases holds : p e.1 with
      | true => simp [holds, takeWhile_eq_filter closed sorted.2]
      | false =>
          simp [holds,
            filter_eq_nil_of_not closed sorted.1 holds]

theorem dropWhile_eq_filter (closed : ClosedBelow p) :
    ∀ {l : List (K × V)}, l.Pairwise (fun a b => a.1 < b.1) →
      l.dropWhile (fun e => p e.1) = l.filter (fun e => !p e.1)
  | [], _ => rfl
  | e :: rest, sorted => by
      rw [List.pairwise_cons] at sorted
      cases holds : p e.1 with
      | true => simp [holds, dropWhile_eq_filter closed sorted.2]
      | false =>
          have kept : rest.filter (fun a => !p a.1) = rest := by
            rw [List.filter_eq_self]
            intro a member
            have none := filter_eq_nil_of_not closed sorted.1 holds
            rw [List.filter_eq_nil_iff] at none
            simpa using none a member
          simp [holds, kept]

end Sorted

/-- Erasing between two ordered positions leaves a sublist. -/
theorem take_append_drop_sublist {α : Type} {first last : Nat} (ordered : first ≤ last)
    (l : List α) : (l.take first ++ l.drop last).Sublist l := by
  have kept : (l.take first ++ l.drop last).Sublist (l.take first ++ l.drop first) :=
    (List.Sublist.refl _).append (List.drop_sublist_drop_left l ordered)
  rwa [List.take_append_drop] at kept

namespace OrdMap

/-- The map with no entries. -/
def empty : OrdMap K V := ⟨[], .nil⟩

theorem nodup (m : OrdMap K V) : m.entries.Nodup :=
  m.sorted.imp fun below same => (ne_of_lt below) (congrArg Prod.fst same)

/-- The position of the first entry whose key fails `p`. -/
def boundBy (m : OrdMap K V) (p : K → Bool) : Nat :=
  (m.entries.takeWhile fun e => p e.1).length

/-- The position of the first entry whose key is not below `x`. -/
def lowerBound (m : OrdMap K V) (x : K) : Nat := m.boundBy fun k => decide (k < x)

/-- The position of the first entry whose key is above `x`. -/
def upperBound (m : OrdMap K V) (x : K) : Nat := m.boundBy fun k => decide (k ≤ x)

/-- Erase the entries from position `span.first` up to, not including, position `span.last`. -/
def eraseRange (m : OrdMap K V) (span : Span) : OrdMap K V :=
  ⟨m.entries.take span.first ++ m.entries.drop span.last,
    m.sorted.sublist (take_append_drop_sublist span.ordered m.entries)⟩

/-- Sorted insertion of an entry; an entry already there with the same key is kept. -/
def insertEntry (entry : K × V) : List (K × V) → List (K × V)
  | [] => [entry]
  | e :: rest =>
      if entry.1 < e.1 then entry :: e :: rest
      else if entry.1 = e.1 then e :: rest
      else e :: insertEntry entry rest

theorem mem_insertEntry {entry x : K × V} :
    ∀ {l : List (K × V)}, x ∈ insertEntry entry l → x = entry ∨ x ∈ l
  | [], member => by simpa [insertEntry] using member
  | e :: rest, member => by
      simp only [insertEntry] at member
      split_ifs at member with before same
      · simpa using member
      · exact .inr member
      · rcases List.mem_cons.mp member with head | tail
        · exact .inr (head ▸ List.mem_cons_self)
        · rcases mem_insertEntry tail with new | old
          · exact .inl new
          · exact .inr (List.mem_cons_of_mem _ old)

theorem insertEntry_sorted {entry : K × V} :
    ∀ {l : List (K × V)}, l.Pairwise (fun a b => a.1 < b.1) →
      (insertEntry entry l).Pairwise fun a b => a.1 < b.1
  | [], _ => List.pairwise_singleton _ _
  | e :: rest, sorted => by
      have after : ∀ a ∈ rest, e.1 < a.1 := fun a member => List.rel_of_pairwise_cons sorted member
      simp only [insertEntry]
      split_ifs with before same
      · refine List.Pairwise.cons (fun a member => ?_) sorted
        rcases List.mem_cons.mp member with head | tail
        · exact head ▸ before
        · exact before.trans (after _ tail)
      · exact sorted
      · refine List.Pairwise.cons (fun a member => ?_) (insertEntry_sorted sorted.of_cons)
        rcases mem_insertEntry member with new | old
        · exact new ▸ lt_of_le_of_ne (not_lt.mp before) (Ne.symm same)
        · exact after _ old

/-- Inserting a key that is absent adds exactly the new entry. -/
theorem mem_insertEntry_of_absent {entry x : K × V} :
    ∀ {l : List (K × V)}, (∀ e ∈ l, e.1 ≠ entry.1) → (x ∈ insertEntry entry l ↔ x = entry ∨ x ∈ l)
  | [], _ => by simp [insertEntry]
  | e :: rest, absent => by
      have differs : entry.1 ≠ e.1 := Ne.symm (absent e List.mem_cons_self)
      have tail := mem_insertEntry_of_absent (x := x) fun a member => absent a (List.mem_cons_of_mem _ member)
      simp only [insertEntry, differs, if_false]
      split_ifs
      · simp
      · simp only [List.mem_cons, tail]
        tauto

/-- Insert an entry unless its key is present. -/
def insert (m : OrdMap K V) (entry : K × V) : OrdMap K V :=
  ⟨insertEntry entry m.entries, insertEntry_sorted m.sorted⟩

theorem mem_insert_of_absent (m : OrdMap K V) {entry x : K × V}
    (absent : ∀ e ∈ m.entries, e.1 ≠ entry.1) :
    x ∈ (m.insert entry).entries ↔ x = entry ∨ x ∈ m.entries :=
  mem_insertEntry_of_absent absent

section Bounds

variable {p q : K → Bool} (m : OrdMap K V)

theorem take_boundBy (closed : ClosedBelow p) :
    m.entries.take (m.boundBy p) = m.entries.filter fun e => p e.1 := by
  rw [boundBy, ← takeWhile_eq_filter closed m.sorted]
  exact (List.prefix_iff_eq_take.mp (List.takeWhile_prefix _)).symm

theorem drop_boundBy (closed : ClosedBelow p) :
    m.entries.drop (m.boundBy p) = m.entries.filter fun e => !p e.1 := by
  have split := List.takeWhile_append_dropWhile (p := fun e : K × V => p e.1) (l := m.entries)
  rw [boundBy, ← dropWhile_eq_filter closed m.sorted]
  calc m.entries.drop (m.entries.takeWhile fun e => p e.1).length
      = ((m.entries.takeWhile fun e => p e.1) ++ m.entries.dropWhile fun e => p e.1).drop
          (m.entries.takeWhile fun e => p e.1).length := by rw [split]
    _ = m.entries.dropWhile fun e => p e.1 := List.drop_left

theorem boundBy_eq_countP (closed : ClosedBelow p) :
    m.boundBy p = m.entries.countP fun e => p e.1 := by
  rw [boundBy, takeWhile_eq_filter closed m.sorted, List.countP_eq_length_filter]

variable (closedP : ClosedBelow p) (closedQ : ClosedBelow q)
include closedP closedQ

theorem boundBy_le (implies : ∀ k, p k = true → q k = true) : m.boundBy p ≤ m.boundBy q := by
  rw [boundBy_eq_countP m closedP, boundBy_eq_countP m closedQ]
  exact List.countP_mono_left fun (e : K × V) _ => implies e.1

/-- The positions where `p` and `q` stop holding differ exactly when a key lies between. -/
theorem boundBy_ne_iff (implies : ∀ k, p k = true → q k = true) :
    m.boundBy p ≠ m.boundBy q ↔ ∃ e ∈ m.entries, q e.1 = true ∧ p e.1 = false := by
  rw [boundBy_eq_countP m closedP, boundBy_eq_countP m closedQ]
  exact countP_ne_iff_of_imp (fun (e : K × V) => implies e.1) _

/-- Erasing from where `p` stops holding to where `q` does removes the keys between. -/
theorem mem_eraseRange_boundBy {span : Span} (first : span.first = m.boundBy p)
    (last : span.last = m.boundBy q) (e : K × V) :
    e ∈ (m.eraseRange span).entries ↔ e ∈ m.entries ∧ (p e.1 = true ∨ q e.1 = false) := by
  simp only [eraseRange, first, last, take_boundBy m closedP, drop_boundBy m closedQ,
    List.mem_append, List.mem_filter]
  cases p e.1 <;> cases q e.1 <;> simp

end Bounds

section KeyBounds

variable (m : OrdMap K V) {x y : K}

theorem lowerBound_mono (ordered : x ≤ y) : m.lowerBound x ≤ m.lowerBound y :=
  m.boundBy_le (closedBelow_lt x) (closedBelow_lt y) fun k below => by
    simp only [decide_eq_true_eq] at below ⊢
    exact lt_of_lt_of_le below ordered

theorem upperBound_mono (ordered : x ≤ y) : m.upperBound x ≤ m.upperBound y :=
  m.boundBy_le (closedBelow_le x) (closedBelow_le y) fun k below => by
    simp only [decide_eq_true_eq] at below ⊢
    exact below.trans ordered

theorem lowerBound_ne_iff (ordered : x ≤ y) :
    m.lowerBound x ≠ m.lowerBound y ↔ ∃ e ∈ m.entries, x ≤ e.1 ∧ e.1 < y := by
  rw [lowerBound, lowerBound, m.boundBy_ne_iff (closedBelow_lt x) (closedBelow_lt y)
    fun k below => by simp only [decide_eq_true_eq] at below ⊢; exact lt_of_lt_of_le below ordered]
  simp [and_comm]

theorem upperBound_ne_iff (ordered : x ≤ y) :
    m.upperBound x ≠ m.upperBound y ↔ ∃ e ∈ m.entries, x < e.1 ∧ e.1 ≤ y := by
  rw [upperBound, upperBound, m.boundBy_ne_iff (closedBelow_le x) (closedBelow_le y)
    fun k below => by simp only [decide_eq_true_eq] at below ⊢; exact below.trans ordered]
  simp [and_comm]

theorem mem_eraseRange_lowerBound (ordered : x ≤ y) (e : K × V) :
    e ∈ (m.eraseRange ⟨m.lowerBound x, m.lowerBound y, m.lowerBound_mono ordered⟩).entries ↔
      e ∈ m.entries ∧ ¬(x ≤ e.1 ∧ e.1 < y) := by
  rw [m.mem_eraseRange_boundBy (closedBelow_lt x) (closedBelow_lt y) rfl rfl]
  simp only [decide_eq_true_eq, decide_eq_false_iff_not, not_and_or, not_le, not_lt]

theorem mem_eraseRange_upperBound (ordered : x ≤ y) (e : K × V) :
    e ∈ (m.eraseRange ⟨m.upperBound x, m.upperBound y, m.upperBound_mono ordered⟩).entries ↔
      e ∈ m.entries ∧ ¬(x < e.1 ∧ e.1 ≤ y) := by
  rw [m.mem_eraseRange_boundBy (closedBelow_le x) (closedBelow_le y) rfl rfl]
  simp only [decide_eq_true_eq, decide_eq_false_iff_not, not_and_or, not_le, not_lt]

end KeyBounds

end OrdMap

section Tiling

variable {ι : Type} (lower upper : ι → K)

/-- `pieces` cut `[lo, hi)` into disjoint nonempty half-open intervals `[lower i, upper i)`. -/
structure Tiles (pieces : List ι) (lo hi : K) : Prop where
  nonempty : ∀ i ∈ pieces, lower i < upper i
  within : ∀ i ∈ pieces, lo ≤ lower i ∧ upper i ≤ hi
  disjoint : pieces.Pairwise fun i j => upper i ≤ lower j ∨ upper j ≤ lower i
  covers : ∀ x, lo ≤ x → x < hi → ∃ i ∈ pieces, lower i ≤ x ∧ x < upper i

variable {lower upper} {pieces : List ι} {lo hi : K}

/-- Two pieces of a tiling whose intervals meet are the same piece. -/
theorem Tiles.eq_of_overlap (tiles : Tiles lower upper pieces lo hi) {i j : ι} (mi : i ∈ pieces)
    (mj : j ∈ pieces) (left : lower i < upper j) (right : lower j < upper i) : i = j := by
  by_contra differ
  have symm : Std.Symm fun i j => upper i ≤ lower j ∨ upper j ≤ lower i :=
    ⟨fun _ _ apart => apart.symm⟩
  rcases List.Pairwise.forall tiles.disjoint mi mj differ with apart | apart
  · exact absurd right (not_lt.mpr apart)
  · exact absurd left (not_lt.mpr apart)

theorem Tiles.nodup (tiles : Tiles lower upper pieces lo hi) : pieces.Nodup :=
  tiles.disjoint.imp_of_mem fun mi _ apart same => by
    subst same
    rcases apart with short | short <;> exact absurd (tiles.nonempty _ mi) (not_lt.mpr short)

/-- A point of `(lo, hi]` is the upper end of, or lies inside, some piece: the piece with the
greatest lower end below the point reaches it. -/
theorem Tiles.covers_right (tiles : Tiles lower upper pieces lo hi) {x : K} (above : lo < x)
    (atMost : x ≤ hi) : ∃ i ∈ pieces, lower i < x ∧ x ≤ upper i := by
  let below := pieces.filter fun i => lower i < x
  obtain ⟨first, mFirst, startsFirst, -⟩ := tiles.covers lo le_rfl (lt_of_lt_of_le above atMost)
  have nonempty : below ≠ [] :=
    List.ne_nil_of_mem (List.mem_filter.mpr ⟨mFirst, by simpa using lt_of_le_of_lt startsFirst above⟩)
  cases found : below.argmax lower with
  | none => exact absurd (List.argmax_eq_none.mp found) nonempty
  | some last =>
      have mLast := List.mem_filter.mp (List.argmax_mem found)
      have starts : lower last < x := by simpa using mLast.2
      refine ⟨last, mLast.1, starts, ?_⟩
      by_contra short
      rw [not_le] at short
      -- the end of `last` lies in `[lo, hi)`; the piece covering it starts no later than `last`
      obtain ⟨next, mNext, startsNext, endsNext⟩ := tiles.covers (upper last)
        ((tiles.within last mLast.1).1.trans (tiles.nonempty last mLast.1).le)
        (lt_of_lt_of_le short atMost)
      have inBelow : next ∈ below :=
        List.mem_filter.mpr ⟨mNext, decide_eq_true (lt_of_le_of_lt startsNext short)⟩
      have notLater : lower next ≤ lower last := List.le_of_mem_argmax inBelow found
      have same := tiles.eq_of_overlap mNext mLast.1
        (lt_of_le_of_lt notLater (tiles.nonempty last mLast.1)) (lt_of_lt_of_le
          (tiles.nonempty last mLast.1) endsNext.le)
      rw [same] at endsNext
      exact lt_irrefl _ endsNext

end Tiling

end RangeMap
