import FastMongo.Base.StringData

/-!
`DecimalCounter` of `util/itoa.h`: the decimal text of a counter kept in a buffer of
`kBufSize` characters and incremented in place. The constructor writes the digits of its start
right-aligned and moves them to the front; `operator++` runs a carry loop from the last digit
and, when the carry falls off the front, moves the zeros one place right and writes a leading
`'1'`. The buffer is a list of its `kBufSize` bytes; what the constructor does not write is
whatever the memory held, a parameter.
-/

namespace FastMongo

/-- `memmove(buf + dst, buf + src, count)` within one buffer: the `count` bytes from `src` land
at `dst`, the rest of the buffer stays. -/
def memmove {α : Type} (buf : List α) (dst src count : Nat) : List α :=
  buf.take dst ++ (buf.drop src).take count ++ buf.drop (dst + count)

/-- The decimal text of `n`, as `toString n` writes it, one byte a digit. -/
def decimalBytes (n : Nat) : List UInt8 :=
  (Nat.toDigits 10 n).map Char.toUInt8

theorem toUInt8_digitChar {d : Nat} (digit : d < 10) : (Nat.digitChar d).toUInt8 = '0'.toUInt8 + d.toUInt8 := by
  have each : ∀ d < 10, (Nat.digitChar d).toUInt8 = '0'.toUInt8 + d.toUInt8 := by decide
  exact each d digit

theorem digit_lt_nine_iff {d : Nat} (digit : d < 10) : '0'.toUInt8 + d.toUInt8 < '9'.toUInt8 ↔ d < 9 := by
  have each : ∀ d < 10, ('0'.toUInt8 + d.toUInt8 < '9'.toUInt8 ↔ d < 9) := by decide
  exact each d digit

theorem digit_add_one {d : Nat} (below : d < 9) : '0'.toUInt8 + d.toUInt8 + 1 = '0'.toUInt8 + (d + 1).toUInt8 := by
  have each : ∀ d < 9, '0'.toUInt8 + d.toUInt8 + 1 = '0'.toUInt8 + (d + 1).toUInt8 := by decide
  exact each d below

theorem decimalBytes_of_lt {n : Nat} (small : n < 10) : decimalBytes n = ['0'.toUInt8 + n.toUInt8] := by
  rw [decimalBytes, Nat.toDigits_of_lt_base small, List.map_singleton, toUInt8_digitChar small]

/-- The last digit comes off the end. -/
theorem decimalBytes_of_ge {n : Nat} (large : 10 ≤ n) :
    decimalBytes n = decimalBytes (n / 10) ++ ['0'.toUInt8 + (n % 10).toUInt8] := by
  rw [decimalBytes, Nat.toDigits_of_base_le (by decide) large, List.map_append, List.map_singleton,
    toUInt8_digitChar (Nat.mod_lt _ (by decide)), decimalBytes]

theorem length_decimalBytes_le_iff {n k : Nat} (positive : 0 < k) :
    (decimalBytes n).length ≤ k ↔ n < 10 ^ k := by
  rw [decimalBytes, List.length_map]
  exact Nat.length_toDigits_le_iff (by decide) positive

theorem decimalBytes_ne_nil (n : Nat) : decimalBytes n ≠ [] := by
  simp [decimalBytes]

/-- The digits of `m + 1` from the leading digits of `m`: a last digit below 9 goes up by one,
a last 9 becomes 0 and carries into the leading digits. -/
theorem decimalBytes_succ_of_ge {m : Nat} (large : 10 ≤ m) :
    decimalBytes (m + 1) =
      if m % 10 < 9 then decimalBytes (m / 10) ++ ['0'.toUInt8 + (m % 10 + 1).toUInt8]
      else decimalBytes (m / 10 + 1) ++ ['0'.toUInt8] := by
  rw [decimalBytes_of_ge (by omega : 10 ≤ m + 1)]
  split
  · rename_i below
    rw [show (m + 1) / 10 = m / 10 by omega, show (m + 1) % 10 = m % 10 + 1 by omega]
  · rename_i nine
    rw [show (m + 1) / 10 = m / 10 + 1 by omega, show (m + 1) % 10 = 0 by omega]
    rfl

/-- When the carry runs off the front, `m + 1` is a one and as many zeros as `m` has digits. -/
theorem decimalBytes_succ_of_length_ne {m : Nat}
    (grows : (decimalBytes (m + 1)).length ≠ (decimalBytes m).length) :
    decimalBytes (m + 1) = '1'.toUInt8 :: List.replicate (decimalBytes m).length '0'.toUInt8 := by
  induction m using Nat.strongRecOn with
  | ind m ih =>
  by_cases small : m < 10
  · by_cases nine : m = 9
    · subst nine
      decide
    · rw [decimalBytes_of_lt small, decimalBytes_of_lt (by omega : m + 1 < 10)] at grows
      simp at grows
  · have large : 10 ≤ m := by omega
    have succEq := decimalBytes_succ_of_ge large
    rw [decimalBytes_of_ge large] at grows ⊢
    split at succEq
    · rw [succEq] at grows
      simp at grows
    · rw [succEq] at grows ⊢
      simp only [List.length_append, List.length_singleton, ne_eq, Nat.add_right_cancel_iff] at grows
      rw [ih (m / 10) (by omega) grows, List.length_append, List.length_singleton, List.replicate_succ']
      rfl

/-- `DecimalCounter::kBufSize`. -/
def kBufSize : Nat := 21

/-- A `DecimalCounter`: the bytes of `_buf`, and `_end - _buf`, which stays within the
buffer. -/
structure DecimalCounter where
  buf : List UInt8
  len : Nat
  buf_length : buf.length = kBufSize
  len_le : len ≤ kBufSize

namespace DecimalCounter

/-- `size()`. -/
def size (c : DecimalCounter) : Nat :=
  c.len

/-- `operator StringData()`: the first `size()` bytes of the buffer. -/
def toStringData (c : DecimalCounter) : StringData :=
  ⟨c.buf.take c.len, true, nofun⟩

/-- The digit loop of the constructor: the last digit of `start` is written just before `p`,
and the loop goes on left with `start / 10` until nothing is left. -/
def writeDigits (buf : List UInt8) (p start : Nat) : List UInt8 × Nat :=
  if start > 0 then
    writeDigits (buf.set (p - 1) ('0'.toUInt8 + (start % 10).toUInt8)) (p - 1) (start / 10)
  else (buf, p)
termination_by start
decreasing_by exact Nat.div_lt_self ‹_› (by decide)

theorem length_writeDigits (buf : List UInt8) (p start : Nat) :
    (writeDigits buf p start).1.length = buf.length := by
  fun_induction writeDigits buf p start with
  | case1 buf p start _ ih => rw [ih, List.length_set]
  | case2 => rfl

theorem writeDigits_snd_le (buf : List UInt8) (p start : Nat) : (writeDigits buf p start).2 ≤ p := by
  fun_induction writeDigits buf p start with
  | case1 buf p start _ ih => omega
  | case2 => exact Nat.le_refl _

theorem length_memmove_front (buf : List UInt8) (src count : Nat) (fits : src + count ≤ buf.length) :
    (memmove buf 0 src count).length = buf.length := by
  simp only [memmove, List.take_zero, List.nil_append, List.length_append, List.length_take,
    List.length_drop, Nat.zero_add]
  omega

/-- The default constructor: `"0"`. -/
def init (uninit : Vector UInt8 kBufSize) : DecimalCounter :=
  ⟨uninit.toList.set 0 '0'.toUInt8, 1, by simp, by decide⟩

/-- `DecimalCounter(start)`: `"0"` for zero; otherwise the digits are written to end before the
last byte, and moved to the front when they do not start there. -/
def ofStart (uninit : Vector UInt8 kBufSize) (start : UInt32) : DecimalCounter :=
  if start = 0 then ⟨uninit.toList.set 0 '0'.toUInt8, 1, by simp, by decide⟩
  else
    let written := writeDigits uninit.toList (kBufSize - 1) start.toNat
    let len := kBufSize - 1 - written.2
    let buf := if written.2 ≠ 0 then memmove written.1 0 written.2 len else written.1
    have lengthWritten : written.1.length = kBufSize := by
      rw [length_writeDigits, Vector.length_toList]
    have writtenLe : written.2 ≤ kBufSize - 1 := writeDigits_snd_le _ _ _
    ⟨buf, len, by
      show (if written.2 ≠ 0 then memmove written.1 0 written.2 len else written.1).length = kBufSize
      split
      · rw [length_memmove_front _ _ _ (by simp only [lengthWritten, len]; omega), lengthWritten]
      · exact lengthWritten, by simp only [len]; omega⟩

/-- The carry loop of `operator++` from the byte before `p` down to the front: a digit below
`'9'` is incremented and the operator returns (`true`); a `'9'` becomes `'0'` and the loop moves
left, until it falls off the front (`false`). -/
def carryLoop (buf : List UInt8) : Nat → List UInt8 × Bool
  | 0 => (buf, false)
  | p + 1 =>
      if buf.getD p 0 < '9'.toUInt8 then (buf.set p (buf.getD p 0 + 1), true)
      else carryLoop (buf.set p '0'.toUInt8) p

theorem length_carryLoop (buf : List UInt8) (p : Nat) : (carryLoop buf p).1.length = buf.length := by
  induction p generalizing buf with
  | zero => rfl
  | succ p ih =>
      unfold carryLoop
      split
      · exact List.length_set
      · rw [ih, List.length_set]

/-- `operator++`. When the carry falls off the front, the `memmove` of the digits one place
right must stay within the buffer; past it the result is undefined, `none`. -/
def increment (c : DecimalCounter) : Option DecimalCounter :=
  let carried := carryLoop c.buf c.len
  have lengthCarried : carried.1.length = kBufSize := by rw [length_carryLoop, c.buf_length]
  if carried.2 then some ⟨carried.1, c.len, lengthCarried, c.len_le⟩
  else if grows : c.len + 1 ≤ kBufSize then
    some ⟨(memmove carried.1 1 0 c.len).set 0 '1'.toUInt8, c.len + 1, by
      simp only [memmove, List.length_set, List.length_append, List.length_take, List.length_drop,
        lengthCarried]
      omega, grows⟩
  else none

/-- `operator++` applied `k` times. -/
def incrementTimes : Nat → DecimalCounter → Option DecimalCounter
  | 0, c => some c
  | k + 1, c => (increment c).bind (incrementTimes k)

/-- The digit loop writes the decimal text of `start` to end just before `p`, and stops where it
begins. -/
theorem writeDigits_eq (buf : List UInt8) (p start : Nat) (positive : 0 < start)
    (room : (decimalBytes start).length ≤ p) (inside : p ≤ buf.length) :
    writeDigits buf p start =
      (buf.take (p - (decimalBytes start).length) ++ decimalBytes start ++ buf.drop p,
        p - (decimalBytes start).length) := by
  induction start using Nat.strongRecOn generalizing buf p with
  | ind start ih =>
  have digitsPositive : 0 < (decimalBytes start).length :=
    List.length_pos_iff.mpr (decimalBytes_ne_nil start)
  -- the last digit goes just before `p`
  have setLast : ∀ x, buf.set (p - 1) x = buf.take (p - 1) ++ x :: buf.drop p := by
    intro x
    rw [List.set_eq_take_append_cons_drop, if_pos (by omega), Nat.sub_add_cancel (by omega)]
  rw [writeDigits, if_pos positive, setLast]
  by_cases small : start < 10
  · rw [writeDigits, if_neg (by omega)]
    rw [decimalBytes_of_lt small, Nat.mod_eq_of_lt small]
    simp
  · have large : 10 ≤ start := by omega
    have leading := List.length_pos_iff.mpr (decimalBytes_ne_nil (start / 10))
    rw [decimalBytes_of_ge large, List.length_append, List.length_singleton] at room ⊢
    have lengthSet : (buf.take (p - 1) ++ ('0'.toUInt8 + (start % 10).toUInt8) :: buf.drop p).length = buf.length := by
      simp only [List.length_append, List.length_take, List.length_cons, List.length_drop]
      omega
    rw [ih (start / 10) (by omega) _ _ (by omega) (by omega) (by rw [lengthSet]; omega)]
    have front : (buf.take (p - 1) ++ ('0'.toUInt8 + (start % 10).toUInt8) :: buf.drop p).take
        (p - 1 - (decimalBytes (start / 10)).length) = buf.take (p - ((decimalBytes (start / 10)).length + 1)) := by
      rw [List.take_append_of_le_length (by simp only [List.length_take]; omega), List.take_take]
      congr 1
      omega
    have back : (buf.take (p - 1) ++ ('0'.toUInt8 + (start % 10).toUInt8) :: buf.drop p).drop (p - 1) =
        ('0'.toUInt8 + (start % 10).toUInt8) :: buf.drop p :=
      List.drop_left' (by simp only [List.length_take]; omega)
    rw [front, back, show p - 1 - (decimalBytes (start / 10)).length =
      p - ((decimalBytes (start / 10)).length + 1) by omega]
    simp

/-- The carry loop over the digits of `m`, whatever follows them: the digits of `m + 1` when it
has as many, and otherwise all zeros with the carry left over. -/
theorem carryLoop_decimal (m : Nat) (rest : List UInt8) :
    carryLoop (decimalBytes m ++ rest) (decimalBytes m).length =
      if (decimalBytes (m + 1)).length = (decimalBytes m).length then (decimalBytes (m + 1) ++ rest, true)
      else (List.replicate (decimalBytes m).length '0'.toUInt8 ++ rest, false) := by
  induction m using Nat.strongRecOn generalizing rest with
  | ind m ih =>
  by_cases small : m < 10
  · rw [decimalBytes_of_lt small]
    by_cases nine : m = 9
    · subst nine
      have ten : decimalBytes (9 + 1) = ['1'.toUInt8, '0'.toUInt8] := by decide
      rw [ten]
      rfl
    · have below : '0'.toUInt8 + m.toUInt8 < '9'.toUInt8 := (digit_lt_nine_iff small).mpr (by omega)
      rw [decimalBytes_of_lt (by omega : m + 1 < 10)]
      simp only [List.length_singleton, if_true, carryLoop, List.singleton_append, List.getD_cons_zero,
        below, List.set_cons_zero, digit_add_one (by omega : m < 9)]
  · have large : 10 ≤ m := by omega
    have succEq := decimalBytes_succ_of_ge large
    have lastDigit : m % 10 < 10 := Nat.mod_lt _ (by decide)
    rw [decimalBytes_of_ge large, List.append_assoc, List.singleton_append, List.length_append,
      List.length_singleton]
    -- the loop reads the last digit of `m` first
    have reads : (decimalBytes (m / 10) ++ ('0'.toUInt8 + (m % 10).toUInt8) :: rest).getD
        (decimalBytes (m / 10)).length 0 = '0'.toUInt8 + (m % 10).toUInt8 := by
      simp
    have setLast : ∀ x, (decimalBytes (m / 10) ++ ('0'.toUInt8 + (m % 10).toUInt8) :: rest).set
        (decimalBytes (m / 10)).length x = decimalBytes (m / 10) ++ x :: rest := by
      intro x
      rw [List.set_append_right _ _ (Nat.le_refl _), Nat.sub_self, List.set_cons_zero]
    rw [carryLoop, reads]
    split at succEq
    · rename_i below
      rw [if_pos ((digit_lt_nine_iff lastDigit).mpr below), setLast, succEq, List.length_append,
        List.length_singleton, if_pos rfl, digit_add_one below, List.append_assoc, List.singleton_append]
    · rename_i nine
      rw [if_neg (fun lt => nine ((digit_lt_nine_iff lastDigit).mp lt)), setLast, ih (m / 10) (by omega),
        succEq, List.length_append, List.length_singleton]
      simp only [Nat.add_right_cancel_iff]
      split
      · rw [List.append_assoc, List.singleton_append]
      · rw [List.replicate_succ', List.append_assoc, List.singleton_append]

/-- The counter holds the decimal text of `m` in its first `size()` bytes. -/
def Represents (c : DecimalCounter) (m : Nat) : Prop :=
  c.buf.take c.len = decimalBytes m

theorem Represents.len_eq {c : DecimalCounter} {m : Nat} (holds : c.Represents m) :
    c.len = (decimalBytes m).length := by
  rw [← holds, List.length_take, c.buf_length]
  exact (Nat.min_eq_left c.len_le).symm

theorem Represents.buf_eq {c : DecimalCounter} {m : Nat} (holds : c.Represents m) :
    c.buf = decimalBytes m ++ c.buf.drop c.len := by
  rw [← holds, List.take_append_drop]

/-- Moving the zeros one place right and writing a leading byte: the first bytes are that byte
and the zeros. -/
theorem take_set_memmove {front : List UInt8} (nonempty : front ≠ []) (rest : List UInt8) (x : UInt8) :
    ((memmove (front ++ rest) 1 0 front.length).set 0 x).take (front.length + 1) = x :: front := by
  obtain ⟨a, as, rfl⟩ := List.exists_cons_of_ne_nil nonempty
  simp [memmove]

/-- One `operator++` moves a counter of `m` to one of `m + 1`, as long as `m + 1` has at most
`kBufSize` digits. -/
theorem Represents.increment {c : DecimalCounter} {m : Nat} (holds : c.Represents m)
    (fits : m + 1 < 10 ^ kBufSize) : ∃ c', c.increment = some c' ∧ c'.Represents (m + 1) := by
  have lenEq := holds.len_eq
  have carried := carryLoop_decimal m (c.buf.drop c.len)
  rw [← holds.buf_eq, ← lenEq] at carried
  unfold DecimalCounter.increment
  by_cases same : (decimalBytes (m + 1)).length = (decimalBytes m).length
  · rw [if_pos (same.trans lenEq.symm)] at carried
    simp only [carried, if_true]
    refine ⟨_, rfl, ?_⟩
    show (decimalBytes (m + 1) ++ c.buf.drop c.len).take c.len = decimalBytes (m + 1)
    rw [List.take_left' (by rw [lenEq, same])]
  · rw [if_neg (fun sameLen => same (sameLen.trans lenEq))] at carried
    have grown := decimalBytes_succ_of_length_ne same
    -- the counter only grows while `m + 1` has room in the buffer
    have grows : c.len + 1 ≤ kBufSize := by
      have room := (length_decimalBytes_le_iff (n := m + 1) (by decide : 0 < kBufSize)).mpr fits
      rw [grown, List.length_cons, List.length_replicate, ← lenEq] at room
      exact room
    simp only [carried, Bool.false_eq_true, if_false, dif_pos grows]
    refine ⟨_, rfl, ?_⟩
    show ((memmove (List.replicate c.len '0'.toUInt8 ++ c.buf.drop c.len) 1 0 c.len).set 0 '1'.toUInt8).take
      (c.len + 1) = decimalBytes (m + 1)
    have positive : c.len ≠ 0 := by
      rw [lenEq]
      exact fun empty => decimalBytes_ne_nil m (List.eq_nil_of_length_eq_zero empty)
    have zeros := @take_set_memmove (List.replicate c.len '0'.toUInt8) (by simpa using positive)
      (c.buf.drop c.len) '1'.toUInt8
    rw [List.length_replicate] at zeros
    rw [zeros, grown, lenEq]

theorem represents_ofStart (uninit : Vector UInt8 kBufSize) (start : UInt32) :
    (ofStart uninit start).Represents start.toNat := by
  have uninitLength := uninit.length_toList
  unfold ofStart
  split
  · rename_i zero
    subst zero
    obtain ⟨first, others, split⟩ := List.exists_cons_of_length_eq_add_one uninitLength
    show (uninit.toList.set 0 '0'.toUInt8).take 1 = decimalBytes 0
    rw [split]
    rfl
  · rename_i nonzero
    have positive : 0 < start.toNat := by
      have : start.toNat ≠ 0 := fun eq => nonzero (UInt32.toNat_inj.mp eq)
      omega
    -- a `uint32_t` has at most ten digits, well within the buffer
    have digits : (decimalBytes start.toNat).length ≤ 10 :=
      (length_decimalBytes_le_iff (by decide)).mpr (Nat.lt_trans start.toNat_lt (by decide))
    have written := writeDigits_eq uninit.toList (kBufSize - 1) start.toNat positive
      (by show _ ≤ 20; omega) (by rw [uninitLength]; decide)
    dsimp only [Represents]
    rw [written]
    dsimp only
    have startsAt : (uninit.toList.take (kBufSize - 1 - (decimalBytes start.toNat).length)).length =
        kBufSize - 1 - (decimalBytes start.toNat).length := by
      rw [List.length_take, uninitLength]
      omega
    have bufSize : kBufSize = 21 := rfl
    -- the digits end before the last byte, so they never start at the front
    have notFront : kBufSize - 1 - (decimalBytes start.toNat).length ≠ 0 := by
      rw [bufSize]
      omega
    rw [show kBufSize - 1 - (kBufSize - 1 - (decimalBytes start.toNat).length) =
      (decimalBytes start.toNat).length by rw [bufSize]; omega, if_pos notFront, memmove, List.take_zero,
      List.nil_append, List.append_assoc, List.drop_left' startsAt,
      List.take_append_of_le_length (by simp only [List.length_take, List.length_append]; omega),
      List.take_take, Nat.min_self, List.take_left' rfl]

/-- The default constructor is the one from zero. -/
theorem init_eq_ofStart_zero (uninit : Vector UInt8 kBufSize) : init uninit = ofStart uninit 0 := by
  rfl

/-- The run: `k` increments from a counter of `m` give one of `m + k`. -/
theorem Represents.incrementTimes {c : DecimalCounter} {m : Nat} (holds : c.Represents m) (k : Nat)
    (fits : m + k < 10 ^ kBufSize) : ∃ c', c.incrementTimes k = some c' ∧ c'.Represents (m + k) := by
  induction k generalizing c m with
  | zero => exact ⟨c, rfl, holds⟩
  | succ k ih =>
      obtain ⟨next, stepped, nextHolds⟩ := holds.increment (by omega)
      obtain ⟨last, ran, lastHolds⟩ := ih nextHolds (by omega)
      refine ⟨last, ?_, ?_⟩
      · rw [DecimalCounter.incrementTimes, stepped, Option.bind_some, ran]
      · rwa [show m + (k + 1) = m + 1 + k by omega]

theorem ofStart_incrementTimes_decimal (uninit : Vector UInt8 kBufSize) (n : UInt32) (k : Nat)
    (fits : n.toNat + k < 10 ^ 21) :
    init uninit = ofStart uninit 0 ∧
      ∃ c, (ofStart uninit n).incrementTimes k = some c ∧
        c.toStringData.bytes = decimalBytes (n.toNat + k) ∧ c.size = (Nat.toDigits 10 (n.toNat + k)).length := by
  obtain ⟨c, ran, holds⟩ := (represents_ofStart uninit n).incrementTimes k fits
  refine ⟨init_eq_ofStart_zero uninit, c, ran, holds, ?_⟩
  rw [size, holds.len_eq, decimalBytes, List.length_map]

theorem ofStart_incrementTimes_decimal_nines :
    (999 : UInt32).toNat + 1 < 10 ^ 21 ∧
      (init (Vector.replicate kBufSize 0) = ofStart (Vector.replicate kBufSize 0) 0 ∧
        ∃ c, (ofStart (Vector.replicate kBufSize 0) 999).incrementTimes 1 = some c ∧
          c.toStringData.bytes = decimalBytes ((999 : UInt32).toNat + 1) ∧
          c.size = (Nat.toDigits 10 ((999 : UInt32).toNat + 1)).length) :=
  ⟨by decide, ofStart_incrementTimes_decimal (Vector.replicate kBufSize 0) 999 1 (by decide)⟩

end DecimalCounter

end FastMongo
