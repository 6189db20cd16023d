import Mathlib.Data.Nat.Find

/-! # Lock words

A set of process locks is an `ErtsProcLocks`, a 32-bit word with one bit per lock; the lock word
`lck->flags` of a process has the same type and holds, for lock `b`, the lock flag at bit `b` and
the wait flag at bit `ERTS_PROC_LOCK_WAITER_SHIFT + b`. The two constants come from
`erl_process_lock.h`, which is not among the sources: a `Layout` takes them as parameters, with
the two facts the code relies on (the wait flags lie above the lock flags, and both fit in the
word).

The bit trick of `in_order_locks` (`busy & -busy` isolates the lowest busy lock, and
`lowest_busy - 1` wraps to all ones when nothing is busy) is modelled on the 32-bit word as the
code computes it; `getLsbD_inOrderLocks` says what it returns: the locks wanted that lie below
every wanted lock already taken. -/

namespace ProcLock.Bits

/-- `ErtsProcLocks`: one bit per process lock, in a 32-bit word. -/
abbrev ErtsProcLocks := BitVec 32

/-- The constants of `erl_process_lock.h` the lock code uses. -/
structure Layout where
  /-- `ERTS_PROC_LOCK_MAX_BIT`: the locks are the bits `0, …, maxBit`. -/
  maxBit : Nat
  /-- `ERTS_PROC_LOCK_WAITER_SHIFT`: the wait flag of lock `b` is bit `waiterShift + b`. -/
  waiterShift : Nat
  maxBit_lt_waiterShift : maxBit < waiterShift
  waiterShift_add_maxBit_lt : waiterShift + maxBit < 32

/-- `((ErtsProcLocks) 1) << lock_no`. -/
def lockBit (n : Nat) : ErtsProcLocks := 1#32 <<< n

@[simp] theorem getLsbD_lockBit (n i : Nat) :
    (lockBit n).getLsbD i = (decide (i < 32) && decide (i = n)) := by
  simp only [lockBit, BitVec.getLsbD_shiftLeft, BitVec.getLsbD_one]
  by_cases h : i = n
  · simp [h]
  · by_cases h' : i < n
    · simp [h, h']
    · simp [h, h']; omega

theorem lockBit_eq_twoPow (n : Nat) : lockBit n = BitVec.twoPow 32 n := rfl

/-- The production layout of the spec: five locks, `MAIN` to `TRACE`, with the wait flags right
above them. -/
def fiveLocks : Layout := ⟨4, 5, by decide, by decide⟩

/-- `ERTS_PROC_LOCKS_ALL`: the locks `0, …, maxBit`. -/
def Layout.all (L : Layout) : ErtsProcLocks := lockBit (L.maxBit + 1) - 1

theorem Layout.maxBit_lt (L : Layout) : L.maxBit < 32 := by
  have := L.maxBit_lt_waiterShift; have := L.waiterShift_add_maxBit_lt; omega

theorem Layout.waiter_lt (L : Layout) {b : Nat} (hb : b ≤ L.maxBit) : L.waiterShift + b < 32 := by
  have := L.waiterShift_add_maxBit_lt; omega

theorem lt_of_le_maxBit {L : Layout} {b : Nat} (hb : b ≤ L.maxBit) : b < 32 := by
  have := L.maxBit_lt; omega

@[simp] theorem getLsbD_and_not (a b : ErtsProcLocks) (i : Nat) :
    (a &&& ~~~b).getLsbD i = (a.getLsbD i && !b.getLsbD i) := by
  by_cases hi : i < 32
  · simp [BitVec.getLsbD_not, hi]
  · simp [BitVec.getLsbD_ge a i (by omega)]

/-- Clearing from `a` a mask that covers bit `i` of `a` leaves bit `i` clear. -/
theorem getLsbD_and_not_of_imp {a b : ErtsProcLocks} {i : Nat} (h : a.getLsbD i → b.getLsbD i) :
    (a &&& ~~~b).getLsbD i = false := by
  rw [getLsbD_and_not]
  cases ha : a.getLsbD i
  · rfl
  · simp [h ha]

@[simp] theorem and_not_zero (a : ErtsProcLocks) : a &&& ~~~0 = a := by
  ext i; rw [getLsbD_and_not]; simp

/-- A word is zero exactly when none of its bits is set. -/
theorem eq_zero_iff {m : ErtsProcLocks} : m = 0 ↔ ∀ i, m.getLsbD i = false := by
  constructor
  · rintro rfl i; simp
  · intro h; ext i; simp [h]

theorem ne_zero_iff {m : ErtsProcLocks} : m ≠ 0 ↔ ∃ i, m.getLsbD i = true := by
  rw [Ne, eq_zero_iff]; simp

/-- A mask meets lock `n` only where it has bit `n`. -/
theorem getLsbD_of_and_lockBit {m : ErtsProcLocks} {n : Nat} (h : m &&& lockBit n ≠ 0) :
    m.getLsbD n := by
  obtain ⟨i, hi⟩ := ne_zero_iff.mp h
  simp only [BitVec.getLsbD_and, getLsbD_lockBit, Bool.and_eq_true, decide_eq_true_eq] at hi
  exact hi.2.2 ▸ hi.1

theorem lockBit_and_ne_zero {m : ErtsProcLocks} {k : Nat} (hk : k < 32) :
    m &&& lockBit k ≠ 0 ↔ m.getLsbD k :=
  ⟨getLsbD_of_and_lockBit, fun h => ne_zero_iff.mpr ⟨k, by simp [h, hk]⟩⟩

theorem lockBit_and_eq_zero {m : ErtsProcLocks} {k : Nat} (hk : k < 32) :
    m &&& lockBit k = 0 ↔ m.getLsbD k = false := by
  rw [← not_iff_not, ← ne_eq, lockBit_and_ne_zero hk, Bool.not_eq_false]

/-! ## Lowest locks -/

/-- `b` is the lowest lock set in `m`. -/
def IsLowest (m : ErtsProcLocks) (b : Nat) : Prop :=
  m.getLsbD b = true ∧ ∀ c < b, m.getLsbD c = false

instance (m : ErtsProcLocks) (b : Nat) : Decidable (IsLowest m b) :=
  inferInstanceAs (Decidable (_ ∧ _))

theorem IsLowest.unique {m : ErtsProcLocks} {b c : Nat} (hb : IsLowest m b) (hc : IsLowest m c) :
    b = c := by
  rcases Nat.lt_trichotomy b c with h | h | h
  · exact absurd hb.1 (by simp [hc.2 b h])
  · exact h
  · exact absurd hc.1 (by simp [hb.2 c h])

theorem exists_isLowest {m : ErtsProcLocks} (h : m ≠ 0) : ∃ b, IsLowest m b := by
  have hex := ne_zero_iff.mp h
  classical
  refine ⟨Nat.find hex, Nat.find_spec hex, fun c hc => ?_⟩
  simpa using Nat.find_min hex hc

theorem IsLowest.lt {m : ErtsProcLocks} {b : Nat} (h : IsLowest m b) : b < 32 := by
  by_contra hb
  exact absurd h.1 (by simp [BitVec.getLsbD_ge m b (by omega)])

/-! ## `in_order_locks` -/

/-- `in_order_locks`: the locks of `need_locks` that can be taken without passing a lock of
`need_locks` that `in_use` already holds. -/
def inOrderLocks (inUse needLocks : ErtsProcLocks) : ErtsProcLocks :=
  let busy := inUse &&& needLocks
  let lowestBusy := busy &&& -busy
  needLocks &&& (lowestBusy - 1)

/-- `busy & -busy` keeps the lowest set bit. -/
theorem getLsbD_and_neg (x : ErtsProcLocks) (i : Nat) :
    (x &&& -x).getLsbD i = (x.getLsbD i && !decide (∃ j < i, x.getLsbD j = true)) := by
  rw [BitVec.getLsbD_and, BitVec.getLsbD_neg]
  by_cases hi : i < 32
  · cases x.getLsbD i <;> simp [hi]
  · simp [BitVec.getLsbD_ge x i (by omega)]

theorem and_neg_eq_twoPow {x : ErtsProcLocks} {k : Nat} (hk : IsLowest x k) :
    x &&& -x = BitVec.twoPow 32 k := by
  ext i
  rw [getLsbD_and_neg, ← lockBit_eq_twoPow, getLsbD_lockBit]
  simp only [i.isLt, decide_True, Bool.true_and]
  by_cases h : (i : Nat) = k
  · subst h; simpa [hk.1] using hk.2
  · rcases Nat.lt_or_gt_of_ne h with h' | h'
    · simp [hk.2 _ h', h]
    · simp [h]; exact fun _ => ⟨k, h', hk.1⟩

theorem getLsbD_twoPow_sub_one {k : Nat} (hk : k < 32) (i : Nat) :
    (BitVec.twoPow 32 k - 1).getLsbD i = decide (i < k) := by
  rw [BitVec.getLsbD, BitVec.toNat_sub, BitVec.toNat_twoPow]
  have h1 : 1 ≤ 2 ^ k := Nat.one_le_two_pow
  have h2 : 2 ^ k < 2 ^ 32 := Nat.pow_lt_pow_right (by decide) hk
  have : (2 ^ 32 - (1 : BitVec 32).toNat + 2 ^ k % 2 ^ 32) % 2 ^ 32 = 2 ^ k - 1 := by
    rw [Nat.mod_eq_of_lt h2]; simp; omega
  rw [this, Nat.testBit_two_pow_sub_one]

@[simp] theorem Layout.getLsbD_all (L : Layout) (i : Nat) : L.all.getLsbD i = decide (i ≤ L.maxBit) := by
  have := L.waiterShift_add_maxBit_lt
  have := L.maxBit_lt_waiterShift
  rw [Layout.all, lockBit_eq_twoPow, getLsbD_twoPow_sub_one (by omega)]
  simp only [decide_eq_decide]; omega

/-- **What `in_order_locks` returns**: lock `i` of `need_locks` such that no lock of
`need_locks` at or below `i` is set in `in_use`. -/
theorem getLsbD_inOrderLocks (u n : ErtsProcLocks) (i : Nat) :
    (inOrderLocks u n).getLsbD i =
      (n.getLsbD i && decide (∀ j ≤ i, ¬ (u.getLsbD j = true ∧ n.getLsbD j = true))) := by
  simp only [inOrderLocks, BitVec.getLsbD_and]
  by_cases hb : u &&& n = 0
  · have hz : ∀ j, ¬ (u.getLsbD j = true ∧ n.getLsbD j = true) := fun j h => by
      simpa [h.1, h.2] using congrArg (·.getLsbD j) hb
    have hall : ((0 : ErtsProcLocks) &&& -0) - 1 = BitVec.allOnes 32 := by decide
    rw [hb, hall, BitVec.getLsbD_allOnes]
    by_cases hi : i < 32
    · simp [hi, hz]
    · simp [BitVec.getLsbD_ge n i (by omega)]
  · obtain ⟨k, hk⟩ := exists_isLowest hb
    rw [and_neg_eq_twoPow hk, getLsbD_twoPow_sub_one hk.lt]
    cases n.getLsbD i
    · rfl
    · have hbk := hk.1
      simp only [BitVec.getLsbD_and, Bool.and_eq_true] at hbk
      simp only [Bool.true_and, decide_eq_decide]
      constructor
      · intro hik j hj hj'
        have := hk.2 j (by omega)
        simp [hj'.1, hj'.2] at this
      · intro h
        by_contra hik
        exact h k (by omega) hbk

end ProcLock.Bits
