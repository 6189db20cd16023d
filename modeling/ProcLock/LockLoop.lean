import ProcLock.Bits
import Mathlib.Logic.Function.Basic
import Mathlib.Logic.Function.Iterate

/-! # The calls of `proc_safelock` and its lock loop

`proc_safelock` takes locks on two processes in the lock order of all processes: by lock, then by
process id. It is modelled by the calls it makes (`Effect`), and its caller by its locks on each
process and the references it holds (`Caller`); `Respects` says when a call keeps to the order.

Its three loops are terminating definitions: `unlockRange` finds the first lock to take and the
locks to release, `p1Span` and `p2Span` the locks one `erts_proc_lock` takes on `p1` and on `p2`,
and `lockLoop` terminates by the measure `2 * (F - lock_no) + [lock_no ∈ need_locks1]`
(`p1Step_dec`, `p2Step_dec`).

* `p1Step_spec`, `p2Step_spec`: what one branch of the lock loop takes, and where it goes on;
* `lockLoop_isLock`: it makes only `erts_proc_lock` calls, on the two processes;
* `lockLoop_run`: the lock loop takes what is still needed, and each of its calls is above
  every lock held on the two processes;
* `loopBody`, `lockLoop_terminates`: one iteration of the loop on its locals, the measure that
  each iteration decreases, and the exit with nothing left to take. -/

namespace ProcLock.LockLoop

open Function ProcLock.Bits

/-! ## Calls and the caller -/

/-- A call on the locks or the reference count of a process, named by its id. -/
inductive Effect where
  /-- `erts_proc_lock(p, locks)` -/
  | lock (p : Nat) (locks : ErtsProcLocks)
  /-- `erts_proc_raw_trylock__(p, locks)`, when it gets the locks -/
  | trylock (p : Nat) (locks : ErtsProcLocks)
  /-- `erts_proc_unlock(p, locks)` -/
  | unlock (p : Nat) (locks : ErtsProcLocks)
  /-- `erts_proc_inc_refc(p)` -/
  | incRefc (p : Nat)
  /-- `erts_proc_dec_refc(p)` -/
  | decRefc (p : Nat)
  /-- `erts_thr_progress_unmanaged_continue(dhndl)` -/
  | unmanagedContinue
  deriving DecidableEq, Repr

/-- What the calling thread has: its locks on each process, and what it has added to the
reference count of each. -/
structure Caller where
  held : Nat → ErtsProcLocks
  refc : Nat → Int

/-- A call as the caller sees it: a lock call adds locks, an unlock call removes them. -/
def Effect.apply (c : Caller) : Effect → Caller
  | .lock p locks | .trylock p locks => { c with held := update c.held p (c.held p ||| locks) }
  | .unlock p locks => { c with held := update c.held p (c.held p &&& ~~~locks) }
  | .incRefc p => { c with refc := update c.refc p (c.refc p + 1) }
  | .decRefc p => { c with refc := update c.refc p (c.refc p - 1) }
  | .unmanagedContinue => c

/-- The caller after a sequence of calls. -/
def Caller.run (c : Caller) (es : List Effect) : Caller := es.foldl Effect.apply c

@[simp] theorem Caller.run_nil (c : Caller) : c.run [] = c := rfl

@[simp] theorem Caller.run_cons (c : Caller) (e : Effect) (es : List Effect) :
    c.run (e :: es) = (e.apply c).run es := rfl

@[simp] theorem Caller.run_append (c : Caller) (es es' : List Effect) :
    c.run (es ++ es') = (c.run es).run es' := List.foldl_append _ _ _ _

/-- The calls on a process that may be `NULL` (`p2` of `proc_safelock`, when the two processes are
one or `a_proc` is absent): none on `NULL`, nothing being held or needed there. -/
def onProc (p : Option Nat) (f : Nat → List Effect) : List Effect :=
  match p with
  | some p => f p
  | none => []

@[simp] theorem apply_lock_held (c : Caller) (p q : Nat) (l : ErtsProcLocks) :
    ((Effect.lock p l).apply c).held q = if q = p then c.held p ||| l else c.held q := by
  simp [Effect.apply, update_apply]

@[simp] theorem apply_unlock_held (c : Caller) (p q : Nat) (l : ErtsProcLocks) :
    ((Effect.unlock p l).apply c).held q = if q = p then c.held p &&& ~~~l else c.held q := by
  simp [Effect.apply, update_apply]

@[simp] theorem apply_lock_refc (c : Caller) (p : Nat) (l : ErtsProcLocks) :
    ((Effect.lock p l).apply c).refc = c.refc := rfl

@[simp] theorem apply_unlock_refc (c : Caller) (p : Nat) (l : ErtsProcLocks) :
    ((Effect.unlock p l).apply c).refc = c.refc := rfl

@[simp] theorem apply_trylock (c : Caller) (p : Nat) (l : ErtsProcLocks) :
    (Effect.trylock p l).apply c = (Effect.lock p l).apply c := rfl

@[simp] theorem apply_unmanagedContinue (c : Caller) : Effect.unmanagedContinue.apply c = c := rfl

@[simp] theorem apply_incRefc_held (c : Caller) (p : Nat) : ((Effect.incRefc p).apply c).held = c.held :=
  rfl

@[simp] theorem apply_decRefc_held (c : Caller) (p : Nat) : ((Effect.decRefc p).apply c).held = c.held :=
  rfl

/-- The references of a caller after a sequence of calls: one more for each `erts_proc_inc_refc`,
one less for each `erts_proc_dec_refc`. -/
theorem run_refc (c : Caller) (es : List Effect) (p : Nat) :
    (c.run es).refc p = c.refc p + es.count (.incRefc p) - es.count (.decRefc p) := by
  induction es generalizing c with
  | nil => simp
  | cons e es ih =>
    rw [Caller.run_cons, ih]
    cases e with
    | incRefc q =>
      by_cases h : p = q
      · subst h; simp [Effect.apply]; omega
      · simp [Effect.apply, update_apply, h, Ne.symm h]
    | decRefc q =>
      by_cases h : p = q
      · subst h; simp [Effect.apply]; omega
      · simp [Effect.apply, update_apply, h, Ne.symm h]
    | _ => simp [Effect.apply]

/-- The process whose locks a call takes or releases. -/
def Effect.lockProc : Effect → Option Nat
  | .lock p _ | .trylock p _ | .unlock p _ => some p
  | _ => none

/-- Calls on the locks of other processes leave the locks the caller holds on `q` alone. -/
theorem run_held_of_lockProc {c : Caller} {es : List Effect} {q : Nat}
    (h : ∀ e ∈ es, e.lockProc ≠ some q) : (c.run es).held q = c.held q := by
  induction es generalizing c with
  | nil => rfl
  | cons e es ih =>
    rw [Caller.run_cons, ih fun e' he' => h e' (.tail _ he')]
    have hq : ∀ p, e.lockProc = some p → q ≠ p := fun p hp e' => h e (.head _) (e' ▸ hp)
    cases e with
    | lock p l | trylock p l | unlock p l => simp [hq p rfl]
    | _ => simp

/-- Lock `i` of process `p` comes before lock `j` of process `q` in the lock order. -/
def LockLt (i p j q : Nat) : Prop := i < j ∨ (i = j ∧ p < q)

/-- A call keeps to the lock order, for a caller `c` and the processes `ps`: a lock call asks for
locks it does not hold, above every lock it holds on `ps`; an unlock call releases locks it
holds. -/
def Respects (ps : Nat → Prop) (c : Caller) : Effect → Prop
  | .lock p locks => locks ≠ 0 ∧ locks &&& c.held p = 0 ∧
      ∀ q, ps q → ∀ i, (c.held q).getLsbD i → ∀ j, IsLowest locks j → LockLt i q j p
  | .unlock p locks => locks &&& ~~~c.held p = 0
  | _ => True

/-- Every call of a sequence keeps to the lock order, each from the caller the calls before it
leave. -/
def RespectsAll (ps : Nat → Prop) : Caller → List Effect → Prop
  | _, [] => True
  | c, e :: es => Respects ps c e ∧ RespectsAll ps (e.apply c) es

@[simp] theorem respectsAll_append {ps : Nat → Prop} {c : Caller} {es es' : List Effect} :
    RespectsAll ps c (es ++ es') ↔ RespectsAll ps c es ∧ RespectsAll ps (c.run es) es' := by
  induction es generalizing c with
  | nil => simp [RespectsAll]
  | cons e es ih => simp [RespectsAll, ih, and_assoc]

theorem RespectsAll.mono {ps ps' : Nat → Prop} (hps : ∀ q, ps' q → ps q) :
    ∀ {c : Caller} {es : List Effect}, RespectsAll ps c es → RespectsAll ps' c es
  | _, [], _ => trivial
  | _, .lock _ _ :: _, ⟨⟨h1, h2, h3⟩, h⟩ =>
    ⟨⟨h1, h2, fun q hq => h3 q (hps q hq)⟩, RespectsAll.mono hps h⟩
  | _, .trylock _ _ :: _, ⟨h0, h⟩ => ⟨h0, RespectsAll.mono hps h⟩
  | _, .unlock _ _ :: _, ⟨h0, h⟩ => ⟨h0, RespectsAll.mono hps h⟩
  | _, .incRefc _ :: _, ⟨h0, h⟩ => ⟨h0, RespectsAll.mono hps h⟩
  | _, .decRefc _ :: _, ⟨h0, h⟩ => ⟨h0, RespectsAll.mono hps h⟩
  | _, .unmanagedContinue :: _, ⟨h0, h⟩ => ⟨h0, RespectsAll.mono hps h⟩

/-! ## The loops -/

section Loops

variable (L : Layout)

/-- The loop that finds `lock_no`, the first lock to take on `p1` or `p2`, and `unlock_mask`, the
locks above it: from that lock on if `p1` needs it, from the next one if only `p2` does. -/
def unlockRange (needLocks1 needLocks2 : ErtsProcLocks) (lockNo : Nat)
    (unlockMask : ErtsProcLocks) : Nat × ErtsProcLocks :=
  if h : lockNo ≤ L.maxBit then
    let lock := lockBit lockNo
    if lock &&& needLocks1 ≠ 0 then (lockNo, unlockMask)
    else
      let unlockMask := unlockMask &&& ~~~lock
      if lock &&& needLocks2 ≠ 0 then (lockNo, unlockMask)
      else unlockRange needLocks1 needLocks2 (lockNo + 1) unlockMask
  else (lockNo, unlockMask)
termination_by L.maxBit + 1 - lockNo

/-- The `do … while` of the `p1` branch of the lock loop, from `lock_no` up to the first lock
`p2` needs, that one included; `lock_no`, `lock` and `lock_mask` after it. -/
def p1Span (needLocks2 : ErtsProcLocks) (lockNo : Nat) (lockMask : ErtsProcLocks) :
    Nat × ErtsProcLocks × ErtsProcLocks :=
  let lock := lockBit lockNo
  let lockMask := lockMask ||| lock
  if h : lockNo + 1 ≤ L.maxBit ∧ needLocks2 &&& lock = 0 then p1Span needLocks2 (lockNo + 1) lockMask
  else (lockNo + 1, lock, lockMask)
termination_by L.maxBit + 1 - lockNo

/-- The `while` of the `p2` branch, from `lock_no` up to the next lock `p1` needs, that one
excluded; `lock_no` and `lock_mask` after it. -/
def p2Span (needLocks1 : ErtsProcLocks) (lockNo : Nat) (lock lockMask : ErtsProcLocks) :
    Nat × ErtsProcLocks :=
  if _h : lockNo ≤ L.maxBit ∧ needLocks1 &&& lock = 0 then
    p2Span needLocks1 (lockNo + 1) (lockBit (lockNo + 1)) (lockMask ||| lock)
  else (lockNo, lockMask)
termination_by L.maxBit + 1 - lockNo

variable {L}

/-- Lock `k` added to the locks from `k + 1` on: the locks from `k` on. -/
theorem getLsbD_or_lockBit_from (m : ErtsProcLocks) {k i : Nat} (hk : k < 32) {P : Prop}
    [Decidable P] (hP : i = k → P) :
    ((m ||| lockBit k).getLsbD i || decide (k + 1 ≤ i ∧ P)) = (m.getLsbD i || decide (k ≤ i ∧ P)) := by
  rw [BitVec.getLsbD_or, getLsbD_lockBit]
  by_cases hik : i = k
  · subst hik; simp [hk, hP rfl]
  · simp only [hik, decide_False, Bool.and_false, Bool.or_false]
    congr 1
    exact decide_eq_decide.mpr (and_congr_left fun _ => by omega)

/-- **What `p1Span` takes**: the locks `k, …, j`, with `j` the first lock `p2` needs from `k` on,
or the last lock. -/
theorem p1Span_spec (need2 : ErtsProcLocks) (k : Nat) (hk : k ≤ L.maxBit) (m : ErtsProcLocks) :
    ∃ j, k ≤ j ∧ j ≤ L.maxBit ∧ (p1Span L need2 k m).1 = j + 1 ∧
      (p1Span L need2 k m).2.1 = lockBit j ∧
      (∀ i, (p1Span L need2 k m).2.2.getLsbD i = (m.getLsbD i || decide (k ≤ i ∧ i ≤ j))) ∧
      (∀ i, k ≤ i → i < j → need2.getLsbD i = false) ∧ (need2.getLsbD j ∨ j = L.maxBit) := by
  induction k, m using p1Span.induct L need2 with
  | case1 k m _ _ h ih =>
    have hk32 := lt_of_le_maxBit hk
    rw [p1Span, dif_pos h]
    obtain ⟨j, hkj, hj, h1, h2, h3, h4, h5⟩ := ih h.1
    have hk2 := (lockBit_and_eq_zero hk32).mp h.2
    refine ⟨j, by omega, hj, h1, h2, fun i => ?_, fun i hi1 hi2 => ?_, h5⟩
    · rw [h3, getLsbD_or_lockBit_from m hk32 (P := i ≤ j) fun _ => by omega]
    · rcases Nat.lt_or_eq_of_le hi1 with hi | rfl
      · exact h4 i hi hi2
      · exact hk2
  | case2 k m _ h =>
    have hk32 := lt_of_le_maxBit hk
    rw [p1Span, dif_neg h]
    refine ⟨k, le_rfl, hk, rfl, rfl, fun i => ?_, fun i hi1 hi2 => absurd hi2 (by omega), ?_⟩
    · rw [BitVec.getLsbD_or, getLsbD_lockBit]
      by_cases hik : i = k
      · subst hik; simp [hk32]
      · simp only [hik, decide_False, Bool.and_false, Bool.or_false]
        simp; omega
    · rw [not_and_or] at h
      rcases h with h | h
      · exact .inr (by omega)
      · exact .inl ((lockBit_and_ne_zero hk32).mp h)

/-- **What `p2Span` takes**: the locks `k, …, j - 1`, with `j` the next lock `p1` needs from `k`
on, or past the last lock. -/
theorem p2Span_spec (need1 : ErtsProcLocks) (k : Nat) (hk : k ≤ L.maxBit + 1) (m : ErtsProcLocks) :
    ∃ j, k ≤ j ∧ j ≤ L.maxBit + 1 ∧ (p2Span L need1 k (lockBit k) m).1 = j ∧
      (∀ i, (p2Span L need1 k (lockBit k) m).2.getLsbD i = (m.getLsbD i || decide (k ≤ i ∧ i < j))) ∧
      (∀ i, k ≤ i → i < j → need1.getLsbD i = false) ∧ (j ≤ L.maxBit → need1.getLsbD j) := by
  generalize hl : lockBit k = lock
  induction k, lock, m using p2Span.induct L need1 with
  | case1 k lock m h ih =>
    subst hl
    rw [p2Span, dif_pos h]
    have hk32 := lt_of_le_maxBit h.1
    obtain ⟨j, hkj, hj, h1, h3, h4, h5⟩ := ih (by omega) rfl
    have hk2 := (lockBit_and_eq_zero hk32).mp h.2
    refine ⟨j, by omega, hj, h1, fun i => ?_, fun i hi1 hi2 => ?_, h5⟩
    · rw [h3, getLsbD_or_lockBit_from m hk32 (P := i < j) fun _ => by omega]
    · rcases Nat.lt_or_eq_of_le hi1 with hi | rfl
      · exact h4 i hi hi2
      · exact hk2
  | case2 k lock m h =>
    subst hl
    rw [p2Span, dif_neg h]
    refine ⟨k, le_rfl, hk, rfl, fun i => ?_, fun i hi1 hi2 => absurd hi2 (by omega), fun hk' => ?_⟩
    · have : ¬ (k ≤ i ∧ i < k) := by omega
      simp [this]
    · rw [not_and_or] at h
      rcases h with h | h
      · exact absurd hk' h
      · exact (lockBit_and_ne_zero (lt_of_le_maxBit hk')).mp h

variable (L)

/-- One `p1` branch of the lock loop: the locks it takes on `p1`, and `lock_no` after it. -/
def p1Step (needLocks1 needLocks2 : ErtsProcLocks) (lockNo : Nat) : ErtsProcLocks × Nat :=
  let r := p1Span L needLocks2 lockNo 0
  (needLocks1 &&& r.2.2, if needLocks2 &&& r.2.1 ≠ 0 then r.1 - 1 else r.1)

/-- One `p2` branch of the lock loop: the locks it takes on `p2`, and `lock_no` after it. -/
def p2Step (needLocks1 needLocks2 : ErtsProcLocks) (lockNo : Nat) : ErtsProcLocks × Nat :=
  let r := p2Span L needLocks1 lockNo (lockBit lockNo) 0
  (needLocks2 &&& r.2, r.1)

variable {L}

/-- What one `p1` branch does, from a lock `k` that `p1` needs: it takes the locks `p1` needs
from `k` up to `j`, the first lock `p2` needs or the last lock, and goes on at `j` if `p2` needs
it, past it if not. -/
theorem p1Step_spec (need1 need2 : ErtsProcLocks) {k : Nat} (hk : k ≤ L.maxBit) :
    ∃ j, k ≤ j ∧ j ≤ L.maxBit ∧
      (∀ i, (p1Step L need1 need2 k).1.getLsbD i ↔ need1.getLsbD i ∧ k ≤ i ∧ i ≤ j) ∧
      (∀ i, k ≤ i → i < j → need2.getLsbD i = false) ∧
      (((p1Step L need1 need2 k).2 = j ∧ need2.getLsbD j) ∨
        ((p1Step L need1 need2 k).2 = j + 1 ∧ need2.getLsbD j = false ∧ j = L.maxBit)) := by
  obtain ⟨j, hkj, hj, h1, h2, h3, h4, h5⟩ := p1Span_spec need2 k hk 0
  have hj32 := lt_of_le_maxBit hj
  refine ⟨j, hkj, hj, fun i => ?_, h4, ?_⟩
  · simp only [p1Step, BitVec.getLsbD_and]
    rw [h3]; simp
  simp only [p1Step, h1, h2]
  by_cases hn : need2.getLsbD j
  · rw [if_pos ((lockBit_and_ne_zero hj32).mpr hn)]
    exact .inl ⟨rfl, hn⟩
  · rw [if_neg fun h => hn ((lockBit_and_ne_zero hj32).mp h)]
    exact .inr ⟨rfl, by simpa using hn, h5.resolve_left hn⟩

/-- What one `p2` branch does, from a lock `k` that only `p2` needs: it takes the locks `p2`
needs from `k` up to the next lock `j > k` that `p1` needs, and goes on there. -/
theorem p2Step_spec (need1 need2 : ErtsProcLocks) {k : Nat} (hk : k ≤ L.maxBit)
    (hn1 : need1.getLsbD k = false) :
    ∃ j, k < j ∧ (p2Step L need1 need2 k).2 = j ∧
      (∀ i, (p2Step L need1 need2 k).1.getLsbD i ↔ need2.getLsbD i ∧ k ≤ i ∧ i < j) ∧
      ∀ i, k ≤ i → i < j → need1.getLsbD i = false := by
  obtain ⟨j, hkj, -, h1, h3, h4, h5⟩ := p2Span_spec (L := L) need1 k (by omega) 0
  refine ⟨j, Nat.lt_of_le_of_ne hkj fun e => ?_, h1, fun i => ?_, h4⟩
  · subst e
    simp [h5 hk] at hn1
  · simp only [p2Step, BitVec.getLsbD_and]
    rw [h3]; simp

theorem p1Step_dec {need1 need2 : ErtsProcLocks} {k : Nat} (hk : k ≤ L.maxBit)
    (h1 : need1 &&& lockBit k ≠ 0) :
    2 * (L.maxBit + 1 - (p1Step L need1 need2 k).2) +
        ((need1 &&& ~~~(p1Step L need1 need2 k).1).getLsbD (p1Step L need1 need2 k).2).toNat <
      2 * (L.maxBit + 1 - k) + (need1.getLsbD k).toNat := by
  obtain ⟨j, hkj, hj, hl, -, hnext⟩ := p1Step_spec need1 need2 hk
  rw [(lockBit_and_ne_zero (lt_of_le_maxBit hk)).mp h1]
  rcases hnext with ⟨hnext, -⟩ | ⟨hnext, -, rfl⟩
  · -- `p2` needs `j`: the loop stays at `j`, which `p1` has taken
    rw [hnext, getLsbD_and_not_of_imp fun hb => (hl j).mpr ⟨hb, hkj, le_rfl⟩]
    simp only [Bool.toNat_false, Bool.toNat_true]; omega
  · rw [hnext]
    have := Bool.toNat_le ((need1 &&& ~~~(p1Step L need1 need2 k).1).getLsbD (L.maxBit + 1))
    simp only [Bool.toNat_true]; omega

theorem p2Step_dec {need1 need2 : ErtsProcLocks} {k : Nat} (hk : k ≤ L.maxBit)
    (h1 : need1 &&& lockBit k = 0) :
    2 * (L.maxBit + 1 - (p2Step L need1 need2 k).2) +
        (need1.getLsbD (p2Step L need1 need2 k).2).toNat <
      2 * (L.maxBit + 1 - k) + (need1.getLsbD k).toNat := by
  have hn1 := (lockBit_and_eq_zero (lt_of_le_maxBit hk)).mp h1
  obtain ⟨j, hkj, hnext, -, -⟩ := p2Step_spec need1 need2 hk hn1
  rw [hnext, hn1]
  have := Bool.toNat_le (need1.getLsbD j)
  simp only [Bool.toNat_false]; omega

variable (L)

/-- The lock loop of `proc_safelock` from `lock_no`: the `erts_proc_lock` calls it makes, on `p1`
up to the first lock `p2` needs and on `p2` up to the next lock `p1` needs. -/
def lockLoop (p1 : Nat) (p2 : Option Nat) (needLocks1 needLocks2 : ErtsProcLocks) (lockNo : Nat) :
    List Effect :=
  if hk : lockNo ≤ L.maxBit then
    let lock := lockBit lockNo
    if h1 : needLocks1 &&& lock ≠ 0 then
      let locks := (p1Step L needLocks1 needLocks2 lockNo).1
      .lock p1 locks ::
        lockLoop p1 p2 (needLocks1 &&& ~~~locks) needLocks2 (p1Step L needLocks1 needLocks2 lockNo).2
    else if needLocks2 &&& lock ≠ 0 then
      let locks := (p2Step L needLocks1 needLocks2 lockNo).1
      onProc p2 (fun p => [.lock p locks]) ++
        lockLoop p1 p2 needLocks1 (needLocks2 &&& ~~~locks) (p2Step L needLocks1 needLocks2 lockNo).2
    else lockLoop p1 p2 needLocks1 needLocks2 (lockNo + 1)
  else []
termination_by 2 * (L.maxBit + 1 - lockNo) + (needLocks1.getLsbD lockNo).toNat
decreasing_by
  · exact p1Step_dec hk h1
  · exact p2Step_dec hk (not_not.mp h1)
  · simp_wf
    have := Bool.toNat_le (needLocks1.getLsbD (lockNo + 1))
    omega

end Loops

/-- The lock loop makes only `erts_proc_lock` calls, on `p1` and `p2`. -/
theorem lockLoop_isLock {L : Layout} (p1 : Nat) (p2 : Option Nat) (need1 need2 : ErtsProcLocks)
    (k : Nat) : ∀ e ∈ lockLoop L p1 p2 need1 need2 k, ∃ p l, e = .lock p l ∧ (p = p1 ∨ p2 = some p) := by
  induction need1, need2, k using lockLoop.induct L p1 p2 with
  | case1 n1 n2 k hk _ h1 _ ih =>
    rw [lockLoop, dif_pos hk, dif_pos h1]
    rintro e (_ | ⟨_, he⟩)
    · exact ⟨_, _, rfl, .inl rfl⟩
    · exact ih e he
  | case2 n1 n2 k hk _ h1 h2 _ ih =>
    rw [lockLoop, dif_pos hk, dif_neg h1]
    simp only [if_pos h2]
    intro e he
    rcases List.mem_append.mp he with he | he
    · cases p2 with
      | none => cases he
      | some q => exact ⟨q, _, List.mem_singleton.mp he, .inr rfl⟩
    · exact ih e he
  | case3 n1 n2 k hk _ h1 h2 ih =>
    rw [lockLoop, dif_pos hk, dif_neg h1]
    simp only [if_neg h2]; exact ih
  | case4 n1 n2 k hk => rw [lockLoop, dif_neg hk]; simp

/-! ## The lock loop -/

section LockLoop

variable {L : Layout} {p1 : Nat} {p2 : Option Nat}

/-- The lock loop at `lock_no = k`, for the caller `c`: the locks still needed lie from `k` on
among the locks of the process, apart from those held; what is held on `p2` lies below `k`, and
on `p1` below `k` or at `k` when `p1` does not need `k`. -/
structure LoopInv (L : Layout) (p1 : Nat) (p2 : Option Nat) (c : Caller)
    (need1 need2 : ErtsProcLocks) (k : Nat) : Prop where
  need1_ge : ∀ i, need1.getLsbD i → k ≤ i ∧ i ≤ L.maxBit
  need2_ge : ∀ i, need2.getLsbD i → k ≤ i ∧ i ≤ L.maxBit
  need2_none : p2 = none → need2 = 0
  disj1 : ∀ i, need1.getLsbD i → (c.held p1).getLsbD i = false
  disj2 : ∀ q, p2 = some q → ∀ i, need2.getLsbD i → (c.held q).getLsbD i = false
  held1 : ∀ i, (c.held p1).getLsbD i → i < k ∨ (i = k ∧ need1.getLsbD k = false)
  held2 : ∀ q, p2 = some q → ∀ i, (c.held q).getLsbD i → i < k

/-- What the calls of the lock loop leave: the locks still needed, added on each process. -/
def loopPost (p1 : Nat) (p2 : Option Nat) (c : Caller) (need1 need2 : ErtsProcLocks) (q : Nat) :
    ErtsProcLocks :=
  c.held q ||| (if q = p1 then need1 else 0) ||| (if p2 = some q then need2 else 0)

theorem and_not_or_eq {a b l : ErtsProcLocks} (h : ∀ i, l.getLsbD i → b.getLsbD i) :
    a ||| l ||| (b &&& ~~~l) = a ||| b := by
  ext i
  simp only [BitVec.getLsbD_or, getLsbD_and_not]
  cases hl : l.getLsbD (i : Nat) <;> cases hb : b.getLsbD (i : Nat) <;> simp_all

/-- A set of locks with lock `k` and none below is lowest at `k`. -/
theorem isLowest_of {m : ErtsProcLocks} {k : Nat} (hk : m.getLsbD k) (hlow : ∀ i, m.getLsbD i → k ≤ i)
    {j : Nat} (hj : IsLowest m j) : j = k :=
  hj.unique ⟨hk, fun i hi => Bool.eq_false_iff.mpr fun h => absurd (hlow i h) (by omega)⟩

section Branches

variable {c : Caller} {need1 need2 l : ErtsProcLocks} {k : Nat}

theorem loopPost_lock1 (hl : ∀ i, l.getLsbD i → need1.getLsbD i) :
    loopPost p1 p2 ((Effect.lock p1 l).apply c) (need1 &&& ~~~l) need2 =
      loopPost p1 p2 c need1 need2 := by
  funext q
  unfold loopPost
  rw [apply_lock_held]
  by_cases hq : q = p1
  · subst hq
    simp only [eq_self_iff_true, if_true]
    rw [and_not_or_eq hl]
  · simp only [if_neg hq]

theorem loopPost_lock2 {q : Nat} (hq : p2 = some q) (hl : ∀ i, l.getLsbD i → need2.getLsbD i) :
    loopPost p1 p2 ((Effect.lock q l).apply c) need1 (need2 &&& ~~~l) =
      loopPost p1 p2 c need1 need2 := by
  funext q'
  unfold loopPost
  rw [apply_lock_held]
  by_cases h1 : q' = q
  · subst h1
    simp only [eq_self_iff_true, if_true, hq]
    ext i
    simp only [BitVec.getLsbD_or, getLsbD_and_not]
    cases hli : l.getLsbD i
    · simp
    · simp [hl i hli]
  · have : p2 ≠ some q' := by rw [hq]; exact fun e => h1 (Option.some.inj e).symm
    simp only [if_neg h1, if_neg this]

/-- The `p1` branch leaves the locks still needed from where it goes on. -/
theorem needs_p1 {M j k' : Nat} (h1 : ∀ i, need1.getLsbD i → k ≤ i ∧ i ≤ M)
    (h2 : ∀ i, need2.getLsbD i → k ≤ i ∧ i ≤ M)
    (hl : ∀ i, l.getLsbD i ↔ need1.getLsbD i ∧ k ≤ i ∧ i ≤ j)
    (hfree2 : ∀ i, k ≤ i → i < j → need2.getLsbD i = false)
    (hnext : (k' = j ∧ need2.getLsbD j) ∨ (k' = j + 1 ∧ need2.getLsbD j = false)) :
    (∀ i, (need1 &&& ~~~l).getLsbD i → k' ≤ i ∧ i ≤ M) ∧
      ∀ i, need2.getLsbD i → k' ≤ i ∧ i ≤ M := by
  refine ⟨fun i hi => ?_, fun i hi => ?_⟩
  · rw [getLsbD_and_not, Bool.and_eq_true, Bool.not_eq_true'] at hi
    have := h1 i hi.1
    have hji : j < i := Nat.lt_of_not_le fun hij => by simp [(hl i).mpr ⟨hi.1, this.1, hij⟩] at hi
    exact ⟨by rcases hnext with ⟨rfl, -⟩ | ⟨rfl, -⟩ <;> omega, this.2⟩
  · have := h2 i hi
    have hji : j ≤ i := Nat.le_of_not_lt fun hij => by simp [hfree2 i this.1 hij] at hi
    refine ⟨?_, this.2⟩
    rcases hnext with ⟨rfl, -⟩ | ⟨rfl, hf⟩
    · exact hji
    · rcases Nat.lt_or_eq_of_le hji with hji | rfl
      · exact hji
      · simp [hf] at hi

/-- The `p2` branch leaves the locks still needed from where it goes on. -/
theorem needs_p2 {M j : Nat} (h1 : ∀ i, need1.getLsbD i → k ≤ i ∧ i ≤ M)
    (h2 : ∀ i, need2.getLsbD i → k ≤ i ∧ i ≤ M)
    (hl : ∀ i, l.getLsbD i ↔ need2.getLsbD i ∧ k ≤ i ∧ i < j)
    (hfree1 : ∀ i, k ≤ i → i < j → need1.getLsbD i = false) :
    (∀ i, need1.getLsbD i → j ≤ i ∧ i ≤ M) ∧ ∀ i, (need2 &&& ~~~l).getLsbD i → j ≤ i ∧ i ≤ M := by
  refine ⟨fun i hi => ?_, fun i hi => ?_⟩
  · have := h1 i hi
    exact ⟨Nat.le_of_not_lt fun hij => by simp [hfree1 i this.1 hij] at hi, this.2⟩
  · rw [getLsbD_and_not, Bool.and_eq_true, Bool.not_eq_true'] at hi
    have := h2 i hi.1
    exact ⟨Nat.le_of_not_lt fun hij => by simp [(hl i).mpr ⟨hi.1, this.1, hij⟩] at hi, this.2⟩

/-- Past a lock it does not need, a mask still needed lies from the next lock on. -/
theorem needs_skip {need : ErtsProcLocks} {M : Nat} (h : ∀ i, need.getLsbD i → k ≤ i ∧ i ≤ M)
    (hn : need.getLsbD k = false) : ∀ i, need.getLsbD i → k + 1 ≤ i ∧ i ≤ M := fun i hi => by
  have := h i hi
  refine ⟨Nat.lt_of_le_of_ne this.1 fun e => ?_, this.2⟩
  subst e
  simp [hn] at hi

/-- The `p1` branch keeps the invariant, and its call keeps to the lock order. -/
theorem loopInv_p1 (hlt : ∀ q, p2 = some q → p1 < q) (h : LoopInv L p1 p2 c need1 need2 k)
    (hn1 : need1.getLsbD k) {j k' : Nat} (hkj : k ≤ j)
    (hl : ∀ i, l.getLsbD i ↔ need1.getLsbD i ∧ k ≤ i ∧ i ≤ j)
    (hfree2 : ∀ i, k ≤ i → i < j → need2.getLsbD i = false)
    (hnext : (k' = j ∧ need2.getLsbD j) ∨ (k' = j + 1 ∧ need2.getLsbD j = false)) :
    Respects (fun q => q = p1 ∨ p2 = some q) c (.lock p1 l) ∧
      LoopInv L p1 p2 ((Effect.lock p1 l).apply c) (need1 &&& ~~~l) need2 k' := by
  have hne : ∀ q, p2 = some q → q ≠ p1 := fun q hq e => by have := hlt q hq; omega
  have hkk' : k ≤ k' := by omega
  obtain ⟨hge1, hge2⟩ := needs_p1 h.need1_ge h.need2_ge hl hfree2 hnext
  have hn1' : ∀ i, (need1 &&& ~~~l).getLsbD i ↔ need1.getLsbD i ∧ ¬ (k ≤ i ∧ i ≤ j) := fun i => by
    rw [getLsbD_and_not, Bool.and_eq_true, Bool.not_eq_true', Bool.eq_false_iff, ne_eq, hl]
    exact ⟨fun h => ⟨h.1, fun h' => h.2 ⟨h.1, h'⟩⟩, fun h => ⟨h.1, fun h' => h.2 h'.2⟩⟩
  refine ⟨⟨fun h0 => ?_, eq_zero_iff.mpr fun i => ?_, fun q hq i hi j' hj' => ?_⟩, ?_⟩
  · have := (hl k).mpr ⟨hn1, le_rfl, hkj⟩
    rw [h0] at this; simp at this
  · rw [BitVec.getLsbD_and]
    cases hli : l.getLsbD i
    · rfl
    · rw [h.disj1 i ((hl i).mp hli).1, Bool.and_false]
  · have hj'k : j' = k := isLowest_of ((hl k).mpr ⟨hn1, le_rfl, hkj⟩)
      (fun i hi => ((hl i).mp hi).2.1) hj'
    subst hj'k
    rcases hq with rfl | hq
    · rcases h.held1 i hi with hi | ⟨rfl, hf⟩
      · exact .inl hi
      · rw [hn1] at hf; cases hf
    · exact .inl (h.held2 q hq i hi)
  · refine ⟨hge1, hge2, h.need2_none, fun i hi => ?_, fun q hq i hi => ?_, fun i hi => ?_,
      fun q hq i hi => ?_⟩
    · rw [apply_lock_held, if_pos rfl, BitVec.getLsbD_or, h.disj1 i ((hn1' i).mp hi).1,
        Bool.false_or]
      exact Bool.eq_false_iff.mpr fun h' => ((hn1' i).mp hi).2 ((hl i).mp h').2
    · rw [apply_lock_held, if_neg (hne q hq)]; exact h.disj2 q hq i hi
    · rw [apply_lock_held, if_pos rfl, BitVec.getLsbD_or, Bool.or_eq_true] at hi
      rcases hi with hi | hi
      · rcases h.held1 i hi with hi | ⟨rfl, hf⟩
        · exact .inl (by omega)
        · rw [hn1] at hf; cases hf
      · obtain ⟨-, hki, hij⟩ := (hl i).mp hi
        rcases hnext with ⟨rfl, -⟩ | ⟨rfl, -⟩
        · rcases Nat.lt_or_eq_of_le hij with hij | rfl
          · exact .inl hij
          · exact .inr ⟨rfl, Bool.eq_false_iff.mpr fun h' => ((hn1' i).mp h').2 ⟨hki, le_rfl⟩⟩
        · exact .inl (by omega)
    · rw [apply_lock_held, if_neg (hne q hq)] at hi
      exact Nat.lt_of_lt_of_le (h.held2 q hq i hi) hkk'

/-- The `p2` branch keeps the invariant, and its call keeps to the lock order. -/
theorem loopInv_p2 (hlt : ∀ q, p2 = some q → p1 < q) (h : LoopInv L p1 p2 c need1 need2 k)
    {q : Nat} (hq : p2 = some q) (hn2 : need2.getLsbD k) (hn1 : need1.getLsbD k = false)
    {j : Nat} (hkj : k < j) (hl : ∀ i, l.getLsbD i ↔ need2.getLsbD i ∧ k ≤ i ∧ i < j)
    (hfree1 : ∀ i, k ≤ i → i < j → need1.getLsbD i = false) :
    Respects (fun q => q = p1 ∨ p2 = some q) c (.lock q l) ∧
      LoopInv L p1 p2 ((Effect.lock q l).apply c) need1 (need2 &&& ~~~l) j := by
  have hne : q ≠ p1 := fun e => by have := hlt q hq; omega
  obtain ⟨hge1, hge2⟩ := needs_p2 h.need1_ge h.need2_ge hl hfree1
  have hn2' : ∀ i, (need2 &&& ~~~l).getLsbD i ↔ need2.getLsbD i ∧ ¬ (k ≤ i ∧ i < j) := fun i => by
    rw [getLsbD_and_not, Bool.and_eq_true, Bool.not_eq_true', Bool.eq_false_iff, ne_eq, hl]
    exact ⟨fun h => ⟨h.1, fun h' => h.2 ⟨h.1, h'⟩⟩, fun h => ⟨h.1, fun h' => h.2 h'.2⟩⟩
  refine ⟨⟨fun h0 => ?_, eq_zero_iff.mpr fun i => ?_, fun q' hq' i hi j' hj' => ?_⟩, ?_⟩
  · have := (hl k).mpr ⟨hn2, le_rfl, hkj⟩
    rw [h0] at this; simp at this
  · rw [BitVec.getLsbD_and]
    cases hli : l.getLsbD i
    · rfl
    · rw [h.disj2 q hq i ((hl i).mp hli).1, Bool.and_false]
  · have hj'k : j' = k := isLowest_of ((hl k).mpr ⟨hn2, le_rfl, hkj⟩)
      (fun i hi => ((hl i).mp hi).2.1) hj'
    subst hj'k
    rcases hq' with rfl | hq'
    · rcases h.held1 i hi with hi | ⟨rfl, -⟩
      · exact .inl hi
      · exact .inr ⟨rfl, hlt q hq⟩
    · obtain rfl : q' = q := Option.some.inj (hq'.symm.trans hq)
      exact .inl (h.held2 q' hq i hi)
  · refine ⟨hge1, hge2, (fun h0 => by rw [hq] at h0; cases h0), fun i hi => ?_,
      fun q' hq' i hi => ?_, fun i hi => ?_, fun q' hq' i hi => ?_⟩
    · rw [apply_lock_held, if_neg (Ne.symm hne)]; exact h.disj1 i hi
    · obtain rfl : q' = q := Option.some.inj (hq'.symm.trans hq)
      rw [apply_lock_held, if_pos rfl, BitVec.getLsbD_or, h.disj2 q' hq i ((hn2' i).mp hi).1,
        Bool.false_or]
      exact Bool.eq_false_iff.mpr fun h' => ((hn2' i).mp hi).2 ((hl i).mp h').2
    · rw [apply_lock_held, if_neg (Ne.symm hne)] at hi
      rcases h.held1 i hi with hi | ⟨rfl, -⟩
      · exact .inl (by omega)
      · exact .inl hkj
    · obtain rfl : q' = q := Option.some.inj (hq'.symm.trans hq)
      rw [apply_lock_held, if_pos rfl, BitVec.getLsbD_or, Bool.or_eq_true] at hi
      rcases hi with hi | hi
      · exact Nat.lt_trans (h.held2 q' hq i hi) hkj
      · exact ((hl i).mp hi).2.2

/-- A lock neither process needs is passed. -/
theorem loopInv_skip (h : LoopInv L p1 p2 c need1 need2 k) (hn1 : need1.getLsbD k = false)
    (hn2 : need2.getLsbD k = false) : LoopInv L p1 p2 c need1 need2 (k + 1) := by
  refine ⟨needs_skip h.need1_ge hn1, needs_skip h.need2_ge hn2, h.need2_none, h.disj1, h.disj2,
    fun i hi => .inl ?_, fun q hq i hi => Nat.lt_succ_of_lt (h.held2 q hq i hi)⟩
  rcases h.held1 i hi with hi | ⟨rfl, -⟩ <;> omega

/-- Past the last lock nothing is needed. -/
theorem loopInv_done (h : LoopInv L p1 p2 c need1 need2 k) (hk : L.maxBit < k) :
    need1 = 0 ∧ need2 = 0 := by
  refine ⟨eq_zero_iff.mpr fun i => ?_, eq_zero_iff.mpr fun i => ?_⟩
  · exact Bool.eq_false_iff.mpr fun hi => by have := h.need1_ge i hi; omega
  · exact Bool.eq_false_iff.mpr fun hi => by have := h.need2_ge i hi; omega

end Branches

/-- **The lock loop**: from a state satisfying `LoopInv`, every `erts_proc_lock` call it makes
asks for locks the caller does not hold, above every lock the caller holds on `p1` and `p2`; at
its end the caller holds, on top of what it held, all that was still needed. -/
theorem lockLoop_run (hlt : ∀ q, p2 = some q → p1 < q) (need1 need2 : ErtsProcLocks) (k : Nat)
    (c : Caller) (h : LoopInv L p1 p2 c need1 need2 k) :
    RespectsAll (fun q => q = p1 ∨ p2 = some q) c (lockLoop L p1 p2 need1 need2 k) ∧
      (c.run (lockLoop L p1 p2 need1 need2 k)).held = loopPost p1 p2 c need1 need2 ∧
      (c.run (lockLoop L p1 p2 need1 need2 k)).refc = c.refc := by
  induction need1, need2, k using lockLoop.induct L p1 p2 generalizing c with
  | case1 need1 need2 k hk _ h1 _ ih =>
    -- the `p1` branch: the locks `p1` needs from `k` up to the first `p2` needs
    rw [lockLoop, dif_pos hk, dif_pos h1]
    obtain ⟨j, hkj, -, hl, hfree2, hnext⟩ := p1Step_spec need1 need2 hk
    obtain ⟨hresp, hinv⟩ := loopInv_p1 hlt h ((lockBit_and_ne_zero (lt_of_le_maxBit hk)).mp h1)
      hkj hl hfree2 (hnext.imp_right fun h => ⟨h.1, h.2.1⟩)
    obtain ⟨hresp', hheld, hrefc⟩ := ih _ hinv
    refine ⟨⟨hresp, hresp'⟩, ?_, hrefc⟩
    rw [Caller.run_cons, hheld, loopPost_lock1 fun i hi => ((hl i).mp hi).1]
  | case2 need1 need2 k hk _ h1 h2 _ ih =>
    -- the `p2` branch: the locks `p2` needs from `k` up to the next `p1` needs
    rw [lockLoop, dif_pos hk, dif_neg h1]
    simp only [if_pos h2]
    have hk32 := lt_of_le_maxBit hk
    have hn2 : need2.getLsbD k := (lockBit_and_ne_zero hk32).mp h2
    have hn1 := (lockBit_and_eq_zero hk32).mp (not_not.mp h1)
    obtain ⟨q, hq⟩ : ∃ q, p2 = some q := by
      cases hp : p2 with
      | none => rw [h.need2_none hp] at hn2; simp at hn2
      | some q => exact ⟨q, rfl⟩
    obtain ⟨j, hkj, hnext, hl, hfree1⟩ := p2Step_spec need1 need2 hk hn1
    obtain ⟨hresp, hinv⟩ := loopInv_p2 hlt h hq hn2 hn1 hkj hl hfree1
    rw [← hnext] at hinv
    obtain ⟨hresp', hheld, hrefc⟩ := ih _ hinv
    subst hq
    refine ⟨⟨hresp, hresp'⟩, ?_, hrefc⟩
    simp only [onProc, List.singleton_append, Caller.run_cons]
    rw [hheld, loopPost_lock2 rfl fun i hi => ((hl i).mp hi).1]
  | case3 need1 need2 k hk _ h1 h2 ih =>
    -- neither needs `k`
    rw [lockLoop, dif_pos hk, dif_neg h1]
    simp only [if_neg h2]
    have hk32 := lt_of_le_maxBit hk
    exact ih _ (loopInv_skip h ((lockBit_and_eq_zero hk32).mp (not_not.mp h1))
      ((lockBit_and_eq_zero hk32).mp (not_not.mp h2)))
  | case4 need1 need2 k hk =>
    -- past the last lock
    rw [lockLoop, dif_neg hk]
    obtain ⟨rfl, rfl⟩ := loopInv_done h (by omega)
    refine ⟨trivial, funext fun q => ?_, rfl⟩
    simp [loopPost]

end LockLoop

/-! ## Termination of the lock loop -/

/-- The locals of the lock loop of `proc_safelock`: `need_locks1`, `need_locks2` and `lock_no`. -/
structure LoopState where
  needLocks1 : ErtsProcLocks
  needLocks2 : ErtsProcLocks
  lockNo : Nat
  deriving DecidableEq, Repr

section Termination

variable (L : Layout)

/-- One iteration of the body of the lock loop, `while (lock_no <= ERTS_PROC_LOCK_MAX_BIT)`: the
`p1` branch, the `p2` branch, or `lock_no++`. -/
def loopBody (s : LoopState) : LoopState :=
  if s.needLocks1 &&& lockBit s.lockNo ≠ 0 then
    ⟨s.needLocks1 &&& ~~~(p1Step L s.needLocks1 s.needLocks2 s.lockNo).1, s.needLocks2,
      (p1Step L s.needLocks1 s.needLocks2 s.lockNo).2⟩
  else if s.needLocks2 &&& lockBit s.lockNo ≠ 0 then
    ⟨s.needLocks1, s.needLocks2 &&& ~~~(p2Step L s.needLocks1 s.needLocks2 s.lockNo).1,
      (p2Step L s.needLocks1 s.needLocks2 s.lockNo).2⟩
  else ⟨s.needLocks1, s.needLocks2, s.lockNo + 1⟩

/-- The measure of the lock loop, `2 * (F - lock_no) + [lock_no ∈ need_locks1]` with `F` the
number of locks. -/
def loopMeasure (s : LoopState) : Nat :=
  2 * (L.maxBit + 1 - s.lockNo) + (s.needLocks1.getLsbD s.lockNo).toNat

variable {L}

/-- `lockLoop` makes the calls of one iteration of `loopBody` and goes on from where it leaves. -/
theorem lockLoop_loopBody (p1 : Nat) (p2 : Option Nat) (s : LoopState)
    (hk : s.lockNo ≤ L.maxBit) :
    ∃ es, lockLoop L p1 p2 s.needLocks1 s.needLocks2 s.lockNo =
      es ++ lockLoop L p1 p2 (loopBody L s).needLocks1 (loopBody L s).needLocks2
        (loopBody L s).lockNo := by
  rw [lockLoop, dif_pos hk]
  unfold loopBody
  dsimp only
  split_ifs
  · exact ⟨[_], rfl⟩
  · exact ⟨_, rfl⟩
  · exact ⟨[], rfl⟩

/-- Each iteration decreases the measure. -/
theorem loopMeasure_loopBody (s : LoopState) (hk : s.lockNo ≤ L.maxBit) :
    loopMeasure L (loopBody L s) < loopMeasure L s := by
  unfold loopBody loopMeasure
  split_ifs with h1 h2
  · exact p1Step_dec hk h1
  · exact @p2Step_dec L s.needLocks1 s.needLocks2 s.lockNo hk (not_not.mp h1)
  · have := Bool.toNat_le (s.needLocks1.getLsbD (s.lockNo + 1))
    dsimp only
    omega

variable (L)

/-- The locks still needed lie from `lock_no` on, among the locks of the process. -/
def NeedsFrom (s : LoopState) : Prop :=
  ∀ i, (s.needLocks1 ||| s.needLocks2).getLsbD i → s.lockNo ≤ i ∧ i ≤ L.maxBit

variable {L}

theorem needsFrom_loopBody {s : LoopState} (hk : s.lockNo ≤ L.maxBit) (h : NeedsFrom L s) :
    NeedsFrom L (loopBody L s) := by
  have hk32 := lt_of_le_maxBit hk
  have h1 : ∀ i, s.needLocks1.getLsbD i → s.lockNo ≤ i ∧ i ≤ L.maxBit := fun i hi =>
    h i (by simp [hi])
  have h2 : ∀ i, s.needLocks2.getLsbD i → s.lockNo ≤ i ∧ i ≤ L.maxBit := fun i hi =>
    h i (by simp [hi])
  unfold loopBody NeedsFrom
  split_ifs with hn1 hn2 <;> intro i hi <;>
    simp only [BitVec.getLsbD_or, Bool.or_eq_true] at hi
  · -- the `p1` branch
    obtain ⟨j, -, -, hl, hfree2, hnext⟩ := p1Step_spec s.needLocks1 s.needLocks2 hk
    obtain ⟨g1, g2⟩ := needs_p1 h1 h2 hl hfree2 (hnext.imp_right fun h => ⟨h.1, h.2.1⟩)
    exact hi.elim (g1 i) (g2 i)
  · -- the `p2` branch
    obtain ⟨j, -, hnext, hl, hfree1⟩ :=
      p2Step_spec s.needLocks1 s.needLocks2 hk ((lockBit_and_eq_zero hk32).mp (not_not.mp hn1))
    obtain ⟨g1, g2⟩ := needs_p2 h1 h2 hl hfree1
    rw [hnext]
    exact hi.elim (g1 i) (g2 i)
  · -- neither needs `lock_no`
    exact hi.elim (needs_skip h1 ((lockBit_and_eq_zero hk32).mp (not_not.mp hn1)) i)
      (needs_skip h2 ((lockBit_and_eq_zero hk32).mp (not_not.mp hn2)) i)

/-- From masks needed from `lock_no` on, the loop leaves within `loopMeasure` iterations, with
nothing left to take. -/
theorem loopBody_exit (s : LoopState) (h : NeedsFrom L s) :
    ∃ n, n ≤ loopMeasure L s ∧ (∀ m < n, ((loopBody L)^[m] s).lockNo ≤ L.maxBit) ∧
      L.maxBit < ((loopBody L)^[n] s).lockNo ∧
      ((loopBody L)^[n] s).needLocks1 = 0 ∧ ((loopBody L)^[n] s).needLocks2 = 0 := by
  generalize hm : loopMeasure L s = m
  induction m using Nat.strong_induction_on generalizing s with
  | _ m ih =>
    by_cases hk : s.lockNo ≤ L.maxBit
    · obtain ⟨n, hn, hrun, hexit⟩ := ih _ (hm ▸ loopMeasure_loopBody s hk) (loopBody L s)
        (needsFrom_loopBody hk h) rfl
      refine ⟨n + 1, by have := loopMeasure_loopBody s hk; omega, fun i hi => ?_,
        by rwa [Function.iterate_succ_apply]⟩
      cases i with
      | zero => exact hk
      | succ i => rw [Function.iterate_succ_apply]; exact hrun i (by omega)
    · refine ⟨0, Nat.zero_le _, nofun, by simpa using hk,
        eq_zero_iff.mpr fun i => ?_, eq_zero_iff.mpr fun i => ?_⟩ <;>
      · refine Bool.eq_false_iff.mpr fun hi => ?_
        have := h i (by simp only [Function.iterate_zero, id_eq] at hi; simp [hi])
        omega

/-- After the `p1` branch, unless past the last lock, the loop is at the lock `j` it stopped on:
`p2` needs `j` and `p1` no longer does, so the next iteration takes the `p2` branch and moves past
`j`. -/
theorem loopBody_p1_back (s : LoopState) (hk : s.lockNo ≤ L.maxBit)
    (hn1 : s.needLocks1.getLsbD s.lockNo) (hj : (loopBody L s).lockNo ≤ L.maxBit) :
    (loopBody L s).needLocks1.getLsbD (loopBody L s).lockNo = false ∧
      (loopBody L s).needLocks2.getLsbD (loopBody L s).lockNo ∧
      (loopBody L s).lockNo < (loopBody L (loopBody L s)).lockNo := by
  obtain ⟨j, hkj, -, hl, -, hnext⟩ := p1Step_spec s.needLocks1 s.needLocks2 hk
  simp only [loopBody, if_pos ((lockBit_and_ne_zero (lt_of_le_maxBit hk)).mpr hn1)] at hj ⊢
  rcases hnext with ⟨hnext, hn2⟩ | ⟨hnext, -, rfl⟩
  · rw [hnext] at hj ⊢
    have hj32 := lt_of_le_maxBit hj
    have hn1' := getLsbD_and_not_of_imp fun hb => (hl j).mpr ⟨hb, hkj, le_rfl⟩
    refine ⟨hn1', hn2, ?_⟩
    obtain ⟨j', hjj', hnext', -⟩ := p2Step_spec _ s.needLocks2 hj hn1'
    rw [if_neg fun h => absurd ((lockBit_and_ne_zero hj32).mp h) (by simp [hn1']),
      if_pos ((lockBit_and_ne_zero hj32).mpr hn2), hnext']
    exact hjj'
  · rw [hnext] at hj; omega

/-- **The lock loop of `proc_safelock` terminates**: every iteration of its body decreases
`2 * (F - lock_no) + [lock_no ∈ need_locks1]`; where the `p1` branch steps `lock_no` back to the
lock it stopped on, it has taken that lock off `need_locks1` and `p2` needs it, so the next
iteration takes the `p2` branch and moves on; and from masks of locks of the process with
`lock_no` at or below the lowest lock in them, the loop leaves within that many iterations with
both masks empty. -/
theorem lockLoop_terminates (s : LoopState) (h1 : s.needLocks1 &&& ~~~L.all = 0)
    (h2 : s.needLocks2 &&& ~~~L.all = 0)
    (hk : ∀ i, (s.needLocks1 ||| s.needLocks2).getLsbD i → s.lockNo ≤ i) :
    (∀ s' : LoopState, s'.lockNo ≤ L.maxBit → loopMeasure L (loopBody L s') < loopMeasure L s') ∧
      (∀ s' : LoopState, s'.lockNo ≤ L.maxBit → s'.needLocks1.getLsbD s'.lockNo →
        (loopBody L s').lockNo ≤ L.maxBit →
          (loopBody L s').needLocks1.getLsbD (loopBody L s').lockNo = false ∧
          (loopBody L s').needLocks2.getLsbD (loopBody L s').lockNo ∧
          (loopBody L s').lockNo < (loopBody L (loopBody L s')).lockNo) ∧
      ∃ n, n ≤ loopMeasure L s ∧ (∀ m < n, ((loopBody L)^[m] s).lockNo ≤ L.maxBit) ∧
        L.maxBit < ((loopBody L)^[n] s).lockNo ∧
        ((loopBody L)^[n] s).needLocks1 = 0 ∧ ((loopBody L)^[n] s).needLocks2 = 0 := by
  refine ⟨loopMeasure_loopBody, loopBody_p1_back, loopBody_exit s fun i hi => ⟨hk i hi, ?_⟩⟩
  have hall : ∀ m : ErtsProcLocks, m &&& ~~~L.all = 0 → m.getLsbD i → i ≤ L.maxBit :=
    fun m hm hmi => by
      have := eq_zero_iff.mp hm i
      rw [getLsbD_and_not, hmi, Layout.getLsbD_all] at this
      simpa using this
  simp only [BitVec.getLsbD_or, Bool.or_eq_true] at hi
  exact hi.elim (hall _ h1) (hall _ h2)

theorem lockLoop_terminates_fiveLocks :
    (3 : ErtsProcLocks) &&& ~~~fiveLocks.all = 0 ∧ (4 : ErtsProcLocks) &&& ~~~fiveLocks.all = 0 ∧
      (∀ i, ((3 : ErtsProcLocks) ||| 4).getLsbD i → 0 ≤ i) ∧
      ((∀ s' : LoopState, s'.lockNo ≤ fiveLocks.maxBit →
          loopMeasure fiveLocks (loopBody fiveLocks s') < loopMeasure fiveLocks s') ∧
        (∀ s' : LoopState, s'.lockNo ≤ fiveLocks.maxBit → s'.needLocks1.getLsbD s'.lockNo →
          (loopBody fiveLocks s').lockNo ≤ fiveLocks.maxBit →
            (loopBody fiveLocks s').needLocks1.getLsbD (loopBody fiveLocks s').lockNo = false ∧
            (loopBody fiveLocks s').needLocks2.getLsbD (loopBody fiveLocks s').lockNo ∧
            (loopBody fiveLocks s').lockNo < (loopBody fiveLocks (loopBody fiveLocks s')).lockNo) ∧
        ∃ n, n ≤ loopMeasure fiveLocks ⟨3, 4, 0⟩ ∧
          (∀ m < n, ((loopBody fiveLocks)^[m] ⟨3, 4, 0⟩).lockNo ≤ fiveLocks.maxBit) ∧
          fiveLocks.maxBit < ((loopBody fiveLocks)^[n] ⟨3, 4, 0⟩).lockNo ∧
          ((loopBody fiveLocks)^[n] ⟨3, 4, 0⟩).needLocks1 = 0 ∧
          ((loopBody fiveLocks)^[n] ⟨3, 4, 0⟩).needLocks2 = 0) :=
  ⟨by decide, by decide, fun i _ => Nat.zero_le i,
    lockLoop_terminates ⟨3, 4, 0⟩ (by decide) (by decide) fun i _ => Nat.zero_le i⟩

end Termination

end ProcLock.LockLoop
