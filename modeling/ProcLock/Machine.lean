import ProcLock.Bits
import ProcLock.Queue
import Mathlib.Logic.Relation

/-! # The lock of one process as a step machine

The state is the lock of one process (`lck->flags` and the wait queues), the `uflgs` and
`uaflgs` of the threads' thread-sleep events, the pix lock of the process, and where each thread is
in the lock code. A step is one atomic action of one thread:

* the fast paths of `erts_proc_lock`, `erts_proc_raw_trylock__` and `erts_proc_unlock`, which live
  in `erl_process_lock.h` (not among the sources) and are modelled as the spec describes them;
* one iteration of the spin loop of `erts_proc_lock_failed`: a read of the lock word, or a
  compare-and-exchange of it;
* taking the pix lock in `wait_for_locks` or `erts_proc_unlock_failed`;
* one iteration of the loops of `try_aquire` and of `transfer_locks`: each atomic `bor`/`band` of
  the lock word is a step of its own, together with the work under the pix lock around it, which
  no thread without the pix lock reads;
* one action of the wait loop of `wait_for_locks`, where `erts_tse_wait` may return at any time;
* one action of the wake-up loop of `transfer_locks`.

Since `erts_tse_wait` may return at any time, nothing reads the event that `erts_tse_set` and
`erts_tse_reset` write, and the state leaves it out; both remain steps of their loops.

`held t` is what thread `t` holds: the fast paths, a successful spin, a lock taken by
`try_aquire` for `wtr`, and a lock handed over by `transfer_locks` add to it; the unlock fast path
removes the locks it releases. Callers only lock locks they do not hold and unlock locks they
hold, which `step` takes as the guard of the fast paths. -/

namespace ProcLock.Machine

open Function ProcLock.Bits ProcLock.Queue

/-- Where `try_aquire` returns to. -/
inductive Ret where
  /-- `wait_for_locks` of the thread, which needs `locks`. -/
  | waitForLocks (locks : ErtsProcLocks)
  /-- The loop of `transfer_locks`, at `lock_no`. -/
  | transferLocks (trnsfrLcks : ErtsProcLocks) (lockNo : Nat) (unsetWaiter : ErtsProcLocks)
      (wake : List Nat)
  deriving DecidableEq, Repr

/-- The wait loop of `wait_for_locks`: before `erts_tse_reset`, before reading `uaflgs`, and in
`erts_tse_wait`. -/
inductive Phase where
  | reset
  | check
  | wait
  deriving DecidableEq, Repr

/-- Where a thread is in the lock code of the process. -/
inductive Pc where
  | idle
  /-- The spin loop of `erts_proc_lock_failed`. -/
  | lockFailed (locks needLocks olflgs : ErtsProcLocks) (thrSpinCount spinCount : Int)
  /-- `wait_for_locks`, before `erts_pix_lock`. -/
  | waitForLocks (locks : ErtsProcLocks)
  /-- The loop of `try_aquire` for `wtr`, at `lock_no`. -/
  | tryAquire (ret : Ret) (wtr : Nat) (gotLocks : ErtsProcLocks) (lockNo : Nat)
  /-- `try_aquire` got lock `lock_no` and has still to clear its wait flag. -/
  | tryAquireBand (ret : Ret) (wtr : Nat) (gotLocks : ErtsProcLocks) (lockNo : Nat)
  /-- The wait loop of `wait_for_locks`. -/
  | sleep (locks : ErtsProcLocks) (phase : Phase)
  /-- `erts_proc_unlock_failed`, before `erts_pix_lock`. -/
  | unlockFailed (waitLocks : ErtsProcLocks)
  /-- The loop of `transfer_locks`, at `lock_no`. -/
  | transferLocks (trnsfrLcks : ErtsProcLocks) (lockNo : Nat) (unsetWaiter : ErtsProcLocks)
      (wake : List Nat)
  /-- The wake-up loop of `transfer_locks`, before clearing `uaflgs` of the head of `wake`. -/
  | wakeClear (wake : List Nat)
  /-- The wake-up loop, before `erts_tse_set` of `wtr`. -/
  | wakeSet (wtr : Nat) (wake : List Nat)
  deriving DecidableEq, Repr

/-- The thread is in the loop of `try_aquire`. -/
def Pc.inTry : Pc → Bool
  | .tryAquire .. | .tryAquireBand .. => true
  | _ => false

/-- The lock of a process, the events of the threads, the pix lock, and the threads. -/
structure St where
  /-- `lck->flags` -/
  flags : ErtsProcLocks
  /-- `lck->queue[]` and the links of the events. -/
  wq : WaitQueues
  /-- `tse->uflgs`: the locks a waiter still needs. -/
  uflgs : Nat → ErtsProcLocks
  /-- `tse->uaflgs`: `1` while the waiter has not been woken. -/
  uaflgs : Nat → Nat
  /-- The thread holding the pix lock of the process. -/
  pix : Option Nat
  pc : Nat → Pc
  /-- The locks each thread holds. -/
  held : Nat → ErtsProcLocks

variable (L : Layout)

/-- `erts_proc_lock_init`: the creator holds all locks. -/
def ertsProcLockInit (creator : Nat) : St where
  flags := L.all
  wq := { queue := fun _ => none, next := id, prev := id }
  uflgs := fun _ => 0
  uaflgs := fun _ => 0
  pix := none
  pc := fun _ => .idle
  held := fun t => if t = creator then L.all else 0

/-! ## The fast paths -/

/-- Modelled from the spec: `erts_proc_lock` (`erl_process_lock.h`). The spec's fast path `bor`s
the lock flags of `locks` into the word; here it takes them all or none, by one compare-and-exchange
of the word from `0` to `locks`. `erts_proc_lock_failed`, which takes over when the fast path
fails, starts from `need_locks = locks` (`erl_process_lock.c`, line 483): a fast path that kept the
free locks of `locks` would leave its thread spinning for locks it already holds. When the word is
not `0` nothing changes, and `erts_proc_lock_failed` takes over with the value read. -/
def ertsProcLock (s : St) (t : Nat) (locks : ErtsProcLocks) (thrSpinCount : Int) : St :=
  if s.flags = 0 then { s with flags := locks, held := update s.held t (s.held t ||| locks) }
  else { s with pc := update s.pc t (.lockFailed locks locks s.flags thrSpinCount thrSpinCount) }

/-- Modelled from the spec: `erts_proc_raw_trylock__` (`erl_process_lock.h`). The spec's trylock
is a `bor`; here it takes the locks all or none: it sets the lock flags of `locks` when none of them
is set, and otherwise changes nothing (`EBUSY`). `erts_pid2proc_opt` needs that: on `EBUSY` it
returns `ERTS_PROC_LOCK_BUSY`, or calls `proc_safelock` as holding none of the locks of the
process it looks up (`erl_process_lock.c`, lines 929-961). -/
def ertsProcRawTrylock (s : St) (t : Nat) (locks : ErtsProcLocks) : St :=
  if s.flags &&& locks = 0 then
    { s with flags := s.flags ||| locks, held := update s.held t (s.held t ||| locks) }
  else s

/-- Modelled from the spec: `erts_proc_unlock` (`erl_process_lock.h`). One atomic step, the
spec's `band` with the complement of the locks of `locks` whose wait flag is clear, clears their lock
flags; `erts_proc_unlock_failed` transfers the others. -/
def ertsProcUnlock (s : St) (t : Nat) (locks : ErtsProcLocks) : St :=
  let waitLocks := (s.flags >>> L.waiterShift) &&& locks
  let wantLflgs := s.flags &&& (waitLocks ||| ~~~locks)
  { s with flags := wantLflgs,
           held := update s.held t (s.held t &&& ~~~(locks &&& ~~~waitLocks)),
           pc := if wantLflgs &&& locks ≠ 0 then update s.pc t (.unlockFailed (wantLflgs &&& locks))
                 else s.pc }

/-! ## The slow paths -/

/-- One iteration of the spin loop of `erts_proc_lock_failed`. When `spin_count` runs out,
`wait_for_locks` fetches the event and records the locks still needed in `uflgs`. -/
def lockFailedStep (s : St) (t : Nat) (locks needLocks olflgs : ErtsProcLocks)
    (thrSpinCount spinCount : Int) : St :=
  if needLocks = 0 then { s with pc := update s.pc t .idle }
  else
    let canGrab := inOrderLocks olflgs needLocks
    if canGrab = 0 then
      if spinCount ≤ 0 then
        { s with uflgs := update s.uflgs t needLocks, pc := update s.pc t (.waitForLocks locks) }
      else { s with pc := update s.pc t (.lockFailed locks needLocks s.flags thrSpinCount (spinCount - 1)) }
    else
      let grabbed := olflgs ||| canGrab
      if s.flags = olflgs then
        { s with flags := grabbed, held := update s.held t (s.held t ||| canGrab),
                 pc := update s.pc t (.lockFailed locks (needLocks &&& ~~~canGrab) grabbed
                   thrSpinCount thrSpinCount) }
      else { s with pc := update s.pc t (.lockFailed locks needLocks s.flags thrSpinCount spinCount) }

section LockFailedStep

variable {s : St} {t : Nat} {locks need o : ErtsProcLocks} {k k' : Int}

/-- **One iteration of the spin loop**: it returns with nothing left to take; goes to
`wait_for_locks` when it can grab nothing and the spin count has run out; spins again when it can
grab nothing, or when the compare-and-exchange fails; or grabs the locks `in_order_locks` allows. -/
theorem lockFailedStep_cases :
    (need = 0 ∧ lockFailedStep s t locks need o k k' = { s with pc := update s.pc t .idle }) ∨
    (need ≠ 0 ∧ inOrderLocks o need = 0 ∧ k' ≤ 0 ∧
      lockFailedStep s t locks need o k k' =
        { s with uflgs := update s.uflgs t need, pc := update s.pc t (.waitForLocks locks) }) ∨
    (need ≠ 0 ∧ inOrderLocks o need = 0 ∧ ¬ k' ≤ 0 ∧
      lockFailedStep s t locks need o k k' =
        { s with pc := update s.pc t (.lockFailed locks need s.flags k (k' - 1)) }) ∨
    (need ≠ 0 ∧ inOrderLocks o need ≠ 0 ∧ s.flags = o ∧
      lockFailedStep s t locks need o k k' =
        { s with
          flags := o ||| inOrderLocks o need
          held := update s.held t (s.held t ||| inOrderLocks o need)
          pc := update s.pc t
            (.lockFailed locks (need &&& ~~~inOrderLocks o need) (o ||| inOrderLocks o need) k k) }) ∨
    (need ≠ 0 ∧ inOrderLocks o need ≠ 0 ∧ s.flags ≠ o ∧
      lockFailedStep s t locks need o k k' =
        { s with pc := update s.pc t (.lockFailed locks need s.flags k k') }) := by
  unfold lockFailedStep
  dsimp only
  split_ifs with h0 hg hk hcas
  · exact .inl ⟨h0, rfl⟩
  · exact .inr (.inl ⟨h0, hg, hk, rfl⟩)
  · exact .inr (.inr (.inl ⟨h0, hg, hk, rfl⟩))
  · exact .inr (.inr (.inr (.inl ⟨h0, hg, hcas, rfl⟩)))
  · exact .inr (.inr (.inr (.inr ⟨h0, hg, hcas, rfl⟩)))

end LockFailedStep

/-- The end of `try_aquire` (`wtr->uflgs &= ~got_locks`) and the rest of its caller up to the
next atomic action: `wait_for_locks` releases the pix lock and returns or goes to sleep;
`transfer_locks` puts `wtr` on its wake list if it needs no more locks, and moves on. -/
def tryAquireDone (s : St) (t : Nat) (ret : Ret) (wtr : Nat) (gotLocks : ErtsProcLocks) : St :=
  let uf := s.uflgs wtr &&& ~~~gotLocks
  let s := { s with uflgs := update s.uflgs wtr uf }
  match ret with
  | .waitForLocks locks =>
    if uf = 0 then { s with pix := none, pc := update s.pc t .idle }
    else { s with uaflgs := update s.uaflgs wtr 1, pix := none,
                  pc := update s.pc t (.sleep locks .reset) }
  | .transferLocks tr lockNo unsetWaiter wake =>
    let wake := if uf = 0 then wtr :: wake else wake
    { s with pc := update s.pc t (.transferLocks tr (lockNo + 1) unsetWaiter wake) }

section TryAquireDone

variable {s : St} {t wtr : Nat} {got : ErtsProcLocks}

theorem tryAquireDone_waitForLocks_zero {locks : ErtsProcLocks} (h : s.uflgs wtr &&& ~~~got = 0) :
    tryAquireDone s t (.waitForLocks locks) wtr got =
      { s with uflgs := update s.uflgs wtr 0, pix := none, pc := update s.pc t .idle } := by
  simp [tryAquireDone, h]

theorem tryAquireDone_waitForLocks {locks : ErtsProcLocks} (h : s.uflgs wtr &&& ~~~got ≠ 0) :
    tryAquireDone s t (.waitForLocks locks) wtr got =
      { s with uflgs := update s.uflgs wtr (s.uflgs wtr &&& ~~~got),
               uaflgs := update s.uaflgs wtr 1, pix := none,
               pc := update s.pc t (.sleep locks .reset) } := by
  simp only [tryAquireDone, if_neg h]

theorem tryAquireDone_transferLocks_zero {tr U : ErtsProcLocks} {m : Nat} {wake : List Nat}
    (h : s.uflgs wtr &&& ~~~got = 0) :
    tryAquireDone s t (.transferLocks tr m U wake) wtr got =
      { s with uflgs := update s.uflgs wtr 0,
               pc := update s.pc t (.transferLocks tr (m + 1) U (wtr :: wake)) } := by
  simp [tryAquireDone, h]

theorem tryAquireDone_transferLocks {tr U : ErtsProcLocks} {m : Nat} {wake : List Nat}
    (h : s.uflgs wtr &&& ~~~got ≠ 0) :
    tryAquireDone s t (.transferLocks tr m U wake) wtr got =
      { s with uflgs := update s.uflgs wtr (s.uflgs wtr &&& ~~~got),
               pc := update s.pc t (.transferLocks tr (m + 1) U wake) } := by
  simp only [tryAquireDone, if_neg h]

/-- `try_aquire` ends the same wherever its own program counter stood. -/
theorem tryAquireDone_setPc {ret : Ret} (p : Pc) :
    tryAquireDone { s with pc := update s.pc t p } t ret wtr got = tryAquireDone s t ret wtr got := by
  cases ret <;> simp [tryAquireDone]

/-- The end of `try_aquire` moves no lock and touches no queue. -/
theorem tryAquireDone_held {ret : Ret} : (tryAquireDone s t ret wtr got).held = s.held := by
  cases ret with
  | waitForLocks => simp only [tryAquireDone]; split_ifs <;> rfl
  | transferLocks => rfl

theorem tryAquireDone_wq {ret : Ret} : (tryAquireDone s t ret wtr got).wq = s.wq := by
  cases ret with
  | waitForLocks => simp only [tryAquireDone]; split_ifs <;> rfl
  | transferLocks => rfl

@[simp] theorem tryAquireDone_flags {ret : Ret} : (tryAquireDone s t ret wtr got).flags = s.flags := by
  cases ret with
  | waitForLocks => simp only [tryAquireDone]; split_ifs <;> rfl
  | transferLocks => rfl

@[simp] theorem tryAquireDone_uflgs {ret : Ret} :
    (tryAquireDone s t ret wtr got).uflgs wtr = s.uflgs wtr &&& ~~~got := by
  cases ret with
  | waitForLocks => simp only [tryAquireDone]; split_ifs <;> simp
  | transferLocks => simp [tryAquireDone]

/-- The caller goes on outside the loop. -/
theorem tryAquireDone_inTry {ret : Ret} : ((tryAquireDone s t ret wtr got).pc t).inTry = false := by
  cases ret with
  | waitForLocks => simp only [tryAquireDone]; split_ifs <;> simp [Pc.inTry]
  | transferLocks => simp [tryAquireDone, Pc.inTry]

end TryAquireDone

/-- One iteration of the loop of `try_aquire`. -/
def tryAquireStep (s : St) (t : Nat) (ret : Ret) (wtr : Nat) (gotLocks : ErtsProcLocks)
    (lockNo : Nat) : St :=
  if L.maxBit < lockNo then tryAquireDone s t ret wtr gotLocks
  else
    let lock := lockBit lockNo
    if s.uflgs wtr &&& lock = 0 then { s with pc := update s.pc t (.tryAquire ret wtr gotLocks (lockNo + 1)) }
    else if (s.wq.queue lockNo).isSome then
      tryAquireDone { s with wq := s.wq.enqueueWaiter lockNo wtr } t ret wtr gotLocks
    else
      let wflg := lock <<< L.waiterShift
      let oldLflgs := s.flags
      let s := { s with flags := s.flags ||| (wflg ||| lock) }
      if oldLflgs &&& lock ≠ 0 then
        tryAquireDone { s with wq := s.wq.enqueueWaiter lockNo wtr } t ret wtr gotLocks
      else { s with held := update s.held wtr (s.held wtr ||| lock),
                    pc := update s.pc t (.tryAquireBand ret wtr (gotLocks ||| lock) lockNo) }

/-- `try_aquire` clears the wait flag of the lock it got, and stops when it has all. -/
def tryAquireBandStep (s : St) (t : Nat) (ret : Ret) (wtr : Nat) (gotLocks : ErtsProcLocks)
    (lockNo : Nat) : St :=
  let s := { s with flags := s.flags &&& ~~~(lockBit lockNo <<< L.waiterShift) }
  if gotLocks = s.uflgs wtr then tryAquireDone s t ret wtr gotLocks
  else { s with pc := update s.pc t (.tryAquire ret wtr gotLocks (lockNo + 1)) }

section TryAquireStep

variable {L} {s : St} {t wtr : Nat} {ret : Ret} {got : ErtsProcLocks} {k : Nat}

/-- Past the last lock, `try_aquire` ends. -/
theorem tryAquireStep_of_lt (hk : L.maxBit < k) :
    tryAquireStep L s t ret wtr got k = tryAquireDone s t ret wtr got := if_pos hk

/-- **One iteration of `try_aquire`** at lock `k`: it passes a lock `wtr` does not need; queues
`wtr` behind the waiters of the lock; queues it after a `bor` that found the lock taken; or, the
`bor` having found it free, takes it and goes on to the `band`. -/
theorem tryAquireStep_cases (hk : k ≤ L.maxBit) :
    ((s.uflgs wtr).getLsbD k = false ∧
      tryAquireStep L s t ret wtr got k =
        { s with pc := update s.pc t (.tryAquire ret wtr got (k + 1)) }) ∨
    ((s.uflgs wtr).getLsbD k ∧ s.wq.queue k ≠ none ∧
      tryAquireStep L s t ret wtr got k =
        tryAquireDone { s with wq := s.wq.enqueueWaiter k wtr } t ret wtr got) ∨
    ((s.uflgs wtr).getLsbD k ∧ s.wq.queue k = none ∧ s.flags.getLsbD k ∧
      tryAquireStep L s t ret wtr got k =
        tryAquireDone
          { s with
            flags := s.flags ||| (lockBit k <<< L.waiterShift ||| lockBit k)
            wq := s.wq.enqueueWaiter k wtr } t ret wtr got) ∨
    ((s.uflgs wtr).getLsbD k ∧ s.wq.queue k = none ∧ s.flags.getLsbD k = false ∧
      tryAquireStep L s t ret wtr got k =
        { s with
          flags := s.flags ||| (lockBit k <<< L.waiterShift ||| lockBit k)
          held := update s.held wtr (s.held wtr ||| lockBit k)
          pc := update s.pc t (.tryAquireBand ret wtr (got ||| lockBit k) k) }) := by
  have hk32 := lt_of_le_maxBit hk
  unfold tryAquireStep
  rw [if_neg (by omega)]
  dsimp only
  by_cases hu : (s.uflgs wtr).getLsbD k
  · rw [if_neg fun h => (lockBit_and_ne_zero hk32).mpr hu h]
    cases hq : s.wq.queue k with
    | some _ => exact .inr (.inl ⟨hu, nofun, rfl⟩)
    | none =>
      rw [if_neg (by simp)]
      by_cases hf : s.flags.getLsbD k
      · rw [if_pos ((lockBit_and_ne_zero hk32).mpr hf)]
        exact .inr (.inr (.inl ⟨hu, rfl, hf, rfl⟩))
      · rw [if_neg fun h => hf ((lockBit_and_ne_zero hk32).mp h)]
        exact .inr (.inr (.inr ⟨hu, rfl, by simpa using hf, rfl⟩))
  · have hu := Bool.eq_false_iff.mpr hu
    rw [if_pos ((lockBit_and_eq_zero hk32).mpr hu)]
    exact .inl ⟨hu, rfl⟩

/-- The `band` of `try_aquire` clears the wait flag of lock `k`, and ends `try_aquire` when `wtr`
has all it needs; otherwise the loop goes on at the next lock. -/
theorem tryAquireBandStep_cases :
    (got = s.uflgs wtr ∧ tryAquireBandStep L s t ret wtr got k =
      tryAquireDone { s with flags := s.flags &&& ~~~(lockBit k <<< L.waiterShift) } t ret wtr got) ∨
    (got ≠ s.uflgs wtr ∧ tryAquireBandStep L s t ret wtr got k =
      { s with
        flags := s.flags &&& ~~~(lockBit k <<< L.waiterShift)
        pc := update s.pc t (.tryAquire ret wtr got (k + 1)) }) := by
  by_cases h : got = s.uflgs wtr
  · exact .inl ⟨h, if_pos h⟩
  · exact .inr ⟨h, if_neg h⟩

end TryAquireStep

/-- One iteration of the loop of `transfer_locks`, and its end: the wait flags of the queues it
emptied are cleared and the pix lock released. `none` where `dequeue_waiter` would meet an empty
queue. -/
def transferLocksStep (s : St) (t : Nat) (tr : ErtsProcLocks) (lockNo : Nat)
    (unsetWaiter : ErtsProcLocks) (wake : List Nat) : Option St :=
  if tr = 0 ∨ L.maxBit < lockNo then
    let flags := if unsetWaiter ≠ 0 then s.flags &&& ~~~(unsetWaiter <<< L.waiterShift) else s.flags
    some { s with flags := flags, pix := none,
                  pc := update s.pc t (if wake = [] then .idle else .wakeClear wake) }
  else
    let lock := lockBit lockNo
    if tr &&& lock = 0 then some { s with pc := update s.pc t (.transferLocks tr (lockNo + 1) unsetWaiter wake) }
    else match s.wq.dequeueWaiter lockNo with
      | none => none
      | some (wq, wtr) =>
        let unsetWaiter := if wq.queue lockNo = none then unsetWaiter ||| lock else unsetWaiter
        let uf := s.uflgs wtr &&& ~~~lock
        let s := { s with wq := wq, uflgs := update s.uflgs wtr uf,
                          held := update (update s.held t (s.held t &&& ~~~lock)) wtr (s.held wtr ||| lock) }
        if uf ≠ 0 then some { s with pc := update s.pc t (.tryAquire (.transferLocks tr lockNo unsetWaiter wake) wtr 0 0) }
        else some { s with pc := update s.pc t (.transferLocks tr (lockNo + 1) unsetWaiter (wtr :: wake)) }

section TransferLocksStep

variable {L} {s : St} {t n : Nat} {tr U : ErtsProcLocks} {wake : List Nat}

/-- **One iteration of `transfer_locks`**, or its end: past the last lock or with nothing left to
hand over it clears the wait flags of `unset_waiter` and releases the pix lock; it passes a lock
it does not hand over; `dequeue_waiter` fails on an empty queue; or it hands the lock to the head
`w` of its queue, and runs `try_aquire` for `w` when `w` needs more. -/
theorem transferLocksStep_cases :
    ((tr = 0 ∨ L.maxBit < n) ∧
      transferLocksStep L s t tr n U wake =
        some { s with flags := s.flags &&& ~~~(U <<< L.waiterShift), pix := none,
                      pc := update s.pc t (if wake = [] then .idle else .wakeClear wake) }) ∨
    (¬ (tr = 0 ∨ L.maxBit < n) ∧ tr.getLsbD n = false ∧
      transferLocksStep L s t tr n U wake =
        some { s with pc := update s.pc t (.transferLocks tr (n + 1) U wake) }) ∨
    (¬ (tr = 0 ∨ L.maxBit < n) ∧ tr.getLsbD n ∧ s.wq.dequeueWaiter n = none ∧
      transferLocksStep L s t tr n U wake = none) ∨
    (¬ (tr = 0 ∨ L.maxBit < n) ∧ tr.getLsbD n ∧ ∃ wq w, s.wq.dequeueWaiter n = some (wq, w) ∧
      transferLocksStep L s t tr n U wake =
        some
          { s with
            wq := wq
            uflgs := update s.uflgs w (s.uflgs w &&& ~~~lockBit n)
            held := update (update s.held t (s.held t &&& ~~~lockBit n)) w (s.held w ||| lockBit n)
            pc := update s.pc t (if s.uflgs w &&& ~~~lockBit n ≠ 0
              then .tryAquire
                (.transferLocks tr n (if wq.queue n = none then U ||| lockBit n else U) wake) w 0 0
              else .transferLocks tr (n + 1) (if wq.queue n = none then U ||| lockBit n else U)
                (w :: wake)) }) := by
  unfold transferLocksStep
  by_cases hexit : tr = 0 ∨ L.maxBit < n
  · rw [if_pos hexit]
    refine .inl ⟨hexit, ?_⟩
    by_cases h0 : U = 0
    · have h00 : (0 : ErtsProcLocks) <<< L.waiterShift = 0 := BitVec.zero_shiftLeft _
      rw [if_neg (not_not.mpr h0), h0, h00, and_not_zero]
    · rw [if_pos h0]
  rw [if_neg hexit]
  have hn32 : n < 32 := lt_of_le_maxBit (Nat.not_lt.mp (not_or.mp hexit).2)
  dsimp only
  by_cases hbit : tr.getLsbD n
  · rw [if_neg fun h => (lockBit_and_ne_zero hn32).mpr hbit h]
    cases hdq : s.wq.dequeueWaiter n with
    | none => exact .inr (.inr (.inl ⟨hexit, hbit, rfl, rfl⟩))
    | some p =>
      refine .inr (.inr (.inr ⟨hexit, hbit, p.1, p.2, rfl, ?_⟩))
      dsimp only
      split_ifs <;> rfl
  · have hbit := Bool.eq_false_iff.mpr hbit
    rw [if_pos ((lockBit_and_eq_zero hn32).mpr hbit)]
    exact .inr (.inl ⟨hexit, hbit, rfl⟩)

end TransferLocksStep

/-- One action of the wait loop of `wait_for_locks`; `erts_tse_wait` may return at any time. -/
def sleepStep (s : St) (t : Nat) (locks : ErtsProcLocks) : Phase → St
  | .reset => { s with pc := update s.pc t (.sleep locks .check) }
  | .check =>
    if s.uaflgs t = 0 then { s with pc := update s.pc t .idle }
    else { s with pc := update s.pc t (.sleep locks .wait) }
  | .wait => { s with pc := update s.pc t (.sleep locks .reset) }

/-- The wait loop moves no lock and touches no queue. -/
theorem sleepStep_wq_held (s : St) (t : Nat) (locks : ErtsProcLocks) (phase : Phase) :
    (sleepStep s t locks phase).wq = s.wq ∧ (sleepStep s t locks phase).held = s.held := by
  cases phase with
  | check => unfold sleepStep; split_ifs <;> exact ⟨rfl, rfl⟩
  | reset | wait => exact ⟨rfl, rfl⟩

/-- The next atomic action of a thread in the slow paths. -/
def run (s : St) (t : Nat) : Pc → Option St
  | .idle => none
  | .lockFailed locks needLocks olflgs thrSpinCount spinCount =>
    some (lockFailedStep s t locks needLocks olflgs thrSpinCount spinCount)
  | .waitForLocks locks =>
    if s.pix = none then some { s with pix := some t, pc := update s.pc t (.tryAquire (.waitForLocks locks) t 0 0) }
    else none
  | .tryAquire ret wtr gotLocks lockNo => some (tryAquireStep L s t ret wtr gotLocks lockNo)
  | .tryAquireBand ret wtr gotLocks lockNo => some (tryAquireBandStep L s t ret wtr gotLocks lockNo)
  | .sleep locks phase => some (sleepStep s t locks phase)
  | .unlockFailed waitLocks =>
    if s.pix = none then some { s with pix := some t, pc := update s.pc t (.transferLocks waitLocks 0 0 []) }
    else none
  | .transferLocks tr lockNo unsetWaiter wake => transferLocksStep L s t tr lockNo unsetWaiter wake
  | .wakeClear [] => none
  | .wakeClear (wtr :: wake) =>
    some { s with uaflgs := update s.uaflgs wtr 0, pc := update s.pc t (.wakeSet wtr wake) }
  | .wakeSet _ wake => some { s with pc := update s.pc t (if wake = [] then .idle else .wakeClear wake) }

/-- The actions of a thread: a call of a fast path, or the next action of its slow path. -/
inductive Act where
  | lock (t : Nat) (locks : ErtsProcLocks)
  | trylock (t : Nat) (locks : ErtsProcLocks)
  | unlock (t : Nat) (locks : ErtsProcLocks)
  | run (t : Nat)
  deriving DecidableEq, Repr

/-- The thread taking an action. -/
def Act.thread : Act → Nat
  | .lock t _ | .trylock t _ | .unlock t _ | .run t => t

/-- One step. A fast path is called by a thread outside the lock code, on locks of the process
(`ERTS_PROC_LOCKS_ALL`) it does not hold, or for `unlock` on locks it holds. `thrSpinCount t` is
the spin count of thread `t` (`proc_lock_spin_count` or `aux_thr_proc_lock_spin_count`). -/
def step (thrSpinCount : Nat → Int) (s : St) : Act → Option St
  | .lock t locks =>
    if s.pc t = .idle ∧ locks &&& ~~~L.all = 0 ∧ locks &&& s.held t = 0 then
      some (ertsProcLock s t locks (thrSpinCount t))
    else none
  | .trylock t locks =>
    if s.pc t = .idle ∧ locks &&& ~~~L.all = 0 ∧ locks &&& s.held t = 0 then
      some (ertsProcRawTrylock s t locks)
    else none
  | .unlock t locks =>
    if s.pc t = .idle ∧ locks &&& ~~~s.held t = 0 then some (ertsProcUnlock L s t locks) else none
  | .run t => run L s t (s.pc t)

/-- `s'` follows `s` by one step. -/
def Step (thrSpinCount : Nat → Int) (s s' : St) : Prop := ∃ a, step L thrSpinCount s a = some s'

/-- The states reachable from `erts_proc_lock_init`. -/
def Reachable (thrSpinCount : Nat → Int) (creator : Nat) (s : St) : Prop :=
  Relation.ReflTransGen (Step L thrSpinCount) (ertsProcLockInit L creator) s

/-! ## Views of the program counter -/

/-- The wake list of `transfer_locks`. -/
def Ret.wake : Ret → List Nat
  | .waitForLocks _ => []
  | .transferLocks _ _ _ wake => wake

/-- The wait flags `transfer_locks` will clear. -/
def Ret.unset : Ret → ErtsProcLocks
  | .waitForLocks _ => 0
  | .transferLocks _ _ unsetWaiter _ => unsetWaiter

/-- The wake list a thread has built in `transfer_locks` and not yet signalled. -/
def Pc.wake : Pc → List Nat
  | .tryAquire ret _ _ _ => ret.wake
  | .tryAquireBand ret _ _ _ => ret.wake
  | .transferLocks _ _ _ wake => wake
  | .wakeClear wake => wake
  | .wakeSet _ wake => wake
  | _ => []

/-- The waiter `transfer_locks` runs `try_aquire` for. -/
def Pc.flight : Pc → Option Nat
  | .tryAquire (.transferLocks ..) wtr _ _ => some wtr
  | .tryAquireBand (.transferLocks ..) wtr _ _ => some wtr
  | _ => none

/-- The thread is in `try_aquire` or the loop of `transfer_locks`, under the pix lock. -/
def Pc.InPix : Pc → Prop
  | .tryAquire .. => True
  | .tryAquireBand .. => True
  | .transferLocks .. => True
  | _ => False

/-- The wait flag of `b` is set with no waiter behind it: `try_aquire` has just got `b`, or
`transfer_locks` has emptied the queue of `b`. -/
def Pc.Pending : Pc → Nat → Prop
  | .tryAquire ret _ _ _, b => ret.unset.getLsbD b
  | .tryAquireBand ret _ _ lockNo, b => b = lockNo ∨ ret.unset.getLsbD b
  | .transferLocks _ _ unsetWaiter _, b => unsetWaiter.getLsbD b
  | _, _ => False

/-- The locks `try_aquire` has taken so far for `t`, when it runs for `t` in `transfer_locks`. -/
def Pc.flightGot : Pc → Nat → ErtsProcLocks
  | .tryAquire (.transferLocks ..) wtr got _, t => if wtr = t then got else 0
  | .tryAquireBand (.transferLocks ..) wtr got _, t => if wtr = t then got else 0
  | _, _ => 0

/-- The thread is outside the pix lock and does not sleep: idle, spinning, or waiting for the pix
lock. -/
def Pc.Quiet : Pc → Prop
  | .idle => True
  | .lockFailed .. => True
  | .waitForLocks _ => True
  | .unlockFailed _ => True
  | _ => False

/-- The thread sleeps in `wait_for_locks`. -/
def Pc.Sleeping : Pc → Prop
  | .sleep .. => True
  | _ => False

/-- The locks a thread in `erts_proc_lock` asks for. -/
def Pc.asking : Pc → Option ErtsProcLocks
  | .lockFailed locks .. => some locks
  | .waitForLocks locks => some locks
  | .tryAquire (.waitForLocks locks) .. => some locks
  | .tryAquireBand (.waitForLocks locks) .. => some locks
  | .sleep locks _ => some locks
  | _ => none

theorem Pc.Quiet.flight {p : Pc} (h : p.Quiet) : p.flight = none := by
  cases p <;> simp_all [Pc.Quiet, Pc.flight]

theorem Pc.Quiet.wake {p : Pc} (h : p.Quiet) : p.wake = [] := by
  cases p <;> simp_all [Pc.Quiet, Pc.wake]

theorem Pc.Quiet.not_pending {p : Pc} (h : p.Quiet) (b : Nat) : ¬ p.Pending b := by
  cases p <;> simp_all [Pc.Quiet, Pc.Pending]

theorem Pc.Quiet.not_inPix {p : Pc} (h : p.Quiet) : ¬ p.InPix := by
  cases p <;> simp_all [Pc.Quiet, Pc.InPix]

theorem Pc.Quiet.not_sleeping {p : Pc} (h : p.Quiet) : ¬ p.Sleeping := by
  cases p <;> simp_all [Pc.Quiet, Pc.Sleeping]

theorem Pc.Pending.inPix {p : Pc} {b : Nat} (h : p.Pending b) : p.InPix := by
  cases p <;> simp_all [Pc.Pending, Pc.InPix]

theorem Pc.inPix_of_flight {p : Pc} {w : Nat} (h : p.flight = some w) : p.InPix := by
  cases p with
  | tryAquire ret _ _ _ => trivial
  | tryAquireBand ret _ _ _ => trivial
  | _ => simp [Pc.flight] at h

theorem Pc.InPix.not_sleeping {p : Pc} (h : p.InPix) : ¬ p.Sleeping := by
  cases p <;> simp_all [Pc.InPix, Pc.Sleeping]

theorem Pc.sleeping_iff {p : Pc} : p.Sleeping ↔ ∃ locks phase, p = .sleep locks phase := by
  cases p <;> simp [Pc.Sleeping]

end ProcLock.Machine
