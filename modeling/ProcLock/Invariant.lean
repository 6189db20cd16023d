import ProcLock.Machine

/-! # The invariant of the lock machine

`Inv L s qs` holds of every reachable state, with `qs b` the waiters on lock `b` in queue order.
It says:

* lock flags and owners: the lock flag of `b` is set exactly when one thread holds `b`; a wait
  flag is set only with its lock flag;
* queues: each queue is a ring listing `qs b`, a waiter is on at most one queue, a queue is
  non-empty only with its wait flag, and a wait flag without a queue is one the pix holder has
  still to clear (`Pc.Pending`); a waiter on queue `b` needs `b` first;
* sleepers: a thread is on a queue, in the hands of `transfer_locks` (`Pc.flight`) or on a wake
  list (`Placed`) exactly while it sleeps in `wait_for_locks` with `uaflgs` set, and in one of
  these places only;
* requests: a thread in `erts_proc_lock` holds the part of its request below what it still
  needs (`Acquiring`);
* the pix holder, according to where it is (`ThreadInv`): `try_aquire` has taken the locks of
  `uflgs` below `lock_no`, and `transfer_locks` holds the locks it has still to hand over. -/

namespace ProcLock.Invariant

open Function ProcLock.Bits ProcLock.Queue ProcLock.Machine

/-! ## Requests -/

/-- Thread holding `held`, acquiring `locks`, still needs `need`: it holds the locks of `locks`
outside `need` and none of `need`, and `need` lies above the rest of `locks`. -/
structure Acquiring (held locks need : ErtsProcLocks) : Prop where
  sub : ∀ i, need.getLsbD i → locks.getLsbD i
  holds : ∀ i, locks.getLsbD i → need.getLsbD i = false → held.getLsbD i
  disj : ∀ i, need.getLsbD i → held.getLsbD i = false
  upper : ∀ i j, locks.getLsbD i → need.getLsbD i = false → need.getLsbD j → i < j

/-- The locks of `m` are locks of the process. -/
def InAll (L : Layout) (m : ErtsProcLocks) : Prop := ∀ i, m.getLsbD i → i ≤ L.maxBit

/-- The locks `try_aquire` of the pix holder has taken for `t`. -/
def flightGot (s : St) (t : Nat) : ErtsProcLocks :=
  match s.pix with
  | some r => (s.pc r).flightGot t
  | none => 0

/-- The request of a thread in `erts_proc_lock`: the locks asked for and those still needed. -/
def request (s : St) (t : Nat) : Option (ErtsProcLocks × ErtsProcLocks) :=
  match s.pc t with
  | .lockFailed locks needLocks _ _ _ => some (locks, needLocks)
  | .waitForLocks locks => some (locks, s.uflgs t)
  | .tryAquire (.waitForLocks locks) _ got _ => some (locks, s.uflgs t &&& ~~~got)
  | .tryAquireBand (.waitForLocks locks) _ got _ => some (locks, s.uflgs t &&& ~~~got)
  | .sleep locks _ => some (locks, s.uflgs t &&& ~~~flightGot s t)
  | _ => none

section Defs

variable (L : Layout) (s : St) (qs : Nat → List Nat)

/-- The wait flag of lock `b`. -/
def waitFlag (b : Nat) : Bool := s.flags.getLsbD (L.waiterShift + b)

/-- A sleeping thread is accounted for: on a queue, in the hands of `transfer_locks`, or on a
wake list. -/
def Placed (w : Nat) : Prop :=
  (∃ b, w ∈ qs b) ∨ (∃ r, (s.pc r).flight = some w) ∨ ∃ r, w ∈ (s.pc r).wake

/-- `transfer_locks` of `t` for `trnsfr_lcks`, with the locks below `lockNo` handed over and
`fl` the waiter it runs `try_aquire` for: it holds the locks still to hand over, each with its
wait flag and a waiter; the wait flags it will clear have no waiter, and their locks are held by
threads it has still to wake or that wait again. -/
structure TransferInv (t : Nat) (fl : Option Nat) (tr : ErtsProcLocks) (lockNo : Nat)
    (unsetWaiter : ErtsProcLocks) (wake : List Nat) : Prop where
  tr_all : InAll L tr
  ahead : ∀ b, tr.getLsbD b → lockNo ≤ b → (s.held t).getLsbD b ∧ waitFlag L s b ∧ qs b ≠ []
  unset : ∀ b, unsetWaiter.getLsbD b → b < lockNo ∧ waitFlag L s b ∧ qs b = [] ∧
    ∀ u, (s.held u).getLsbD b → fl = some u ∨ u ∈ wake ∨ ∃ c, u ∈ qs c
  lockNo_le : lockNo ≤ L.maxBit + 1

/-- `try_aquire` by `t` for `wtr`, at `lock_no`. -/
structure TryInv (t : Nat) (ret : Ret) (wtr : Nat) (lockNo : Nat) : Prop where
  pix : s.pix = some t
  lockNo_le : lockNo ≤ L.maxBit + 1
  ret : match ret with
    | .waitForLocks _ => wtr = t
    | .transferLocks tr n unsetWaiter wake =>
      (∀ i, (s.uflgs wtr).getLsbD i → n < i) ∧ TransferInv L s qs t (some wtr) tr (n + 1) unsetWaiter wake

/-- What holds of a thread, according to where it is. -/
def ThreadInv (t : Nat) : Pc → Prop
  | .waitForLocks _ => s.uflgs t ≠ 0
  | .tryAquire ret wtr got lockNo =>
    TryInv L s qs t ret wtr lockNo ∧ ∀ i, got.getLsbD i ↔ (s.uflgs wtr).getLsbD i ∧ i < lockNo
  | .tryAquireBand ret wtr got lockNo =>
    TryInv L s qs t ret wtr lockNo ∧ (∀ i, got.getLsbD i ↔ (s.uflgs wtr).getLsbD i ∧ i ≤ lockNo) ∧
      lockNo ≤ L.maxBit ∧ (s.uflgs wtr).getLsbD lockNo ∧ (s.held wtr).getLsbD lockNo ∧
      waitFlag L s lockNo ∧ qs lockNo = []
  | .unlockFailed waitLocks =>
    waitLocks ≠ 0 ∧ ∀ b, waitLocks.getLsbD b → (s.held t).getLsbD b ∧ waitFlag L s b
  | .transferLocks tr lockNo unsetWaiter wake =>
    s.pix = some t ∧ TransferInv L s qs t none tr lockNo unsetWaiter wake
  | .wakeClear wake => wake ≠ []
  | _ => True

end Defs

/-- Lock flags and owners. -/
structure OwnInv (L : Layout) (flags : ErtsProcLocks) (held : Nat → ErtsProcLocks) : Prop where
  flags_bits : ∀ i, flags.getLsbD i →
    i ≤ L.maxBit ∨ (L.waiterShift ≤ i ∧ i ≤ L.waiterShift + L.maxBit)
  held_all : ∀ t, InAll L (held t)
  flag_iff : ∀ b ≤ L.maxBit, flags.getLsbD b ↔ ∃ t, (held t).getLsbD b
  held_unique : ∀ b t u, (held t).getLsbD b → (held u).getLsbD b → t = u
  wait_flag : ∀ b, flags.getLsbD (L.waiterShift + b) → flags.getLsbD b

/-- The queues list `qs`, one waiter in one queue, each queue with its wait flag. -/
structure QueueInv (L : Layout) (wq : WaitQueues) (qs : Nat → List Nat) (wait : Nat → Bool) : Prop where
  ring : ∀ b, wq.Lists b (qs b)
  queue_le : ∀ b, qs b ≠ [] → b ≤ L.maxBit
  queue_disj : ∀ b c w, w ∈ qs b → w ∈ qs c → b = c
  queue_wait : ∀ b, qs b ≠ [] → wait b

/-- The sleepers and where they are. -/
structure PlaceInv (s : St) (qs : Nat → List Nat) : Prop where
  queued : ∀ b w, w ∈ qs b → IsLowest (s.uflgs w) b
  placed : ∀ w, Placed s qs w → (s.pc w).Sleeping ∧ s.uaflgs w = 1
  sleeping : ∀ w locks phase, s.pc w = .sleep locks phase →
    (s.uaflgs w = 1 ∧ Placed s qs w) ∨ (s.uaflgs w = 0 ∧ s.uflgs w = 0 ∧ ¬ Placed s qs w)
  wake_done : ∀ r w, w ∈ (s.pc r).wake → s.uflgs w = 0
  queued_flight : ∀ b w r, w ∈ qs b → (s.pc r).flight ≠ some w
  queued_wake : ∀ b w r, w ∈ qs b → w ∉ (s.pc r).wake
  flight_wake : ∀ r r' w, (s.pc r).flight = some w → w ∉ (s.pc r').wake
  wake_unique : ∀ r r' w, w ∈ (s.pc r).wake → w ∈ (s.pc r').wake → r = r'
  wake_nodup : ∀ r, ((s.pc r).wake).Nodup
  flight_need : ∀ r w, (s.pc r).flight = some w → s.uflgs w ≠ 0

/-- **The invariant** of the lock machine, with `qs b` the waiters on lock `b`. -/
structure Inv (L : Layout) (s : St) (qs : Nat → List Nat) : Prop where
  own : OwnInv L s.flags s.held
  queues : QueueInv L s.wq qs (waitFlag L s)
  places : PlaceInv s qs
  wait_queue : ∀ b ≤ L.maxBit, waitFlag L s b → qs b ≠ [] ∨ ∃ r, (s.pc r).Pending b
  acquiring : ∀ t locks need, request s t = some (locks, need) →
    InAll L locks ∧ Acquiring (s.held t) locks need
  pix_iff : ∀ r, s.pix = some r ↔ (s.pc r).InPix
  threads : ∀ t, ThreadInv L s qs t (s.pc t)

/-- What a step does to the queues: nothing, a waiter `w` joins the tail of queue `b`, or the
head `w` of queue `b` leaves it. -/
inductive QueueMove (qs : Nat → List Nat) : (Nat → List Nat) → Prop
  | keep : QueueMove qs qs
  | enqueue (b w : Nat) : QueueMove qs (update qs b (qs b ++ [w]))
  | dequeue (b w : Nat) (l : List Nat) : qs b = w :: l → QueueMove qs (update qs b l)

/-! ## The initial state -/

theorem inv_init (L : Layout) (creator : Nat) :
    Inv L (ertsProcLockInit L creator) (fun _ => []) where
  own :=
    { flags_bits := fun i h => by simp_all [ertsProcLockInit]
      held_all := fun t i h => by by_cases ht : t = creator <;> simp_all [ertsProcLockInit]
      flag_iff := fun b hb => by
        simp only [ertsProcLockInit, Layout.getLsbD_all, hb, decide_True, true_iff]
        exact ⟨creator, by simp [hb]⟩
      held_unique := fun b t u ht hu => by
        by_cases h1 : t = creator <;> by_cases h2 : u = creator <;> simp_all [ertsProcLockInit]
      wait_flag := fun b h => by
        have := L.maxBit_lt_waiterShift
        simp [ertsProcLockInit] at h; omega }
  queues :=
    { ring := fun _ => rfl
      queue_le := fun _ h => absurd rfl h
      queue_disj := fun _ _ w h => absurd h (List.not_mem_nil w)
      queue_wait := fun _ h => absurd rfl h }
  places :=
    { queued := fun _ w h => absurd h (List.not_mem_nil w)
      placed := fun w h => by simp [Placed, ertsProcLockInit, Pc.flight, Pc.wake] at h
      sleeping := fun w locks phase h => by simp [ertsProcLockInit] at h
      wake_done := fun r w h => by simp [ertsProcLockInit, Pc.wake] at h
      queued_flight := fun _ w _ h => absurd h (List.not_mem_nil w)
      queued_wake := fun _ w _ h => absurd h (List.not_mem_nil w)
      flight_wake := fun r r' w h => by simp [ertsProcLockInit, Pc.flight] at h
      wake_unique := fun r r' w h => by simp [ertsProcLockInit, Pc.wake] at h
      wake_nodup := fun r => by simp [ertsProcLockInit, Pc.wake]
      flight_need := fun r w h => by simp [ertsProcLockInit, Pc.flight] at h }
  wait_queue b _ h := by
    have := L.maxBit_lt_waiterShift
    simp [waitFlag, ertsProcLockInit] at h; omega
  acquiring t locks need h := by simp [request, ertsProcLockInit] at h
  pix_iff r := by simp [ertsProcLockInit, Pc.InPix]
  threads t := trivial

end ProcLock.Invariant
