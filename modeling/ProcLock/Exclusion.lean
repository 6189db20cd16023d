import ProcLock.Step

/-! # Mutual exclusion and the queues

What every reachable state of the lock of one process looks like, read off the invariant:

* `mutual_exclusion`: a lock has one owner at most, its lock flag is set exactly when it has
  one, and the owned locks are locks of the process;
* `queue_parity`: a wait flag is set only with its lock flag; outside `try_aquire` and
  `transfer_locks` the queues are well-formed rings, non-empty exactly where the wait flag is set,
  their waiters parked with the lock of the queue the lowest they still need; and
  `transfer_locks` finds a waiter on the queue of every lock it has to hand over, so
  `dequeue_waiter` never meets an empty queue. -/

namespace ProcLock.Exclusion

open Function ProcLock.Bits ProcLock.Queue ProcLock.Machine ProcLock.Invariant ProcLock.Frame
open ProcLock.Transfer ProcLock.Step

variable {L : Layout} {c : Nat → Int} {s : St} {creator : Nat}

/-! ## Mutual exclusion -/

/-- Each lock has one owner at most, the lock flags are set exactly for the owned locks, and the
owned locks are locks of the process. -/
def Exclusive (L : Layout) (s : St) : Prop :=
  (∀ b t u, (s.held t).getLsbD b → (s.held u).getLsbD b → t = u) ∧
  (∀ b ≤ L.maxBit, s.flags.getLsbD b ↔ ∃ t, (s.held t).getLsbD b) ∧
  ∀ t b, (s.held t).getLsbD b → b ≤ L.maxBit

/-- **Mutual exclusion**, the lock flags accounting exactly for the owners. -/
theorem mutual_exclusion (h : Reachable L c creator s) : Exclusive L s := by
  obtain ⟨qs, hi⟩ := inv_reachable h
  exact ⟨hi.own.held_unique, hi.own.flag_iff, hi.own.held_all⟩

/-- Three owners: the creator unlocks lock `4`, which thread `2` takes in the spin loop, and
lock `0`, which `transfer_locks` hands to thread `1`, asleep on its queue. -/
theorem mutual_exclusion_owners :
    ∃ s, runActs fiveLocks (fun _ => 0) (ertsProcLockInit fiveLocks 0)
        [.unlock 0 16, .lock 2 16, .run 2, .lock 1 1, .run 1, .run 1, .run 1, .unlock 0 1, .run 0,
          .run 0] = some s ∧
      s.held 0 = 14 ∧ s.held 1 = 1 ∧ s.held 2 = 16 ∧
      Reachable fiveLocks (fun _ => 0) 0 s ∧ Exclusive fiveLocks s := by
  have hrun : runActs fiveLocks (fun _ => 0) (ertsProcLockInit fiveLocks 0)
      [.unlock 0 16, .lock 2 16, .run 2, .lock 1 1, .run 1, .run 1, .run 1, .unlock 0 1, .run 0,
        .run 0] = some _ := rfl
  have hr : Reachable fiveLocks (fun _ => 0) 0 _ := runActs_reachable hrun
  exact ⟨_, hrun, by decide, by decide, by decide, hr, mutual_exclusion hr⟩

/-! ## The queues -/

/-- The queues outside `try_aquire` and `transfer_locks`: queue `b` is a ring listing `qs b`,
non-empty exactly when the wait flag of `b` is set; a waiter is on one queue once, parked in
`wait_for_locks`, and `b` is the lowest lock it still needs. -/
def QueuesAgree (L : Layout) (s : St) : Prop :=
  ∃ qs : Nat → List Nat, ∀ b, s.wq.Lists b (qs b) ∧ (s.wq.queue b ≠ none ↔ waitFlag L s b) ∧
    (qs b).Nodup ∧ (∀ w c, w ∈ qs b → w ∈ qs c → b = c) ∧
    ∀ w ∈ qs b, (∃ locks phase, s.pc w = .sleep locks phase) ∧ IsLowest (s.uflgs w) b

/-- The wait flags and the queues: the parity of queues and wait flags outside the pix lock,
and a waiter behind every lock `transfer_locks` has still to hand over. -/
def Parity (L : Layout) (s : St) : Prop :=
  (∀ b, waitFlag L s b → s.flags.getLsbD b) ∧
  ((∀ r, ¬ (s.pc r).InPix) → QueuesAgree L s) ∧
  ∀ t tr n U wake, s.pc t = .transferLocks tr n U wake →
    (∀ b, tr.getLsbD b → n ≤ b → waitFlag L s b ∧ s.wq.queue b ≠ none) ∧
    (transferLocksStep L s t tr n U wake).isSome

/-- A wait flag belongs to a lock of the process. -/
theorem le_maxBit_of_waitFlag {qs : Nat → List Nat} (hi : Inv L s qs) {b : Nat}
    (hw : waitFlag L s b) : b ≤ L.maxBit := by
  rcases hi.own.flags_bits _ hw with h | h
  · have := L.maxBit_lt_waiterShift; omega
  · omega

/-- **The queues and the wait flags agree**, and `dequeue_waiter` never meets an empty queue. -/
theorem queue_parity (h : Reachable L c creator s) : Parity L s := by
  obtain ⟨qs, hi⟩ := inv_reachable h
  refine ⟨fun b => hi.own.wait_flag b, fun hout => ⟨qs, fun b => ?_⟩, fun t tr n U wake hpc => ?_⟩
  · have hne : s.wq.queue b ≠ none ↔ qs b ≠ [] := not_congr (queue_eq_none_iff hi.queues b)
    refine ⟨hi.queues.ring b, hne.trans ⟨hi.queues.queue_wait b, fun hw => ?_⟩,
      (hi.queues.ring b).nodup, fun w c => hi.queues.queue_disj b c w, fun w hw => ?_⟩
    · rcases hi.wait_queue b (le_maxBit_of_waitFlag hi hw) hw with h | ⟨r, hr⟩
      · exact h
      · exact absurd hr.inPix (hout r)
    · exact ⟨Pc.sleeping_iff.mp (hi.places.placed w (.inl ⟨b, hw⟩)).1, hi.places.queued b w hw⟩
  · obtain ⟨-, htr⟩ : ThreadInv L s qs t (.transferLocks tr n U wake) := hpc ▸ hi.threads t
    refine ⟨fun b hb hnb => ?_, ?_⟩
    · obtain ⟨-, hw, hq⟩ := htr.ahead b hb hnb
      exact ⟨hw, fun h => hq ((queue_eq_none_iff hi.queues b).mp h)⟩
    · obtain ⟨s', hs', -⟩ := inv_transferLocksStep hi hpc
      rw [hs']; rfl

/-- Threads `1` and `2` ask for lock `0`, which the creator holds: both sleep on its queue, a
ring of two events, with the wait flag of `0` set and the pix lock free. -/
theorem queue_parity_two :
    ∃ s, runActs fiveLocks (fun _ => 0) (ertsProcLockInit fiveLocks 0)
        [.lock 1 1, .run 1, .run 1, .run 1, .lock 2 1, .run 2, .run 2, .run 2] = some s ∧
      s.wq.Lists 0 [1, 2] ∧ waitFlag fiveLocks s 0 ∧ s.pix = none ∧
      Reachable fiveLocks (fun _ => 0) 0 s ∧ Parity fiveLocks s := by
  have hrun : runActs fiveLocks (fun _ => 0) (ertsProcLockInit fiveLocks 0)
      [.lock 1 1, .run 1, .run 1, .run 1, .lock 2 1, .run 2, .run 2, .run 2] = some _ := rfl
  have hr : Reachable fiveLocks (fun _ => 0) 0 _ := runActs_reachable hrun
  exact ⟨_, hrun, by decide, by decide, rfl, hr, queue_parity hr⟩

end ProcLock.Exclusion
