import ProcLock.Step

/-! # `check_queue` passes where it is called

With `ERTS_PROC_LOCK_HARD_DEBUG`, `check_queue` checks the wait queues of a process: the queue of a
lock whose wait flag is set is not `NULL`, and the walk from its head along `next` back to the head
takes as many steps as the walk along `prev`; the queue of a lock whose wait flag is clear is
`NULL`. It is called under the pix lock when `transfer_locks` begins and when it has cleared the
wait flags of the queues it emptied, and in `wait_for_locks` before and after `try_aquire`.

* `ringWalk_of_ring`: on a ring, both walks come back to the head after as many steps as the ring
  has events, given that much fuel;
* `checkQueue_of_inv`: with the invariant, `check_queue` passes wherever no wait flag is pending,
  set by `try_aquire` or `transfer_locks` ahead of its queue;
* `check_queue_passes`: in every reachable state where `check_queue` is called, it passes, with
  fuel for the longest queue. -/

namespace ProcLock.CheckQueue

open Function ProcLock.Bits ProcLock.Queue ProcLock.Machine ProcLock.Invariant ProcLock.Frame
open ProcLock.Step

/-! ## The code -/

/-- A `do … while` loop of `check_queue`: the number of steps along `link` from `wtr` to `hd`,
taking `fuel` steps at most; `none` when the fuel runs out. -/
def ringWalk (link : Nat → Nat) (hd : Nat) : Nat → Nat → Option Nat
  | 0, _ => none
  | fuel + 1, wtr =>
    if link wtr = hd then some 1 else (ringWalk link hd fuel (link wtr)).map (· + 1)

variable (L : Layout)

/-- `check_queue`, true when every `ERTS_ASSERT` holds and its walks end within `fuel` steps. `n`
counts the steps along `next` up and those along `prev` down. -/
def checkQueue (fuel : Nat) (s : St) : Bool :=
  (List.range (L.maxBit + 1)).all fun lockNo =>
    let bit := lockBit lockNo <<< L.waiterShift
    if s.flags &&& bit ≠ 0 then
      match s.wq.queue lockNo with
      | none => false
      | some hd =>
        match ringWalk s.wq.next hd fuel hd, ringWalk s.wq.prev hd fuel hd with
        | some up, some down => (up : Int) - down == 0
        | _, _ => false
    else (s.wq.queue lockNo).isNone

variable {L}

/-! ## The walks on a ring -/

/-- Along a chain of `link`s from `x` through `m` to `hd`, the walk takes one step more than `m`
has events. -/
theorem ringWalk_chain {link : Nat → Nat} {hd : Nat} :
    ∀ {m : List Nat} {x fuel : Nat}, List.Chain' (fun a b => link a = b) (x :: m ++ [hd]) →
      hd ∉ m → m.length < fuel → ringWalk link hd fuel x = some (m.length + 1)
  | [], x, fuel + 1, h, _, _ => by
    rw [ringWalk, if_pos (List.chain'_pair.mp h)]; rfl
  | y :: m, x, fuel + 1, h, hm, hf => by
    simp only [List.cons_append, List.chain'_cons] at h
    obtain ⟨rfl, h⟩ := h
    rw [List.mem_cons, not_or] at hm
    rw [ringWalk, if_neg (Ne.symm hm.1), ringWalk_chain h hm.2 (by simp at hf; omega)]
    rfl

/-- **Both walks of `check_queue` on a ring** come back to the head after as many steps as the
ring has events. -/
theorem ringWalk_of_ring {next prev : Nat → Nat} {hd : Nat} {l : List Nat}
    (h : Ring next prev (some hd) l) {fuel : Nat} (hf : l.length ≤ fuel) :
    ringWalk next hd fuel hd = some l.length ∧ ringWalk prev hd fuel hd = some l.length := by
  obtain ⟨hh, hnd, hc⟩ := h
  obtain ⟨t, rfl⟩ : ∃ t, l = hd :: t := by
    cases l with
    | nil => cases hh
    | cons a t => cases hh; exact ⟨t, rfl⟩
  have hnt : hd ∉ t := (List.nodup_cons.mp hnd).1
  have hlen : t.length < fuel := by simp at hf; omega
  refine ⟨ringWalk_chain (hc.imp fun _ _ h => h.1) hnt hlen, ?_⟩
  have hrev : List.Chain' (fun a b => prev a = b) (hd :: t.reverse ++ [hd]) := by
    have := List.chain'_reverse.mpr (hc.imp fun a b (h : Linked next prev a b) => h.2)
    simpa using this
  simpa using ringWalk_chain hrev (by simpa using hnt) (by simpa using hlen)

/-! ## Where it passes -/

/-- The wait flag of lock `b` as `check_queue` reads it. -/
theorem waitBit_ne_zero {s : St} {b : Nat} (hb : b ≤ L.maxBit) :
    s.flags &&& lockBit b <<< L.waiterShift ≠ 0 ↔ waitFlag L s b := by
  rw [ne_zero_iff]
  constructor
  · rintro ⟨i, hi⟩
    rw [BitVec.getLsbD_and, Bool.and_eq_true] at hi
    obtain ⟨c, rfl, hc⟩ := exists_of_getLsbD_shift hi.2
    rw [getLsbD_lockBit] at hc
    simp only [Bool.and_eq_true, decide_eq_true_eq] at hc
    exact hc.2 ▸ hi.1
  · intro hw
    refine ⟨L.waiterShift + b, ?_⟩
    simp [BitVec.getLsbD_and, getLsbD_shift_add, L.waiter_lt hb, lt_of_le_maxBit hb]
    exact hw

/-- With the invariant, `check_queue` passes where no wait flag is pending, with fuel for the
longest queue. -/
theorem checkQueue_of_inv {s : St} {qs : Nat → List Nat} (hi : Inv L s qs)
    (hpend : ∀ r b, ¬ (s.pc r).Pending b) {fuel : Nat} (hfuel : ∀ b l, s.wq.Lists b l → l.length ≤ fuel) :
    checkQueue L fuel s = true := by
  refine List.all_eq_true.mpr fun b hb => ?_
  have hb : b ≤ L.maxBit := Nat.lt_succ_iff.mp (List.mem_range.mp hb)
  have hnil := queue_eq_none_iff hi.queues b
  dsimp only
  by_cases hw : waitFlag L s b
  · -- a wait flag: its queue is a ring with waiters
    have hq : qs b ≠ [] := (hi.wait_queue b hb hw).resolve_right fun ⟨r, hr⟩ => hpend r b hr
    rw [if_pos ((waitBit_ne_zero hb).mpr hw)]
    obtain ⟨hd, hhd⟩ : ∃ hd, s.wq.queue b = some hd := Option.ne_none_iff_exists'.mp (hq ∘ hnil.mp)
    have hring : Ring s.wq.next s.wq.prev (some hd) (qs b) := hhd ▸ hi.queues.ring b
    obtain ⟨h1, h2⟩ := ringWalk_of_ring hring (hfuel b _ (hi.queues.ring b))
    simp [hhd, h1, h2]
  · -- no wait flag: no queue
    rw [if_neg fun h => hw ((waitBit_ne_zero hb).mp h)]
    have hq : qs b = [] := by
      by_contra hq; exact hw (hi.queues.queue_wait b hq)
    simp [hnil.mpr hq]

variable {c : Nat → Int} {creator : Nat} {s : St}

/-- **`check_queue` passes where it is called**: in every reachable state where the pix lock is
free — after the end of `transfer_locks` and after `try_aquire` in `wait_for_locks`, which both
release it in the same atomic step — or where its holder has just taken it for `transfer_locks`
or for `try_aquire` in `wait_for_locks`, `check_queue` passes, given fuel for the longest queue. -/
theorem check_queue_passes (h : Reachable L c creator s)
    (hcall : s.pix = none ∨ ∃ t, s.pix = some t ∧
      ((∃ tr, s.pc t = .transferLocks tr 0 0 []) ∨
        ∃ locks, s.pc t = .tryAquire (.waitForLocks locks) t 0 0))
    {fuel : Nat} (hfuel : ∀ b l, s.wq.Lists b l → l.length ≤ fuel) :
    checkQueue L fuel s = true := by
  obtain ⟨qs, hi⟩ := inv_reachable h
  refine checkQueue_of_inv hi (fun r b hr => ?_) hfuel
  have hpix := (hi.pix_iff r).mpr hr.inPix
  rcases hcall with hnone | ⟨t, ht, ⟨tr, hpc⟩ | ⟨locks, hpc⟩⟩
  · rw [hnone] at hpix; cases hpix
  · obtain rfl := Option.some.inj (hpix.symm.trans ht)
    rw [hpc] at hr; simp [Pc.Pending] at hr
  · obtain rfl := Option.some.inj (hpix.symm.trans ht)
    rw [hpc] at hr; simp [Pc.Pending, Ret.unset] at hr

/-- Threads `1` and `2` sleep on the queue of lock `0`: `check_queue` walks the ring of two
events both ways. -/
theorem check_queue_passes_two :
    ∃ s, runActs fiveLocks (fun _ => 0) (ertsProcLockInit fiveLocks 0)
        [.lock 1 1, .run 1, .run 1, .run 1, .lock 2 1, .run 2, .run 2, .run 2] = some s ∧
      s.wq.Lists 0 [1, 2] ∧ Reachable fiveLocks (fun _ => 0) 0 s ∧
      checkQueue fiveLocks 2 s = true := by
  obtain ⟨s, hrun, hl, hq, hp⟩ : ∃ s, runActs fiveLocks (fun _ => 0) (ertsProcLockInit fiveLocks 0)
      [.lock 1 1, .run 1, .run 1, .run 1, .lock 2 1, .run 2, .run 2, .run 2] = some s ∧
      s.wq.Lists 0 [1, 2] ∧ s.wq.queue = update (fun _ => none) 0 (some 1) ∧ s.pix = none :=
    ⟨_, rfl, by decide, rfl, rfl⟩
  have hr : Reachable fiveLocks (fun _ => 0) 0 s := runActs_reachable hrun
  refine ⟨s, hrun, hl, hr, check_queue_passes hr (.inl hp) fun b l hb => ?_⟩
  by_cases h0 : b = 0
  · subst h0; rw [Ring.unique hb hl]; rfl
  · unfold WaitQueues.Lists at hb; rw [hq, update_noteq h0] at hb; rw [hb]; simp

end ProcLock.CheckQueue
