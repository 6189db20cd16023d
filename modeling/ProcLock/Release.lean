import ProcLock.Threads
import ProcLock.Ownership

/-! # An unlock lets go of every lock it unlocks

`erts_proc_unlock(p, locks)` clears at once the lock flags of `locks` whose wait flag is clear.
The others, `wait_locks`, its caller keeps, and `erts_proc_unlock_failed` hands them over: its
`transfer_locks` gives each of them to the head of the lock's queue, while `try_aquire` may take
more locks for that waiter. So the unlocking thread, once out of `transfer_locks`, owns none of
the locks it unlocked, whatever the other threads do meanwhile.

* `toHand`: the locks the slow path of `erts_proc_unlock` has still to hand over;
* `Releasing`: a thread asks for no lock, and owns no lock of `locks` but those its slow path has
  still to hand over;
* `releasing_unlock`, `releasing_other`, `releasing_run`: the unlock fast path sets it up, a step
  of another thread keeps it, and so does each step of the slow path;
* `unlock_releases`: over every run from a reachable state that starts with
  `erts_proc_unlock(p, locks)` of a thread, in which that thread takes only steps of its slow
  path, the thread owns no lock of `locks` that `transfer_locks` is not still to hand over: none
  once it has left `transfer_locks`. -/

namespace ProcLock.Release

open Function ProcLock.Bits ProcLock.Machine ProcLock.Invariant ProcLock.Frame ProcLock.Step
open ProcLock.Threads ProcLock.Ownership

/-- The locks the slow path of `erts_proc_unlock` at `p` has still to hand over: the `wait_locks`
of `erts_proc_unlock_failed`; in `transfer_locks`, those of `trnsfr_lcks` from `lock_no` on, and
above `lock_no` while `try_aquire` runs for the waiter `lock_no` went to. -/
def toHand : Pc → Nat → Bool
  | .unlockFailed waitLocks, b => waitLocks.getLsbD b
  | .transferLocks tr lockNo _ _, b => tr.getLsbD b && decide (lockNo ≤ b)
  | .tryAquire (.transferLocks tr lockNo _ _) _ _ _, b => tr.getLsbD b && decide (lockNo < b)
  | .tryAquireBand (.transferLocks tr lockNo _ _) _ _ _, b => tr.getLsbD b && decide (lockNo < b)
  | _, _ => false

/-- Thread `t` asks for no lock, and owns no lock of `locks` but those its slow path has still to
hand over. -/
def Releasing (locks : ErtsProcLocks) (s : St) (t : Nat) : Prop :=
  (s.pc t).asking = none ∧ ∀ b, locks.getLsbD b → (s.held t).getLsbD b → toHand (s.pc t) b

variable {L : Layout} {c : Nat → Int} {s s' : St} {qs : Nat → List Nat} {t : Nat}
  {locks : ErtsProcLocks}

/-- A thread that asks for no lock has no request. -/
theorem request_eq_none (h : (s.pc t).asking = none) : request s t = none := by
  cases hr : request s t with
  | none => rfl
  | some p =>
    obtain ⟨l, n⟩ := p
    rw [asking_of_request hr] at h; cases h

/-- A step that leaves `t` asking for nothing, takes no lock to it, and keeps to hand every lock
of `locks` it still owns. -/
theorem Releasing.of_step (hr : Releasing locks s t) (hask : (s'.pc t).asking = none)
    (hle : ∀ b, (s'.held t).getLsbD b → (s.held t).getLsbD b)
    (hto : ∀ b, (s'.held t).getLsbD b → toHand (s.pc t) b → toHand (s'.pc t) b) :
    Releasing locks s' t :=
  ⟨hask, fun b hb hh => hto b hh (hr.2 b hb (hle b hh))⟩

/-- **The unlock fast path**: the locks of `locks` its caller still owns are those with a wait
flag, which `erts_proc_unlock_failed` has to hand over. -/
theorem releasing_unlock (hi : Inv L s qs) (hst : step L c s (.unlock t locks) = some s') :
    Releasing locks s' t := by
  simp only [step] at hst
  split_ifs at hst with hg
  cases hst
  refine ⟨by simp only [ertsProcUnlock]; split_ifs <;> simp [hg.1, Pc.asking], fun b hb hh => ?_⟩
  -- a lock it keeps has its wait flag set, and so its lock flag
  have hw : s.flags.getLsbD (L.waiterShift + b) := by
    simp [ertsProcUnlock, hb, BitVec.getLsbD_ushiftRight] at hh
    exact hh.2.2.resolve_left (by omega)
  have hT : (s.flags &&& ((s.flags >>> L.waiterShift) &&& locks |||
      ~~~locks) &&& locks).getLsbD b := by
    simp [hb, hw, hi.own.wait_flag b hw, BitVec.getLsbD_ushiftRight]
  simp only [ertsProcUnlock]
  rw [if_pos fun h0 => by simp [h0] at hT, update_same]
  exact hT

/-- **A step of another thread** leaves the slow path of `t` where it was, and takes no lock to
`t`, which asks for none. -/
theorem releasing_other (hi : Inv L s qs) {a : Act} (hst : step L c s a = some s')
    (ha : a.thread ≠ t) (hr : Releasing locks s t) : Releasing locks s' t := by
  have hpc : s'.pc t = s.pc t := (moves_step hst).1 t (Ne.symm ha)
  refine hr.of_step (hpc ▸ hr.1) (fun b hh => ?_) fun b _ h => hpc ▸ h
  by_contra hn
  rcases gains_step hi hst hh (Bool.eq_false_iff.mpr hn) with ⟨_, _, hreq, -⟩ | ⟨rfl, -⟩
  · rw [request_eq_none hr.1] at hreq; cases hreq
  · exact ha rfl

/-- An iteration of `transfer_locks` hands the lock at `lock_no` over, passes it, or ends with
every lock handed over. -/
theorem releasing_transferLocksStep (hi : Inv L s qs) {tr U : ErtsProcLocks} {n : Nat}
    {wake : List Nat} (hpc : s.pc t = .transferLocks tr n U wake)
    (hst : transferLocksStep L s t tr n U wake = some s') (hr : Releasing locks s t) :
    Releasing locks s' t := by
  rw [Releasing, hpc] at hr
  rcases @transferLocksStep_cases L s t n tr U wake with
    ⟨hexit, hs⟩ | ⟨-, hskip, hs⟩ | ⟨-, -, -, hs⟩ | ⟨-, hbit, wq, w, hdq, hs⟩ <;> rw [hs] at hst <;>
    cases hst
  · -- the end of the loop: nothing is left to hand over
    refine ⟨by split_ifs <;> simp [Pc.asking], fun b hb hh => absurd (hr.2 b hb hh) ?_⟩
    have hle := hi.own.held_all t b hh
    simp only [toHand, Bool.and_eq_true, decide_eq_true_eq, not_and, not_le]
    rcases hexit with rfl | hmax
    · simp
    · exact fun _ => by omega
  · refine ⟨by simp [Pc.asking], fun b hb hh => ?_⟩
    have h := hr.2 b hb hh
    simp only [update_same, toHand, Bool.and_eq_true, decide_eq_true_eq] at h ⊢
    exact ⟨h.1, Nat.lt_of_le_of_ne h.2 fun e => by rw [e] at hskip; simp [hskip] at h⟩
  · -- lock `n` goes to the head of its queue, another thread
    obtain ⟨-, hwt⟩ := transfer_dequeue hi hpc hbit hdq
    refine ⟨by dsimp only; split_ifs <;> simp [Pc.asking], fun b hb hh => ?_⟩
    dsimp only at hh
    rw [update_noteq hwt.symm, update_same, getLsbD_and_not, getLsbD_lockBit,
      Bool.and_eq_true] at hh
    have h := hr.2 b hb hh.1
    have hbn : b ≠ n := fun e => by
      have h32 := BitVec.lt_of_getLsbD hh.1
      subst e; simp [h32] at hh
    simp only [toHand, Bool.and_eq_true, decide_eq_true_eq] at h
    dsimp only
    split_ifs <;> simp only [update_same, toHand, Bool.and_eq_true, decide_eq_true_eq] <;>
      exact ⟨h.1, by omega⟩

/-- The end of `try_aquire` in `transfer_locks` goes on past `lock_no`. -/
theorem releasing_tryAquireDone {tr U got : ErtsProcLocks} {n wtr : Nat} {wake : List Nat}
    (hr : ∀ b, locks.getLsbD b → (s.held t).getLsbD b → tr.getLsbD b ∧ n < b) :
    Releasing locks (tryAquireDone s t (.transferLocks tr n U wake) wtr got) t := by
  refine ⟨by simp [tryAquireDone, Pc.asking], fun b hb hh => ?_⟩
  have h := hr b hb (tryAquireDone_held ▸ hh)
  simp only [tryAquireDone, update_same, toHand, Bool.and_eq_true, decide_eq_true_eq]
  exact h

/-- `try_aquire` run by a thread that asks for no lock is that of `transfer_locks`. -/
theorem transferLocks_of_asking {ret : Ret} {wtr k : Nat} {got : ErtsProcLocks}
    (h : (Pc.tryAquire ret wtr got k).asking = none ∨ (Pc.tryAquireBand ret wtr got k).asking = none) :
    ∃ tr n U wake, ret = .transferLocks tr n U wake := by
  cases ret with
  | waitForLocks => simp [Pc.asking] at h
  | transferLocks tr n U wake => exact ⟨tr, n, U, wake, rfl⟩

/-- **A step of the slow path** keeps to hand over every lock of `locks` its thread still owns. -/
theorem releasing_run (hi : Inv L s qs) (hst : run L s t (s.pc t) = some s')
    (hr : Releasing locks s t) : Releasing locks s' t := by
  have hr2 := hr.2
  cases hpc : s.pc t with
  | idle => rw [hpc] at hst; cases hst
  | unlockFailed T =>
    rw [hpc] at hst hr2; simp only [run] at hst
    split_ifs at hst
    cases hst
    refine ⟨by simp [Pc.asking], fun b hb hh => ?_⟩
    simpa [toHand] using hr2 b hb hh
  | transferLocks tr n U wake =>
    rw [hpc] at hst; exact releasing_transferLocksStep hi hpc hst hr
  | tryAquire ret wtr got k =>
    rw [hpc] at hst hr2; cases hst
    -- `try_aquire` runs for a waiter handed a lock by `transfer_locks`
    obtain ⟨tr, n, U, wake, rfl⟩ := transferLocks_of_asking (.inl (hpc ▸ hr.1))
    simp only [toHand, Bool.and_eq_true, decide_eq_true_eq] at hr2
    by_cases hmax : L.maxBit < k
    · rw [tryAquireStep_of_lt hmax]; exact releasing_tryAquireDone hr2
    have hwt : wtr ≠ t := fun e => by
      have := (hi.places.placed wtr (.inr (.inl ⟨t, by rw [hpc]; rfl⟩))).1
      rw [e, hpc] at this; exact this
    rcases @tryAquireStep_cases L s t wtr _ got k (Nat.le_of_not_lt hmax) with
      ⟨-, hs⟩ | ⟨-, -, hs⟩ | ⟨-, -, -, hs⟩ | ⟨-, -, -, hs⟩ <;> rw [hs]
    · exact ⟨by simp [Pc.asking], fun b hb hh => by simpa [toHand] using hr2 b hb hh⟩
    · exact releasing_tryAquireDone hr2
    · exact releasing_tryAquireDone hr2
    · refine ⟨by simp [Pc.asking], fun b hb hh => ?_⟩
      dsimp only at hh
      rw [update_noteq hwt.symm] at hh
      simpa [toHand] using hr2 b hb hh
  | tryAquireBand ret wtr got k =>
    rw [hpc] at hst hr2; cases hst
    obtain ⟨tr, n, U, wake, rfl⟩ := transferLocks_of_asking (.inr (hpc ▸ hr.1))
    simp only [toHand, Bool.and_eq_true, decide_eq_true_eq] at hr2
    rcases @tryAquireBandStep_cases L s t wtr _ got k with ⟨-, hs⟩ | ⟨-, hs⟩ <;> rw [hs]
    · exact releasing_tryAquireDone hr2
    · exact ⟨by simp [Pc.asking], fun b hb hh => by simpa [toHand] using hr2 b hb hh⟩
  | wakeClear wake =>
    cases wake with
    | nil => rw [hpc] at hst; cases hst
    | cons w wake =>
      rw [hpc] at hst hr2; cases hst
      exact ⟨by simp [Pc.asking], fun b hb hh => by simpa [toHand] using hr2 b hb hh⟩
  | wakeSet w wake =>
    rw [hpc] at hst hr2; cases hst
    exact ⟨by split_ifs <;> simp [Pc.asking], fun b hb hh => by simpa [toHand] using hr2 b hb hh⟩
  | lockFailed | waitForLocks | sleep => have := hr.1; rw [hpc] at this; cases this

/-- Along a sequence of actions in which `t` takes only steps of its slow path, `t` keeps to
hand over every lock of `locks` it still owns. -/
theorem releasing_runActs {as : List Act} (hi : Inv L s qs) (hr : Releasing locks s t)
    (hrun : runActs L c s as = some s') (hslow : ∀ a ∈ as, a.thread = t → a = .run t) :
    Releasing locks s' t := by
  induction as generalizing s qs with
  | nil => cases hrun; exact hr
  | cons a as ih =>
    simp only [runActs, Option.bind_eq_some] at hrun
    obtain ⟨s₁, h₁, h₂⟩ := hrun
    obtain ⟨qs₁, hi₁, -⟩ := inv_step hi h₁
    refine ih hi₁ ?_ h₂ fun a ha => hslow a (List.mem_cons_of_mem _ ha)
    by_cases ha : a.thread = t
    · obtain rfl := hslow a (List.mem_cons_self _ _) ha
      exact releasing_run hi h₁ hr
    · exact releasing_other hi h₁ ha hr

/-- **An unlock lets go of every lock it unlocks**: over every sequence of actions from a
reachable state that starts with `erts_proc_unlock(p, locks)` of thread `t`, and in which `t`
takes only steps of the slow path of that call, `t` owns no lock of `locks` but those its
`transfer_locks` has still to hand over; so it owns none of them once it is out of
`transfer_locks`, in its wake-up loop or back outside the lock code. -/
theorem unlock_releases {creator : Nat} (h : Reachable L c creator s) {as : List Act}
    (hrun : runActs L c s (.unlock t locks :: as) = some s')
    (hslow : ∀ a ∈ as, a.thread = t → a = .run t) :
    ∀ b, locks.getLsbD b → (s'.held t).getLsbD b → toHand (s'.pc t) b := by
  obtain ⟨qs, hi⟩ := inv_reachable h
  simp only [runActs, Option.bind_eq_some] at hrun
  obtain ⟨s₁, h₁, h₂⟩ := hrun
  obtain ⟨qs₁, hi₁, -⟩ := inv_step hi h₁
  exact (releasing_runActs hi₁ (releasing_unlock hi h₁) h₂ hslow).2

theorem unlock_releases_handOver :
    ∃ s s', runActs fiveLocks (fun _ => 0) (ertsProcLockInit fiveLocks 0)
        [.lock 1 3, .run 1, .run 1, .run 1] = some s ∧
      runActs fiveLocks (fun _ => 0) s [.unlock 0 1, .run 0, .run 0] = some s' ∧
      ∀ b, (1 : ErtsProcLocks).getLsbD b → (s'.held 0).getLsbD b → toHand (s'.pc 0) b :=
  ⟨_, _, rfl, rfl, @unlock_releases fiveLocks (fun _ => 0) _ _ 0 1 0
    (runActs_reachable (rfl : runActs fiveLocks (fun _ => 0) (ertsProcLockInit fiveLocks 0)
      [.lock 1 3, .run 1, .run 1, .run 1] = some _)) [.run 0, .run 0] (by exact rfl) (by decide)⟩

end ProcLock.Release
