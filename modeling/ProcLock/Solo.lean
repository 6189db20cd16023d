import ProcLock.Step

/-! # A thread alone leaves every loop of the lock code

Each loop of the lock code is bounded for a thread that runs alone: the spin loop of
`erts_proc_lock_failed` by its spin count, which it resets only when it grabs a lock; the loops of
`try_aquire` and `transfer_locks` by `ERTS_PROC_LOCK_MAX_BIT`; the wake-up loop of
`transfer_locks` by its list; and the wait loop of `wait_for_locks` leaves as soon as `uaflgs` is
clear. So a thread whose steps are the only ones taken comes to a point where it has left the lock
code or waits for another thread (`parked`): it is idle, or in `erts_tse_wait` before a
`transfer_locks` has cleared its `uaflgs`, or before `erts_pix_lock` while another thread holds the
pix lock.

* `soloRank`: what is left of the loops for a thread, which each of its own steps lowers while it
  is not parked (`solo_step`);
* `solo_progress`: from every reachable state, the steps of any one thread lead it to a parked
  point. -/

namespace ProcLock.Solo

open Function ProcLock.Bits ProcLock.Queue ProcLock.Machine ProcLock.Invariant ProcLock.Step

variable (L : Layout)

/-- A step of thread `t` alone: the next action of its slow path. -/
def SoloStep (t : Nat) (s s' : St) : Prop := run L s t (s.pc t) = some s'

/-- Thread `t` has left the lock code, or waits for another thread: in `erts_tse_wait` with its
`uaflgs` still set, or before `erts_pix_lock` with the pix lock held by another thread. -/
def parked (s : St) (t : Nat) : Bool :=
  match s.pc t with
  | .idle => true
  | .sleep _ .wait => s.uaflgs t != 0
  | .waitForLocks _ | .unlockFailed _ => s.pix.isSome && s.pix != some t
  | _ => false

/-- The rank of `transfer_locks` at `lock_no = n` with the wake list `wake`: each lock left takes
a step, or a step and a `try_aquire` for its waiter, and each waiter two steps of the wake-up
loop. -/
def transferRank (n : Nat) (wake : List Nat) : Nat :=
  (L.maxBit + 2 - n) * (2 * L.maxBit + 7) + 2 * wake.length + 1

/-- The rank of what follows the end of `try_aquire`. -/
def retRank : Ret → Nat
  | .waitForLocks _ => 3
  | .transferLocks _ n _ wake => transferRank L (n + 1) wake + 3

/-- What is left of the loops for thread `t` at `p` in state `s`. In the spin loop it is read off
the locks still needed, the spin counts, and whether `olflgs` is the lock word (the next
compare-and-exchange succeeds); in `erts_tse_wait`, off `uaflgs`. -/
def soloRank (s : St) (t : Nat) : Pc → Nat
  | .idle => 0
  | .lockFailed _ needLocks olflgs thrSpinCount spinCount =>
    2 * L.maxBit + 8 + needLocks.toNat * (2 * thrSpinCount.toNat + 4) + 2 * spinCount.toNat +
      if s.flags = olflgs then 0 else 1
  | .waitForLocks _ => 2 * L.maxBit + 7
  | .tryAquire ret _ _ lockNo => retRank L ret + 2 * (L.maxBit + 1 - lockNo) + 1
  | .tryAquireBand ret _ _ lockNo => retRank L ret + 2 * (L.maxBit + 1 - lockNo)
  | .sleep _ .reset => 2
  | .sleep _ .check => 1
  | .sleep _ .wait => if s.uaflgs t = 0 then 3 else 0
  | .unlockFailed _ => transferRank L 0 [] + 1
  | .transferLocks _ lockNo _ wake => transferRank L lockNo wake
  | .wakeClear wake => 2 * wake.length
  | .wakeSet _ wake => 2 * wake.length + 1

variable {L}

/-! ## Each step lowers the rank -/

section Ranks

variable {s : St} {t : Nat}

/-- Clearing from `n` some of its locks, at least one, makes it smaller as a number. -/
theorem toNat_and_not_lt {n g : ErtsProcLocks} (hg : g ≠ 0) (hsub : ∀ i, g.getLsbD i → n.getLsbD i) :
    (n &&& ~~~g).toNat < n.toNat := by
  have hle : (n &&& ~~~g).toNat ≤ n.toNat := by rw [BitVec.toNat_and]; exact Nat.and_le_left
  refine lt_of_le_of_ne hle fun h => ?_
  obtain ⟨i, hi⟩ := ne_zero_iff.mp hg
  have := congrArg (·.getLsbD i) (BitVec.eq_of_toNat_eq h)
  simp [hi, hsub i hi] at this

/-- Each iteration of the spin loop lowers the rank: it returns, gives up and goes to
`wait_for_locks`, grabs locks (the spin count reset), spends one spin, or re-reads a lock word that
had changed under a failed compare-and-exchange. -/
theorem rank_lockFailedStep {locks need o : ErtsProcLocks} {k k' : Int} :
    soloRank L (lockFailedStep s t locks need o k k') t ((lockFailedStep s t locks need o k k').pc t) <
      soloRank L s t (.lockFailed locks need o k k') := by
  rcases @lockFailedStep_cases s t locks need o k k' with
    ⟨-, hs⟩ | ⟨-, -, -, hs⟩ | ⟨-, -, hk, hs⟩ | ⟨-, hg, hcas, hs⟩ | ⟨-, -, hcas, hs⟩ <;>
    rw [hs] <;> simp only [soloRank, update_same, ite_true]
  · omega
  · omega
  · omega
  · -- the compare-and-exchange grabs `in_order_locks`
    have hlt := toNat_and_not_lt hg fun i hi => by
      rw [getLsbD_inOrderLocks, Bool.and_eq_true] at hi; exact hi.1
    have h := Nat.mul_le_mul_right (2 * k.toNat + 4) hlt
    rw [Nat.succ_mul] at h
    simp only [if_pos hcas]
    omega
  · simp only [if_neg hcas]; omega

/-- The end of `try_aquire` leaves a rank below that of its caller. -/
theorem rank_tryAquireDone {ret : Ret} {wtr : Nat} {got : ErtsProcLocks} :
    soloRank L (tryAquireDone s t ret wtr got) t ((tryAquireDone s t ret wtr got).pc t) <
      retRank L ret := by
  cases ret with
  | waitForLocks locks =>
    simp only [tryAquireDone]
    split_ifs <;> simp [soloRank, retRank]
  | transferLocks tr n U wake =>
    simp only [tryAquireDone, update_same, soloRank, retRank, transferRank]
    split_ifs
    · simp only [List.length_cons]; omega
    · omega

/-- One lock more handed over or passed. -/
theorem transferRank_succ {n : Nat} (wake : List Nat) (hn : n ≤ L.maxBit + 1) :
    transferRank L n wake = transferRank L (n + 1) wake + (2 * L.maxBit + 7) := by
  simp only [transferRank]
  rw [show L.maxBit + 2 - n = L.maxBit + 2 - (n + 1) + 1 by omega, Nat.succ_mul]
  omega

/-- Each iteration of `try_aquire` lowers the rank: it passes a lock, takes it, or ends. -/
theorem rank_tryAquireStep {ret : Ret} {wtr k : Nat} {got : ErtsProcLocks} :
    soloRank L (tryAquireStep L s t ret wtr got k) t ((tryAquireStep L s t ret wtr got k).pc t) <
      soloRank L s t (.tryAquire ret wtr got k) := by
  have hret : retRank L ret ≤ soloRank L s t (.tryAquire ret wtr got k) := by
    simp only [soloRank]; omega
  by_cases hk : L.maxBit < k
  · rw [tryAquireStep_of_lt hk]; exact lt_of_lt_of_le rank_tryAquireDone hret
  rcases @tryAquireStep_cases L s t wtr ret got k (Nat.le_of_not_lt hk) with
    ⟨-, hs⟩ | ⟨-, -, hs⟩ | ⟨-, -, -, hs⟩ | ⟨-, -, -, hs⟩ <;> rw [hs]
  · simp only [soloRank, update_same]; omega
  · exact lt_of_lt_of_le rank_tryAquireDone hret
  · exact lt_of_lt_of_le rank_tryAquireDone hret
  · simp only [soloRank, update_same]; omega

/-- The `band` of `try_aquire` at a lock of the process lowers the rank. -/
theorem rank_tryAquireBandStep {ret : Ret} {wtr k : Nat} {got : ErtsProcLocks}
    (hk : k ≤ L.maxBit) :
    soloRank L (tryAquireBandStep L s t ret wtr got k) t
        ((tryAquireBandStep L s t ret wtr got k).pc t) <
      soloRank L s t (.tryAquireBand ret wtr got k) := by
  rcases @tryAquireBandStep_cases L s t wtr ret got k with ⟨-, hs⟩ | ⟨-, hs⟩ <;> rw [hs]
  · exact lt_of_lt_of_le rank_tryAquireDone (by simp only [soloRank]; omega)
  · simp only [soloRank, update_same]; omega

/-- Each iteration of `transfer_locks` lowers the rank: it ends, passes a lock, or hands a lock to
the head of its queue and runs `try_aquire` for it or puts it on the wake list. -/
theorem rank_transferLocksStep {tr U : ErtsProcLocks} {n : Nat} {wake : List Nat} {s' : St}
    (hn : n ≤ L.maxBit + 1) (h : transferLocksStep L s t tr n U wake = some s') :
    soloRank L s' t (s'.pc t) < soloRank L s t (.transferLocks tr n U wake) := by
  rcases @transferLocksStep_cases L s t n tr U wake with
    ⟨-, hs⟩ | ⟨-, -, hs⟩ | ⟨-, -, -, hs⟩ | ⟨-, -, wq, w, -, hs⟩ <;>
    rw [hs] at h <;> cases h <;> simp only [soloRank, update_same, transferRank_succ wake hn]
  · -- the end of the loop: the wake-up loop, or nothing left
    split_ifs <;> simp only [soloRank, transferRank] <;> omega
  · omega
  · -- the head of the queue is handed the lock
    split_ifs <;> simp only [soloRank, retRank, transferRank, List.length_cons] <;> omega

end Ranks

/-! ## The steps of a thread alone -/

section Steps

variable {s : St} {qs : Nat → List Nat} {t : Nat}

/-- Before `erts_pix_lock`, a thread that is not parked finds the pix lock free: no thread outside
the pix lock holds it. -/
theorem pix_free (hi : Inv L s qs) (hq : ¬ (s.pc t).InPix)
    (hp : (s.pix.isSome && s.pix != some t) = false) : s.pix = none := by
  cases hr : s.pix with
  | none => rfl
  | some r =>
    rw [hr] at hp
    obtain rfl : r = t := by simpa using hp
    exact absurd ((hi.pix_iff r).mp hr) hq

/-- **A step alone**: a thread that is not parked takes its next step, and lowers its rank. -/
theorem solo_step (hi : Inv L s qs) (hp : parked s t = false) :
    ∃ s', SoloStep L t s s' ∧ soloRank L s' t (s'.pc t) < soloRank L s t (s.pc t) := by
  unfold SoloStep
  cases hpc : s.pc t with
  | idle => simp [parked, hpc] at hp
  | lockFailed locks need o k k' => exact ⟨_, rfl, rank_lockFailedStep⟩
  | waitForLocks locks =>
    -- `erts_pix_lock`, then `try_aquire`
    simp only [parked, hpc] at hp
    have hpix := pix_free hi (by rw [hpc]; exact id) hp
    refine ⟨_, if_pos hpix, ?_⟩
    simp [soloRank, retRank]
    omega
  | tryAquire ret w got k => exact ⟨_, rfl, rank_tryAquireStep⟩
  | tryAquireBand ret w got k =>
    obtain ⟨-, -, hk, -⟩ : ThreadInv L s qs t (.tryAquireBand ret w got k) := hpc ▸ hi.threads t
    exact ⟨_, rfl, rank_tryAquireBandStep hk⟩
  | sleep locks phase =>
    refine ⟨_, rfl, ?_⟩
    cases phase with
    | reset => simp [sleepStep, soloRank]
    | check => simp only [sleepStep]; split_ifs with hu <;> simp [soloRank, hu]
    | wait =>
      simp only [parked, hpc, bne_eq_false_iff_eq] at hp
      simp [sleepStep, soloRank, hp]
  | unlockFailed w =>
    -- `erts_pix_lock`, then `transfer_locks`
    simp only [parked, hpc] at hp
    have hpix := pix_free hi (by rw [hpc]; exact id) hp
    exact ⟨_, if_pos hpix, by simp [soloRank]⟩
  | transferLocks tr n U wake =>
    obtain ⟨-, htr⟩ : ThreadInv L s qs t (.transferLocks tr n U wake) := hpc ▸ hi.threads t
    obtain ⟨s', hs', -⟩ := Transfer.inv_transferLocksStep hi hpc
    exact ⟨s', hs', rank_transferLocksStep htr.lockNo_le hs'⟩
  | wakeClear wake =>
    cases wake with
    | nil => exact absurd (hpc ▸ hi.threads t : ThreadInv L s qs t (.wakeClear [])) (· rfl)
    | cons w wake => exact ⟨_, rfl, by simp [soloRank]; omega⟩
  | wakeSet w wake =>
    refine ⟨_, rfl, ?_⟩
    simp only [soloRank, update_same]
    split_ifs <;> simp only [soloRank] <;> omega

end Steps

/-! ## Runs alone -/

section Runs

variable {c : Nat → Int} {creator t : Nat} {s : St}

/-- A step alone is a step of the machine. -/
theorem SoloStep.step {s s' : St} (h : SoloStep L t s s') : Step L c s s' := ⟨.run t, h⟩

/-- From a state satisfying the invariant, the steps of `t` alone lead it to a parked point. -/
theorem solo_parks {qs : Nat → List Nat} (hi : Inv L s qs) :
    ∃ s', Relation.ReflTransGen (SoloStep L t) s s' ∧ parked s' t = true := by
  suffices h : ∀ r (s : St) (qs : Nat → List Nat), Inv L s qs → soloRank L s t (s.pc t) = r →
      ∃ s', Relation.ReflTransGen (SoloStep L t) s s' ∧ parked s' t = true from h _ s qs hi rfl
  intro r
  induction r using Nat.strong_induction_on with
  | _ r ih =>
  intro s qs hi hr
  cases hp : parked s t
  · obtain ⟨s', hs', hlt⟩ := solo_step hi hp
    obtain ⟨qs', hi', -⟩ := inv_run hi hs'
    obtain ⟨s'', h'', hpk⟩ := ih _ (hr ▸ hlt) s' qs' hi' rfl
    exact ⟨s'', .head hs' h'', hpk⟩
  · exact ⟨s, .refl, hp⟩

/-- **A thread alone leaves every loop of the lock code**: from every reachable state, the steps
of any one thread, taken alone, lead it to a point where it is idle, sleeps in `erts_tse_wait` with
`uaflgs` still set, or waits before `erts_pix_lock` while another thread holds the pix lock. -/
theorem solo_progress (h : Reachable L c creator s) (t : Nat) :
    ∃ s', Relation.ReflTransGen (SoloStep L t) s s' ∧ parked s' t = true := by
  obtain ⟨_, hi⟩ := inv_reachable h
  exact solo_parks hi

theorem solo_progress_spin :
    Reachable fiveLocks (fun _ => 0) 0 (ertsProcLock (ertsProcLockInit fiveLocks 0) 1 1 0) ∧
      ∃ s', Relation.ReflTransGen (SoloStep fiveLocks 1)
        (ertsProcLock (ertsProcLockInit fiveLocks 0) 1 1 0) s' ∧ parked s' 1 = true :=
  have hr : Reachable fiveLocks (fun _ => 0) 0 (ertsProcLock (ertsProcLockInit fiveLocks 0) 1 1 0) :=
    .single ⟨.lock 1 1, rfl⟩
  ⟨hr, solo_progress hr 1⟩

end Runs

end ProcLock.Solo
