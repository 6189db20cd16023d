import ProcLock.Threads

/-! # The spin counts

`erts_init_proc_lock(cpus)` sets the spin count of the scheduler threads,
`proc_lock_spin_count`, and that of the other threads, `aux_thr_proc_lock_spin_count`: none on one
CPU, a base count and more per scheduler on several, capped at `ERTS_PROC_LOCK_SPIN_COUNT_MAX`.
`erts_proc_lock_failed` takes the count of its thread as `thr_spin_count`, starts its
`spin_count` from it, counts it down at each spin, and restarts it when it grabs locks.

* `ertsInitProcLock`: the two counts, from the number of CPUs and of schedulers;
* `SpinBound`: a thread in the spin loop has its thread's count as `thr_spin_count` and a
  `spin_count` no larger, which every step keeps (`spinBound_step`);
* `spin_budget`: with the counts of `erts_init_proc_lock`, in every reachable state a thread in
  the spin loop has at most `ERTS_PROC_LOCK_SPIN_COUNT_MAX` spins left, at most
  `ERTS_PROC_LOCK_AUX_SPIN_COUNT` for a thread that is not a scheduler, and none on one CPU. -/

namespace ProcLock.Spin

open Function ProcLock.Bits ProcLock.Machine ProcLock.Threads

/-! ## The counts -/

/-- `ERTS_PROC_LOCK_SPIN_COUNT_MAX` -/
def spinCountMax : Int := 2000

/-- `ERTS_PROC_LOCK_SPIN_COUNT_SCHED_INC` -/
def spinCountSchedInc : Int := 32

/-- `ERTS_PROC_LOCK_SPIN_COUNT_BASE` -/
def spinCountBase : Int := 1000

/-- `ERTS_PROC_LOCK_AUX_SPIN_COUNT` -/
def auxSpinCount : Int := 50

/-- The counts `erts_init_proc_lock(cpus)` sets with `erts_no_schedulers` schedulers:
`proc_lock_spin_count` and `aux_thr_proc_lock_spin_count`. The product of
`ERTS_PROC_LOCK_SPIN_COUNT_SCHED_INC` and the number of schedulers is taken without overflow, as
the number of schedulers is at most `ERTS_MAX_NO_OF_SCHEDULERS`. -/
def ertsInitProcLock (cpus : Int) (noSchedulers : Nat) : Int × Int :=
  let counts : Int × Int :=
    if cpus > 1 then (spinCountBase + spinCountSchedInc * noSchedulers, auxSpinCount)
    else if cpus = 1 then (0, 0)
    else (spinCountBase / 2, auxSpinCount / 2)
  (if counts.1 > spinCountMax then spinCountMax else counts.1, counts.2)

/-- `thr_spin_count` of `erts_proc_lock_failed` in thread `t`: `proc_lock_spin_count` in a
scheduler thread (`erts_thr_get_main_status()`), `aux_thr_proc_lock_spin_count` in another. -/
def thrSpinCount (counts : Int × Int) (isMain : Nat → Bool) (t : Nat) : Int :=
  if isMain t then counts.1 else counts.2

/-- The counts of `erts_init_proc_lock` are at least `0` and at most
`ERTS_PROC_LOCK_SPIN_COUNT_MAX` and `ERTS_PROC_LOCK_AUX_SPIN_COUNT`, and `0` on one CPU. -/
theorem ertsInitProcLock_bounds (cpus : Int) (n : Nat) :
    0 ≤ (ertsInitProcLock cpus n).1 ∧ (ertsInitProcLock cpus n).1 ≤ spinCountMax ∧
      0 ≤ (ertsInitProcLock cpus n).2 ∧ (ertsInitProcLock cpus n).2 ≤ auxSpinCount ∧
      (cpus = 1 → (ertsInitProcLock cpus n).1 = 0 ∧ (ertsInitProcLock cpus n).2 = 0) := by
  simp only [ertsInitProcLock, spinCountMax, spinCountSchedInc, spinCountBase, auxSpinCount]
  split_ifs <;> omega

/-! ## The spin loop over runs -/

/-- Every thread in the spin loop has its thread's count as `thr_spin_count`, and a `spin_count`
no larger. -/
def SpinBound (c : Nat → Int) (s : St) : Prop :=
  ∀ t locks need o k k', s.pc t = .lockFailed locks need o k k' → k = c t ∧ k' ≤ k

variable {L : Layout} {c : Nat → Int} {s s' : St} {t : Nat}
  {locks need o : ErtsProcLocks} {k k' : Int}

/-- The end of `try_aquire` leads out of the spin loop. -/
theorem tryAquireDone_ne_lockFailed {ret : Ret} {wtr : Nat} {got : ErtsProcLocks} :
    (tryAquireDone s t ret wtr got).pc t ≠ .lockFailed locks need o k k' := by
  cases ret <;> simp only [tryAquireDone] <;> split_ifs <;> simp

/-- A step of the slow path enters the spin loop only from it, from the same `thr_spin_count`
and with a `spin_count` no larger or reset to it. -/
theorem run_lockFailed (h : run L s t (s.pc t) = some s')
    (hs' : s'.pc t = .lockFailed locks need o k k') :
    ∃ locks₀ need₀ o₀ k₀, s.pc t = .lockFailed locks₀ need₀ o₀ k k₀ ∧ (k' ≤ k₀ ∨ k' = k) := by
  cases hpc : s.pc t with
  | lockFailed locks₀ need₀ o₀ c₀ k₀ =>
    rw [hpc] at h; cases h
    rcases @lockFailedStep_cases s t locks₀ need₀ o₀ c₀ k₀ with
      ⟨-, hs⟩ | ⟨-, -, -, hs⟩ | ⟨-, -, -, hs⟩ | ⟨-, -, -, hs⟩ | ⟨-, -, -, hs⟩ <;>
      simp only [hs, update_same, reduceCtorEq, Pc.lockFailed.injEq] at hs'
    · -- a spin
      obtain ⟨-, -, -, rfl, rfl⟩ := hs'; exact ⟨_, _, _, _, rfl, .inl (by omega)⟩
    · -- a grab restarts the count
      obtain ⟨-, -, -, rfl, rfl⟩ := hs'; exact ⟨_, _, _, _, rfl, .inr rfl⟩
    · obtain ⟨-, -, -, rfl, rfl⟩ := hs'; exact ⟨_, _, _, _, rfl, .inl le_rfl⟩
  | tryAquire ret wtr got n =>
    rw [hpc] at h; cases h
    by_cases hmax : L.maxBit < n
    · rw [tryAquireStep_of_lt hmax] at hs'; exact absurd hs' tryAquireDone_ne_lockFailed
    rcases @tryAquireStep_cases L s t wtr ret got n (Nat.le_of_not_lt hmax) with
      ⟨-, hs⟩ | ⟨-, -, hs⟩ | ⟨-, -, -, hs⟩ | ⟨-, -, -, hs⟩ <;> rw [hs] at hs'
    · simp at hs'
    · exact absurd hs' tryAquireDone_ne_lockFailed
    · exact absurd hs' tryAquireDone_ne_lockFailed
    · simp at hs'
  | tryAquireBand ret wtr got n =>
    rw [hpc] at h; cases h
    rcases @tryAquireBandStep_cases L s t wtr ret got n with ⟨-, hs⟩ | ⟨-, hs⟩ <;> rw [hs] at hs'
    · exact absurd hs' tryAquireDone_ne_lockFailed
    · simp at hs'
  | sleep locks₀ phase =>
    rw [hpc] at h; cases h
    cases phase <;> simp only [sleepStep] at hs' <;> (try split_ifs at hs') <;> simp at hs'
  | transferLocks tr n U wake =>
    rw [hpc] at h
    change transferLocksStep L s t tr n U wake = some s' at h
    rcases @transferLocksStep_cases L s t n tr U wake with
      ⟨-, hs⟩ | ⟨-, -, hs⟩ | ⟨-, -, -, hs⟩ | ⟨-, -, wq, w, -, hs⟩ <;> rw [hs] at h <;> cases h <;>
      simp only [update_same] at hs'
    · split_ifs at hs'
    · simp at hs'
    · split_ifs at hs'
  | wakeClear wake =>
    cases wake with
    | nil => rw [hpc] at h; cases h
    | cons w wake => rw [hpc] at h; cases h; simp at hs'
  | wakeSet w wake => rw [hpc] at h; cases h; simp only [update_same] at hs'; split_ifs at hs'
  | idle => rw [hpc] at h; cases h
  | waitForLocks locks₀ | unlockFailed locks₀ =>
    rw [hpc] at h; simp only [run] at h
    split_ifs at h
    cases h; simp at hs'

/-- **Every step keeps `SpinBound`**: the lock fast path enters the spin loop with both counts at
the count of its thread, and the loop counts `spin_count` down or restarts it. -/
theorem spinBound_step (hb : SpinBound c s) {a : Act} (hst : step L c s a = some s') :
    SpinBound c s' := by
  intro u locks need o k k' hu
  by_cases hut : u = a.thread
  · subst hut
    cases a with
    | lock t l =>
      simp only [step] at hst
      split_ifs at hst
      cases hst
      unfold ertsProcLock at hu
      split_ifs at hu
      · exact hb _ _ _ _ _ _ hu
      · simp only [Act.thread, update_same, Pc.lockFailed.injEq] at hu
        exact ⟨hu.2.2.2.1.symm, hu.2.2.2.2 ▸ hu.2.2.2.1 ▸ le_rfl⟩
    | trylock t l =>
      simp only [step] at hst
      split_ifs at hst
      cases hst
      unfold ertsProcRawTrylock at hu
      split_ifs at hu <;> exact hb _ _ _ _ _ _ hu
    | unlock t l =>
      simp only [step] at hst
      split_ifs at hst
      cases hst
      simp only [ertsProcUnlock] at hu
      split_ifs at hu
      · simp [Act.thread] at hu
      · exact hb _ _ _ _ _ _ hu
    | run t =>
      obtain ⟨_, _, _, k₀, hpc, hk⟩ := run_lockFailed hst hu
      obtain ⟨rfl, hk₀⟩ := hb _ _ _ _ _ _ hpc
      exact ⟨rfl, by omega⟩
  · exact hb u locks need o k k' (((moves_step hst).1 u hut) ▸ hu)

/-- `SpinBound` holds in every reachable state. -/
theorem spinBound_reachable {creator : Nat} (h : Reachable L c creator s) : SpinBound c s := by
  induction h with
  | refl => intro t _ _ _ _ _ h; cases h
  | tail _ hst ih => obtain ⟨a, ha⟩ := hst; exact spinBound_step ih ha

/-- **The spin budget**: with the counts `erts_init_proc_lock(cpus)` sets, in every reachable
state a thread in the spin loop of `erts_proc_lock_failed` has `thr_spin_count` of its thread and at
most that many spins left before `wait_for_locks`, from `0` up to
`ERTS_PROC_LOCK_SPIN_COUNT_MAX` in a scheduler thread and up to `ERTS_PROC_LOCK_AUX_SPIN_COUNT` in
another; on one CPU, none. -/
theorem spin_budget {cpus : Int} {n creator : Nat} {isMain : Nat → Bool}
    (h : Reachable L (thrSpinCount (ertsInitProcLock cpus n) isMain) creator s)
    (hpc : s.pc t = .lockFailed locks need o k k') :
    k = thrSpinCount (ertsInitProcLock cpus n) isMain t ∧ k' ≤ k ∧ 0 ≤ k ∧
      k ≤ (if isMain t then spinCountMax else auxSpinCount) ∧ (cpus = 1 → k' ≤ 0) := by
  obtain ⟨rfl, hk⟩ := spinBound_reachable h t locks need o k k' hpc
  obtain ⟨h1, h2, h3, h4, h5⟩ := ertsInitProcLock_bounds cpus n
  refine ⟨rfl, hk, ?_, ?_, fun hc => ?_⟩
  · unfold thrSpinCount; split_ifs <;> assumption
  · unfold thrSpinCount; split_ifs <;> assumption
  · have : thrSpinCount (ertsInitProcLock cpus n) isMain t = 0 := by
      unfold thrSpinCount; split_ifs <;> simp [h5 hc]
    omega

theorem spin_budget_scheduler :
    Reachable fiveLocks (thrSpinCount (ertsInitProcLock 2 4) fun _ => true) 0
        (ertsProcLock (ertsProcLockInit fiveLocks 0) 1 1 1128) ∧
      (ertsProcLock (ertsProcLockInit fiveLocks 0) 1 1 1128).pc 1 =
        .lockFailed 1 1 fiveLocks.all 1128 1128 ∧
      1128 = thrSpinCount (ertsInitProcLock 2 4) (fun _ => true) 1 ∧ (1128 : Int) ≤ 1128 ∧
        0 ≤ (1128 : Int) ∧ (1128 : Int) ≤ (if (fun _ => true : Nat → Bool) 1 then spinCountMax
          else auxSpinCount) ∧ ((2 : Int) = 1 → (1128 : Int) ≤ 0) :=
  have hr : Reachable fiveLocks (thrSpinCount (ertsInitProcLock 2 4) fun _ => true) 0
      (ertsProcLock (ertsProcLockInit fiveLocks 0) 1 1 1128) := .single ⟨.lock 1 1, rfl⟩
  have hpc : (ertsProcLock (ertsProcLockInit fiveLocks 0) 1 1 1128).pc 1 =
      .lockFailed 1 1 fiveLocks.all 1128 1128 := rfl
  ⟨hr, hpc, spin_budget hr hpc⟩

end ProcLock.Spin
