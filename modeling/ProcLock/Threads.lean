import ProcLock.Fifo

/-! # What a step does to the threads

What a system of many processes needs to know of one step of the lock of one process:

* `moves_step`: only the thread taking a step moves; it goes on asking for the locks it asked
  for in `erts_proc_lock`, if any, unless it calls `erts_proc_lock`, and then its locks are as
  they were until it gets some;
* `gains_step`: a thread gains a lock in a step only if it needs that lock in `erts_proc_lock`, or
  if it gets the lock by the fast path of `erts_proc_lock` or `erts_proc_raw_trylock__`, outside
  the lock code before and after. -/

namespace ProcLock.Threads

open Function ProcLock.Bits ProcLock.Machine ProcLock.Invariant ProcLock.Frame ProcLock.Acquire
open ProcLock.Transfer ProcLock.Step ProcLock.Fifo

variable {L : Layout} {c : Nat → Int} {s s' : St} {qs : Nat → List Nat} {t : Nat}

/-- A thread in `erts_proc_lock` asks for the locks of its request. -/
theorem asking_of_request {u : Nat} {locks need : ErtsProcLocks}
    (h : request s u = some (locks, need)) : (s.pc u).asking = some locks := by
  unfold request at h
  split at h <;> rename_i hpc <;> simp only [Option.some.injEq, Prod.mk.injEq, reduceCtorEq] at h
  all_goals rw [hpc, ← h.1]; rfl

/-! ## Where the threads are -/

/-- Only thread `t` moves, and it asks for nothing or for the locks it asked for. -/
structure Moves (s s' : St) (t : Nat) : Prop where
  others : ∀ u, u ≠ t → s'.pc u = s.pc u
  asking : (s'.pc t).asking = none ∨ (s'.pc t).asking = (s.pc t).asking

theorem moves_of_pc {p : Pc} (hpc : s'.pc = update s.pc t p)
    (hp : p.asking = none ∨ p.asking = (s.pc t).asking) : Moves s s' t :=
  ⟨fun u hu => by rw [hpc, update_noteq hu], by rw [hpc, update_same]; exact hp⟩

/-- The end of `try_aquire` returns to `wait_for_locks`, asking for the same locks, or to
`transfer_locks`. -/
theorem moves_tryAquireDone {s₀ : St} {ret : Ret} {wtr : Nat} {got : ErtsProcLocks}
    (hs : s₀.pc = s.pc) (hret : ∀ locks, ret = .waitForLocks locks → (s.pc t).asking = some locks) :
    Moves s (tryAquireDone s₀ t ret wtr got) t := by
  cases ret with
  | waitForLocks locks =>
    simp only [tryAquireDone]
    split_ifs
    · exact moves_of_pc (p := .idle) (by rw [← hs]) (.inl rfl)
    · exact moves_of_pc (p := .sleep locks .reset) (by rw [← hs]) (.inr (hret locks rfl).symm)
  | transferLocks tr m U wake =>
    exact moves_of_pc (p := .transferLocks tr (m + 1) U
      (if s₀.uflgs wtr &&& ~~~got = 0 then wtr :: wake else wake)) (by rw [← hs]; rfl) (.inl rfl)

theorem moves_tryAquireStep {ret : Ret} {wtr n : Nat} {got : ErtsProcLocks}
    (hpc : s.pc t = .tryAquire ret wtr got n) : Moves s (tryAquireStep L s t ret wtr got n) t := by
  have hret : ∀ locks, ret = .waitForLocks locks → (s.pc t).asking = some locks := by
    rintro locks rfl; rw [hpc]; rfl
  have hsame : ∀ p : Pc, p.asking = (Pc.tryAquire ret wtr got n).asking → Moves s
      { s with pc := update s.pc t p } t := fun p hp => moves_of_pc rfl (.inr (by rw [hpc, hp]))
  by_cases hmax : L.maxBit < n
  · rw [tryAquireStep_of_lt hmax]; exact moves_tryAquireDone rfl hret
  rcases @tryAquireStep_cases L s t wtr ret got n (Nat.le_of_not_lt hmax) with
    ⟨-, hs⟩ | ⟨-, -, hs⟩ | ⟨-, -, -, hs⟩ | ⟨-, -, -, hs⟩ <;> rw [hs]
  · exact hsame _ (by cases ret <;> rfl)
  · exact moves_tryAquireDone rfl hret
  · exact moves_tryAquireDone rfl hret
  · exact moves_of_pc rfl (.inr (by rw [hpc]; cases ret <;> rfl))

theorem moves_tryAquireBandStep {ret : Ret} {wtr n : Nat} {got : ErtsProcLocks}
    (hpc : s.pc t = .tryAquireBand ret wtr got n) :
    Moves s (tryAquireBandStep L s t ret wtr got n) t := by
  rcases @tryAquireBandStep_cases L s t wtr ret got n with ⟨-, hs⟩ | ⟨-, hs⟩ <;> rw [hs]
  · exact moves_tryAquireDone rfl fun locks e => by rw [hpc, e]; rfl
  · exact moves_of_pc rfl (.inr (by rw [hpc]; cases ret <;> rfl))

/-- `transfer_locks` and its wake-up loop ask for nothing. -/
theorem moves_transferLocksStep {tr U : ErtsProcLocks} {n : Nat} {wake : List Nat}
    (h : transferLocksStep L s t tr n U wake = some s') : Moves s s' t := by
  rcases @transferLocksStep_cases L s t n tr U wake with
    ⟨-, hs⟩ | ⟨-, -, hs⟩ | ⟨-, -, -, hs⟩ | ⟨-, -, wq, w, -, hs⟩ <;> rw [hs] at h <;> cases h
  · exact moves_of_pc rfl (.inl (by split <;> rfl))
  · exact moves_of_pc rfl (.inl rfl)
  · exact moves_of_pc rfl (.inl (by split <;> rfl))

/-- The next action of the slow path of `t` moves `t` only, on the same request. -/
theorem moves_run (h : run L s t (s.pc t) = some s') : Moves s s' t := by
  cases hpc : s.pc t with
  | idle => rw [hpc] at h; cases h
  | lockFailed locks need o k k' =>
    rw [hpc] at h; cases h
    rcases @lockFailedStep_cases s t locks need o k k' with
      ⟨-, hs⟩ | ⟨-, -, -, hs⟩ | ⟨-, -, -, hs⟩ | ⟨-, -, -, hs⟩ | ⟨-, -, -, hs⟩ <;> rw [hs] <;>
      exact moves_of_pc rfl (by simp [hpc, Pc.asking])
  | waitForLocks locks =>
    rw [hpc] at h; simp only [run] at h
    split_ifs at h
    cases h; exact moves_of_pc rfl (.inr (by rw [hpc]; rfl))
  | tryAquire ret wtr got n => rw [hpc] at h; cases h; exact moves_tryAquireStep hpc
  | tryAquireBand ret wtr got n => rw [hpc] at h; cases h; exact moves_tryAquireBandStep hpc
  | sleep locks phase =>
    rw [hpc] at h; cases h
    cases phase with
    | check =>
      simp only [sleepStep]
      split_ifs <;> exact moves_of_pc rfl (by simp [hpc, Pc.asking])
    | reset | wait => exact moves_of_pc rfl (by simp [hpc, Pc.asking])
  | unlockFailed T =>
    rw [hpc] at h; simp only [run] at h
    split_ifs at h
    cases h; exact moves_of_pc rfl (.inl rfl)
  | transferLocks tr n U wake => rw [hpc] at h; exact moves_transferLocksStep h
  | wakeClear wake =>
    cases wake with
    | nil => rw [hpc] at h; cases h
    | cons w wake => rw [hpc] at h; cases h; exact moves_of_pc rfl (.inl rfl)
  | wakeSet w wake => rw [hpc] at h; cases h; exact moves_of_pc rfl (.inl (by split <;> rfl))

/-- **Where a step moves the threads**: only the thread taking it; that thread goes on asking
for what it asked for, unless it calls `erts_proc_lock` and does not get its locks at once. -/
theorem moves_step {a : Act} (h : step L c s a = some s') :
    (∀ u, u ≠ a.thread → s'.pc u = s.pc u) ∧
      ∀ locks, (s'.pc a.thread).asking = some locks →
        (s.pc a.thread).asking = some locks ∨
          (a = .lock a.thread locks ∧ s'.held a.thread = s.held a.thread) := by
  cases a with
  | lock t locks =>
    simp only [step] at h
    split_ifs at h
    cases h
    unfold ertsProcLock
    split_ifs
    · exact ⟨fun _ _ => rfl, fun _ h => .inl h⟩
    · refine ⟨fun u hu => update_noteq hu _ _, fun locks' h => .inr ⟨?_, rfl⟩⟩
      simp only [Act.thread, update_same, Pc.asking, Option.some.injEq] at h
      rw [h]; rfl
  | trylock t locks =>
    simp only [step] at h
    split_ifs at h
    cases h
    unfold ertsProcRawTrylock
    split_ifs <;> exact ⟨fun _ _ => rfl, fun _ h => .inl h⟩
  | unlock t locks =>
    simp only [step] at h
    split_ifs at h
    cases h
    simp only [ertsProcUnlock]
    split_ifs
    · refine ⟨fun u hu => update_noteq hu _ _, fun locks' h => ?_⟩
      simp [Act.thread, Pc.asking] at h
    · exact ⟨fun _ _ => rfl, fun _ h => .inl h⟩
  | run t =>
    have hm := moves_run h
    refine ⟨hm.others, fun locks h' => .inl ?_⟩
    rcases hm.asking with h0 | h1
    · exact absurd (h0.symm.trans h') (by simp)
    · exact h1.symm.trans h'

/-- A thread outside the lock code takes no action of its slow path. -/
theorem run_not_idle (h : step L c s (.run t) = some s') : s.pc t ≠ .idle := fun h0 => by
  simp only [step, h0, run, reduceCtorEq] at h

/-! ## The locks the threads gain -/

/-- Every lock the step from `s` to `s'` gives a thread is one it needs in `s`. -/
def GainsNeeded (s s' : St) : Prop :=
  ∀ u i, (s'.held u).getLsbD i → (s.held u).getLsbD i = false →
    ∃ locks need, request s u = some (locks, need) ∧ need.getLsbD i

theorem gainsNeeded_of_held (h : s'.held = s.held) : GainsNeeded s s' := fun u i hg hng => by
  rw [h, hng] at hg; cases hg

/-- Setting the locks of `t` to `x` gives a lock to `t` only, one of `x`. -/
theorem gain_update {held : Nat → ErtsProcLocks} {x : ErtsProcLocks} {u i : Nat}
    (hg : (update held t x u).getLsbD i) (hng : (held u).getLsbD i = false) :
    u = t ∧ x.getLsbD i := by
  by_cases hu : u = t
  · subst hu; rw [update_same] at hg; exact ⟨rfl, hg⟩
  · rw [update_noteq hu, hng] at hg; cases hg

/-- The spin loop takes only locks it needs. -/
theorem gainsNeeded_lockFailedStep {locks need o : ErtsProcLocks} {k k' : Int}
    (hpc : s.pc t = .lockFailed locks need o k k') :
    GainsNeeded s (lockFailedStep s t locks need o k k') := by
  rcases @lockFailedStep_cases s t locks need o k k' with
    ⟨-, hs⟩ | ⟨-, -, -, hs⟩ | ⟨-, -, -, hs⟩ | ⟨-, -, -, hs⟩ | ⟨-, -, -, hs⟩ <;> rw [hs]
  iterate 3 exact gainsNeeded_of_held rfl
  · intro u i hg hng
    obtain ⟨rfl, hi⟩ := gain_update hg hng
    rw [BitVec.getLsbD_or, hng, Bool.false_or, getLsbD_inOrderLocks, Bool.and_eq_true] at hi
    exact ⟨locks, need, by simp only [request, hpc], hi.1⟩
  · exact gainsNeeded_of_held rfl

/-- The `bor` of `try_aquire` gets `wtr` a lock it needs. -/
theorem gainsNeeded_tryAquireStep (hi : Inv L s qs) {ret : Ret} {wtr n : Nat}
    {got : ErtsProcLocks} (hpc : s.pc t = .tryAquire ret wtr got n) :
    GainsNeeded s (tryAquireStep L s t ret wtr got n) := by
  obtain ⟨htry, hgot⟩ : ThreadInv L s qs t (.tryAquire ret wtr got n) := hpc ▸ hi.threads t
  by_cases hmax : L.maxBit < n
  · rw [tryAquireStep_of_lt hmax]; exact gainsNeeded_of_held tryAquireDone_held
  rcases @tryAquireStep_cases L s t wtr ret got n (Nat.le_of_not_lt hmax) with
    ⟨-, hs⟩ | ⟨-, -, hs⟩ | ⟨-, -, -, hs⟩ | ⟨hbit, -, -, hs⟩ <;> rw [hs]
  · exact gainsNeeded_of_held rfl
  · exact gainsNeeded_of_held tryAquireDone_held
  · exact gainsNeeded_of_held tryAquireDone_held
  · intro u i hg hng
    obtain ⟨rfl, hin⟩ := gain_update hg hng
    rw [BitVec.getLsbD_or, hng, Bool.false_or, getLsbD_lockBit, Bool.and_eq_true,
      decide_eq_true_eq, decide_eq_true_eq] at hin
    obtain ⟨locks, hreq⟩ := request_wtr hi htry (.inl hpc)
    refine ⟨locks, _, hreq, ?_⟩
    have hgn : got.getLsbD n = false := Bool.eq_false_iff.mpr fun h => lt_irrefl n ((hgot n).mp h).2
    rw [hin.2, getLsbD_and_not, hbit, hgn]; rfl

/-- `transfer_locks` hands a lock to the head of its queue, who needs it. -/
theorem gainsNeeded_transferLocksStep (hi : Inv L s qs) {tr U : ErtsProcLocks} {n : Nat}
    {wake : List Nat} (hpc : s.pc t = .transferLocks tr n U wake)
    (h : transferLocksStep L s t tr n U wake = some s') : GainsNeeded s s' := by
  intro u i hg hng
  obtain ⟨s'', h'', qs', hi', -⟩ := inv_transferLocksStep hi hpc
  obtain rfl : s'' = s' := Option.some.inj (h''.symm.trans h)
  cases handOff_transferLocksStep (b := i) hi hi' hpc h with
  | keep _ _ _ held => rw [held, hng] at hg; cases hg
  | transfer r w _ _ _ _ _ hq _ held =>
    obtain rfl := (held u).mp hg
    obtain ⟨locks, hreq, hlow⟩ := request_of_queued hi (hq ▸ List.mem_cons_self u _)
    exact ⟨locks, _, hreq, hlow.1⟩

/-- The next action of the slow path gives a thread only locks it needs. -/
theorem gainsNeeded_run (hi : Inv L s qs) (h : run L s t (s.pc t) = some s') :
    GainsNeeded s s' := by
  cases hpc : s.pc t with
  | idle => rw [hpc] at h; cases h
  | lockFailed locks need o k k' => rw [hpc] at h; cases h; exact gainsNeeded_lockFailedStep hpc
  | waitForLocks locks =>
    rw [hpc] at h; simp only [run] at h
    split_ifs at h
    cases h; exact gainsNeeded_of_held rfl
  | tryAquire ret wtr got n => rw [hpc] at h; cases h; exact gainsNeeded_tryAquireStep hi hpc
  | tryAquireBand ret wtr got n =>
    rw [hpc] at h; cases h
    rcases @tryAquireBandStep_cases L s t wtr ret got n with ⟨-, hs⟩ | ⟨-, hs⟩ <;> rw [hs]
    · exact gainsNeeded_of_held tryAquireDone_held
    · exact gainsNeeded_of_held rfl
  | sleep locks phase =>
    rw [hpc] at h; cases h; exact gainsNeeded_of_held (sleepStep_wq_held s t locks phase).2
  | unlockFailed T =>
    rw [hpc] at h; simp only [run] at h
    split_ifs at h
    cases h; exact gainsNeeded_of_held rfl
  | transferLocks tr n U wake =>
    rw [hpc] at h; exact gainsNeeded_transferLocksStep hi hpc h
  | wakeClear wake =>
    cases wake with
    | nil => rw [hpc] at h; cases h
    | cons w wake => rw [hpc] at h; cases h; exact gainsNeeded_of_held rfl
  | wakeSet w wake => rw [hpc] at h; cases h; exact gainsNeeded_of_held rfl

/-- **The locks a step gives**: a thread gains a lock only if it needs it in `erts_proc_lock`,
or if it gets it by a fast path, outside the lock code before and after. -/
theorem gains_step (hi : Inv L s qs) {a : Act} (h : step L c s a = some s') {u i : Nat}
    (hg : (s'.held u).getLsbD i) (hng : (s.held u).getLsbD i = false) :
    (∃ locks need, request s u = some (locks, need) ∧ need.getLsbD i) ∨
      (u = a.thread ∧ s.pc u = .idle ∧ s'.pc u = .idle) := by
  cases a with
  | lock t locks =>
    simp only [step] at h
    split_ifs at h with hg'
    cases h
    unfold ertsProcLock at hg ⊢
    split_ifs at hg ⊢
    · obtain ⟨rfl, -⟩ := gain_update hg hng
      exact .inr ⟨rfl, hg'.1, hg'.1⟩
    · rw [hng] at hg; cases hg
  | trylock t locks =>
    simp only [step] at h
    split_ifs at h with hg'
    cases h
    unfold ertsProcRawTrylock at hg ⊢
    split_ifs at hg ⊢
    · obtain ⟨rfl, -⟩ := gain_update hg hng
      exact .inr ⟨rfl, hg'.1, hg'.1⟩
    · rw [hng] at hg; cases hg
  | unlock t locks =>
    simp only [step] at h
    split_ifs at h
    cases h
    obtain ⟨rfl, hx⟩ := gain_update hg hng
    rw [getLsbD_and_not, hng] at hx; cases hx
  | run t => exact .inl (gainsNeeded_run hi h u i hg hng)

end ProcLock.Threads
