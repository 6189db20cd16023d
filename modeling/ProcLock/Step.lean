import ProcLock.Transfer

/-! # Every reachable state satisfies the invariant

The step lemmas of the fast paths, of `erts_proc_lock_failed` and `wait_for_locks`, of
`try_aquire` and of `transfer_locks` together:

* `inv_step`: every step keeps `Inv`, the queues moving by at most one enqueue or dequeue
  (`QueueMove`);
* `inv_reachable`: every state reachable from `erts_proc_lock_init` satisfies `Inv`;
* `queues_unique`: the queue lists of `Inv` are those of the rings of the state, so a statement
  about them is one about the code's queues;
* `runActs_reachable`: a sequence of actions that can all be taken is a run. -/

namespace ProcLock.Step

open Function ProcLock.Bits ProcLock.Queue ProcLock.Machine ProcLock.Invariant ProcLock.Frame
open ProcLock.FastPath ProcLock.Acquire ProcLock.Transfer

variable {L : Layout} {c : Nat → Int} {s s' : St} {qs : Nat → List Nat}

/-- The next action of the slow path of `t` keeps the invariant. -/
theorem inv_run {t : Nat} (hi : Inv L s qs) (h : run L s t (s.pc t) = some s') :
    ∃ qs', Inv L s' qs' ∧ QueueMove qs qs' := by
  cases hpc : s.pc t with
  | idle => rw [hpc] at h; cases h
  | lockFailed locks need o c k =>
    rw [hpc] at h; cases h; exact ⟨qs, inv_lockFailedStep hi hpc, .keep⟩
  | waitForLocks locks =>
    rw [hpc] at h; simp only [run] at h
    split_ifs at h with hpix
    cases h; exact ⟨qs, inv_pixWait hi hpc hpix, .keep⟩
  | tryAquire ret wtr got n => rw [hpc] at h; cases h; exact inv_tryAquireStep hi hpc
  | tryAquireBand ret wtr got n =>
    rw [hpc] at h; cases h; exact ⟨qs, inv_tryAquireBandStep hi hpc, .keep⟩
  | sleep locks phase => rw [hpc] at h; cases h; exact ⟨qs, inv_sleepStep hi hpc, .keep⟩
  | unlockFailed T =>
    rw [hpc] at h; simp only [run] at h
    split_ifs at h with hpix
    cases h; exact ⟨qs, inv_pixUnlock hi hpc hpix, .keep⟩
  | transferLocks tr n U wake =>
    rw [hpc] at h
    obtain ⟨s'', h', hinv⟩ := inv_transferLocksStep hi hpc
    rw [run, h'] at h; cases h; exact hinv
  | wakeClear wake =>
    cases wake with
    | nil => rw [hpc] at h; cases h
    | cons w wake => rw [hpc] at h; cases h; exact ⟨qs, inv_wakeClear hi hpc, .keep⟩
  | wakeSet w wake => rw [hpc] at h; cases h; exact ⟨qs, inv_wakeSet hi hpc, .keep⟩

/-- **Every step keeps the invariant**, the queues moving by at most one enqueue or dequeue. -/
theorem inv_step (hi : Inv L s qs) {a : Act} (h : step L c s a = some s') :
    ∃ qs', Inv L s' qs' ∧ QueueMove qs qs' := by
  cases a with
  | lock t locks =>
    simp only [step] at h
    split_ifs at h with hg
    cases h
    exact ⟨qs, inv_ertsProcLock hi hg.1 (inAll_of_and_not_all hg.2.1) hg.2.2 _, .keep⟩
  | trylock t locks =>
    simp only [step] at h
    split_ifs at h with hg
    cases h
    exact ⟨qs, inv_ertsProcRawTrylock hi hg.1 (inAll_of_and_not_all hg.2.1), .keep⟩
  | unlock t locks =>
    simp only [step] at h
    split_ifs at h with hg
    cases h
    exact ⟨qs, inv_ertsProcUnlock hi hg.1 hg.2, .keep⟩
  | run t => exact inv_run hi h

/-- **Every reachable state satisfies the invariant.** -/
theorem inv_reachable {creator : Nat} (h : Reachable L c creator s) : ∃ qs, Inv L s qs := by
  induction h with
  | refl => exact ⟨_, inv_init L creator⟩
  | tail _ hst ih =>
    obtain ⟨qs, hi⟩ := ih
    obtain ⟨a, ha⟩ := hst
    obtain ⟨qs', hi', -⟩ := inv_step hi ha
    exact ⟨qs', hi'⟩

/-- The queue lists of the invariant are those of the rings of the state. -/
theorem queues_unique {qs' : Nat → List Nat} (hi : Inv L s qs) (hi' : Inv L s qs') : qs = qs' :=
  funext fun b => Ring.unique (hi.queues.ring b) (hi'.queues.ring b)

/-- A list a queue of a state satisfying the invariant lists is its queue list. -/
theorem lists_eq (hi : Inv L s qs) {b : Nat} {l : List Nat} (hl : s.wq.Lists b l) : l = qs b :=
  Ring.unique hl (hi.queues.ring b)

/-! ## Runs of given actions -/

/-- The state a sequence of actions leads to, when each of them can be taken. -/
def runActs (L : Layout) (c : Nat → Int) (s : St) : List Act → Option St
  | [] => some s
  | a :: as => (step L c s a).bind fun s' => runActs L c s' as

theorem runActs_reachable {as : List Act} (h : runActs L c s as = some s') :
    Relation.ReflTransGen (Step L c) s s' := by
  induction as generalizing s with
  | nil => cases h; exact .refl
  | cons a as ih =>
    simp only [runActs, Option.bind_eq_some] at h
    obtain ⟨s₁, h₁, h₂⟩ := h
    exact .head ⟨a, h₁⟩ (ih h₂)

end ProcLock.Step
