import ProcLock.Order

/-! # FIFO hand-off of a lock with waiters

While queue `b` is not empty, the wait flag of `b` is set, and with it the lock flag: the fast
paths, the spin loop and the `bor` of `try_aquire` find `b` taken and do not get it, and the
unlock fast path leaves it to `erts_proc_unlock_failed`. The owner of `b` changes only where
`transfer_locks` dequeues the head of the queue and hands `b` to it, the lock flag left set, and
`enqueue_waiter` appends to the queue. So:

* `handOff_step`: while queue `b` is not empty, a step either leaves the ownership of `b` alone,
  the queue keeping its waiters in order and gaining at most one at its tail, or is
  `transfer_locks` of the owner of `b` handing `b` to the head of the queue (`HandOff`);
* `ahead_run`: over a run, a waiter ahead of `w₂` on queue `b` stays ahead of it until it is
  handed `b`, with `w₂` still on the queue;
* `fifo_handoff`: in every reachable state, the lock flag of a lock with waiters stays set and
  the lock passes only to the head of its queue, so waiters get it in queue order. -/

namespace ProcLock.Fifo

open Function ProcLock.Bits ProcLock.Queue ProcLock.Machine ProcLock.Invariant ProcLock.Frame
open ProcLock.Transfer ProcLock.Step ProcLock.Order

variable {L : Layout} {c : Nat → Int} {s s' : St} {qs qs' : Nat → List Nat} {b : Nat}

/-- What a step `a` from `s` to `s'` does to lock `b`, whose queue lists `q` before the step and
`q'` after it. -/
inductive HandOff (b : Nat) (a : Act) (s s' : St) (q q' : List Nat) : Prop
  /-- No thread gains or loses `b`; the queue keeps its waiters in order and gains at most one,
  at its tail. -/
  | keep (l : List Nat) (hl : l.length ≤ 1) (hq : q' = q ++ l)
      (held : ∀ u, (s'.held u).getLsbD b = (s.held u).getLsbD b)
  /-- `transfer_locks` of the owner `r` of `b`, at `lock_no = b`, dequeues the head `w` of the
  queue and hands `b` to it. -/
  | transfer (r w : Nat) (tr U : ErtsProcLocks) (wake : List Nat) (ha : a = .run r)
      (hpc : s.pc r = .transferLocks tr b U wake) (hq : q = w :: q')
      (owner : (s.held r).getLsbD b) (held : ∀ u, (s'.held u).getLsbD b ↔ u = w)

/-! ## Waiters and their lock -/

/-- A lock with waiters is a lock of the process with its wait flag, and so its lock flag, set. -/
theorem flag_of_queued (hi : Inv L s qs) (hq : qs b ≠ []) :
    b ≤ L.maxBit ∧ waitFlag L s b ∧ s.flags.getLsbD b :=
  ⟨hi.queues.queue_le b hq, hi.queues.queue_wait b hq,
    hi.own.wait_flag b (hi.queues.queue_wait b hq)⟩

/-- A waiter on queue `b` sleeps in `erts_proc_lock` needing all of its `uflgs`, `b` the lowest
of them. -/
theorem request_of_queued (hi : Inv L s qs) {w : Nat} (hw : w ∈ qs b) :
    ∃ locks, request s w = some (locks, s.uflgs w) ∧ IsLowest (s.uflgs w) b := by
  obtain ⟨locks, phase, hpc⟩ := Pc.sleeping_iff.mp (hi.places.placed w (.inl ⟨b, hw⟩)).1
  exact ⟨locks, by simp only [request, hpc, flightGot_of_queued hi hw, and_not_zero],
    hi.places.queued b w hw⟩

/-- A waiter on queue `b` does not own `b`: it still needs it. -/
theorem not_held_of_queued (hi : Inv L s qs) {w : Nat} (hw : w ∈ qs b) :
    (s.held w).getLsbD b = false := by
  obtain ⟨locks, hreq, hlow⟩ := request_of_queued hi hw
  exact (hi.acquiring w locks _ hreq).2.disj b hlow.1

/-- The waiter `try_aquire` runs for is on no queue. -/
theorem wtr_not_queued (hi : Inv L s qs) {t wtr n : Nat} {ret : Ret} {got : ErtsProcLocks}
    (hpc : s.pc t = .tryAquire ret wtr got n) (e : Nat) : wtr ∉ qs e := fun hw => by
  obtain ⟨htry, -⟩ : ThreadInv L s qs t (.tryAquire ret wtr got n) := hpc ▸ hi.threads t
  rcases tryInv_wtr_cases htry with rfl | ⟨tr, m, U, wake, rfl⟩
  · have := (hi.places.placed wtr (.inl ⟨e, hw⟩)).1
    rw [hpc] at this; exact this
  · exact hi.places.queued_flight e wtr t hw (by rw [hpc]; rfl)

/-- Setting the locks of `t` to `x` leaves bit `b` of every thread alone when `x` agrees with
them there. -/
theorem getLsbD_update_held {held : Nat → ErtsProcLocks} {t : Nat} {x : ErtsProcLocks}
    (h : x.getLsbD b = (held t).getLsbD b) (u : Nat) :
    (update held t x u).getLsbD b = (held u).getLsbD b := by
  by_cases hu : u = t
  · subst hu; rwa [update_same]
  · rw [update_noteq hu]

/-! ## The hand-off of one step -/

section Steps

variable (hi : Inv L s qs) (hi' : Inv L s' qs')
include hi hi'

/-- A step that keeps the queues and bit `b` of every thread's locks. -/
theorem handOff_keep {a : Act} (hwq : s'.wq = s.wq)
    (held : ∀ u, (s'.held u).getLsbD b = (s.held u).getLsbD b) :
    HandOff b a s s' (qs b) (qs' b) :=
  .keep [] (Nat.zero_le 1) (by rw [List.append_nil]; exact lists_eq hi (hwq ▸ hi'.queues.ring b))
    held

/-- `enqueue_waiter` of a waiter on no queue appends it to queue `n` and keeps the others. -/
theorem handOff_enqueue {a : Act} {n x : Nat} (hn : n ≤ L.maxBit) (hx : ∀ e, x ∉ qs e)
    (hwq : s'.wq = s.wq.enqueueWaiter n x)
    (held : ∀ u, (s'.held u).getLsbD b = (s.held u).getLsbD b) :
    HandOff b a s s' (qs b) (qs' b) := by
  have hring := (queueInv_enqueue (⟨hi.queues.ring, hi.queues.queue_le, hi.queues.queue_disj,
    fun _ _ => rfl⟩ : QueueInv L s.wq qs fun _ => true) hn hx rfl).ring b
  have hq : qs' b = update qs n (qs n ++ [x]) b := Ring.unique (hi'.queues.ring b) (hwq ▸ hring)
  by_cases hbn : b = n
  · subst hbn; exact .keep [x] le_rfl (by rw [hq, update_same]) held
  · exact .keep [] (Nat.zero_le 1) (by rw [hq, update_noteq hbn, List.append_nil]) held

/-- The spin loop keeps the queues, and takes no lock whose flag it read set. -/
theorem handOff_lockFailedStep {t : Nat} {locks need o : ErtsProcLocks} {k k' : Int}
    (h : lockFailedStep s t locks need o k k' = s') (hflag : s.flags.getLsbD b) :
    HandOff b (.run t) s s' (qs b) (qs' b) := by
  subst h
  rcases @lockFailedStep_cases s t locks need o k k' with
    ⟨-, hs⟩ | ⟨-, -, -, hs⟩ | ⟨-, -, -, hs⟩ | ⟨-, -, hcas, hs⟩ | ⟨-, -, -, hs⟩ <;> rw [hs] at hi' ⊢
  · exact handOff_keep hi hi' rfl fun _ => rfl
  · exact handOff_keep hi hi' rfl fun _ => rfl
  · exact handOff_keep hi hi' rfl fun _ => rfl
  · -- the compare-and-exchange succeeded: the locks it takes are clear in `s.flags`
    have hgb : (inOrderLocks o need).getLsbD b = false := Bool.eq_false_iff.mpr fun hb => by
      rw [getLsbD_inOrderLocks, Bool.and_eq_true, decide_eq_true_eq] at hb
      exact hb.2 b le_rfl ⟨hcas ▸ hflag, hb.1⟩
    exact handOff_keep hi hi' rfl
      (getLsbD_update_held (by rw [BitVec.getLsbD_or, hgb, Bool.or_false]))
  · exact handOff_keep hi hi' rfl fun _ => rfl

/-- A step of `try_aquire`: the `bor` gets only a lock without waiters, and `enqueue_waiter`
appends. -/
theorem handOff_tryAquireStep {t wtr n : Nat} {ret : Ret} {got : ErtsProcLocks}
    (hpc : s.pc t = .tryAquire ret wtr got n) (h : tryAquireStep L s t ret wtr got n = s')
    (hq : qs b ≠ []) : HandOff b (.run t) s s' (qs b) (qs' b) := by
  subst h
  by_cases hmax : L.maxBit < n
  · rw [tryAquireStep_of_lt hmax] at hi' ⊢
    exact handOff_keep hi hi' tryAquireDone_wq fun u => by rw [tryAquireDone_held]
  have hn := Nat.le_of_not_lt hmax
  rcases @tryAquireStep_cases L s t wtr ret got n hn with
    ⟨-, hs⟩ | ⟨-, -, hs⟩ | ⟨-, -, -, hs⟩ | ⟨-, hqueue, -, hs⟩ <;> rw [hs] at hi' ⊢
  · exact handOff_keep hi hi' rfl fun _ => rfl
  · exact handOff_enqueue hi hi' hn (wtr_not_queued hi hpc) tryAquireDone_wq
      fun u => by rw [tryAquireDone_held]
  · exact handOff_enqueue hi hi' hn (wtr_not_queued hi hpc) tryAquireDone_wq
      fun u => by rw [tryAquireDone_held]
  · -- the `bor` got lock `n`, whose queue is empty
    have hnb : n ≠ b := fun e => hq (e ▸ (queue_eq_none_iff hi.queues n).mp hqueue)
    exact handOff_keep hi hi' rfl (getLsbD_update_held (by simp [hnb.symm]))

/-- A step of the loop of `transfer_locks`: at `lock_no = b` it hands `b` to the head of its
queue; at another lock it keeps queue `b` and the owner of `b`. -/
theorem handOff_transferLocksStep {t n : Nat} {tr U : ErtsProcLocks} {wake : List Nat}
    (hpc : s.pc t = .transferLocks tr n U wake) (h : transferLocksStep L s t tr n U wake = some s') :
    HandOff b (.run t) s s' (qs b) (qs' b) := by
  obtain ⟨-, htr⟩ : ThreadInv L s qs t (.transferLocks tr n U wake) := hpc ▸ hi.threads t
  rcases @transferLocksStep_cases L s t n tr U wake with
    ⟨-, hs⟩ | ⟨-, -, hs⟩ | ⟨-, -, -, hs⟩ | ⟨-, hbit, wq', w', hdq', hs⟩ <;> rw [hs] at h <;> cases h
  · exact handOff_keep hi hi' rfl fun _ => rfl
  · exact handOff_keep hi hi' rfl fun _ => rfl
  obtain ⟨hown, -, hne⟩ := htr.ahead n hbit le_rfl
  obtain ⟨w, l, hqn⟩ := List.exists_cons_of_ne_nil hne
  obtain ⟨wq, hdq, hwq, -⟩ := queueInv_dequeue hi.queues hqn
  obtain ⟨rfl, rfl⟩ := Prod.mk.inj (Option.some.inj (hdq.symm.trans hdq'))
  have hwt : w ≠ t := fun e => by
    have := (hi.places.placed w (.inl ⟨n, hqn ▸ List.mem_cons_self w l⟩)).1
    rw [e, hpc] at this; exact this
  have hqs : qs' b = update qs n l b := Ring.unique (hi'.queues.ring b) (hwq.ring b)
  have key := getLsbD_handOver s.held (BitVec.lt_of_getLsbD hown) hwt
  by_cases hbn : b = n
  · subst hbn
    refine .transfer t w tr U wake rfl hpc (by rw [hqs, update_same, hqn]) hown fun u => ?_
    rw [key]
    constructor
    · rintro (⟨hu, hne⟩ | ⟨rfl, -⟩)
      · exact absurd ⟨hi.own.held_unique b u t hu hown, rfl⟩ hne
      · rfl
    · rintro rfl; exact .inr ⟨rfl, rfl⟩
  · refine .keep [] (Nat.zero_le 1) (by rw [hqs, update_noteq hbn, List.append_nil]) fun u => ?_
    rw [Bool.eq_iff_iff, key]
    simp [hbn]

/-- The next action of the slow path of `t`. -/
theorem handOff_run {t : Nat} (h : run L s t (s.pc t) = some s') (hq : qs b ≠ []) :
    HandOff b (.run t) s s' (qs b) (qs' b) := by
  cases hpc : s.pc t with
  | idle => rw [hpc] at h; cases h
  | lockFailed locks need o k k' =>
    rw [hpc] at h; cases h
    exact handOff_lockFailedStep hi hi' rfl (flag_of_queued hi hq).2.2
  | waitForLocks locks =>
    rw [hpc] at h; simp only [run] at h
    split_ifs at h
    cases h; exact handOff_keep hi hi' rfl fun _ => rfl
  | tryAquire ret wtr got n =>
    rw [hpc] at h; cases h; exact handOff_tryAquireStep hi hi' hpc rfl hq
  | tryAquireBand ret wtr got n =>
    rw [hpc] at h; cases h
    rcases @tryAquireBandStep_cases L s t wtr ret got n with ⟨-, hs⟩ | ⟨-, hs⟩ <;> rw [hs] at hi' ⊢
    · exact handOff_keep hi hi' tryAquireDone_wq fun u => by rw [tryAquireDone_held]
    · exact handOff_keep hi hi' rfl fun _ => rfl
  | sleep locks phase =>
    rw [hpc] at h; cases h
    obtain ⟨hwq, hheld⟩ := sleepStep_wq_held s t locks phase
    exact handOff_keep hi hi' hwq fun u => by rw [hheld]
  | unlockFailed T =>
    rw [hpc] at h; simp only [run] at h
    split_ifs at h
    cases h; exact handOff_keep hi hi' rfl fun _ => rfl
  | transferLocks tr n U wake => rw [hpc] at h; exact handOff_transferLocksStep hi hi' hpc h
  | wakeClear wake =>
    cases wake with
    | nil => rw [hpc] at h; cases h
    | cons w wake => rw [hpc] at h; cases h; exact handOff_keep hi hi' rfl fun _ => rfl
  | wakeSet w wake => rw [hpc] at h; cases h; exact handOff_keep hi hi' rfl fun _ => rfl

/-- **The hand-off of a step**: while queue `b` is not empty, no step but `transfer_locks` at `b`
changes the owner of `b`, and that one hands `b` to the head of the queue; the queue moves in
FIFO order. -/
theorem handOff_step {a : Act} (h : step L c s a = some s') (hq : qs b ≠ []) :
    HandOff b a s s' (qs b) (qs' b) := by
  obtain ⟨-, hwait, hflag⟩ := flag_of_queued hi hq
  cases a with
  | lock t locks =>
    simp only [step] at h
    split_ifs at h
    cases h
    have h0 : s.flags ≠ 0 := fun h0 => by simp [h0] at hflag
    exact handOff_keep hi hi' (by simp only [ertsProcLock, if_neg h0])
      fun u => by simp only [ertsProcLock, if_neg h0]
  | trylock t locks =>
    simp only [step] at h
    split_ifs at h
    cases h
    unfold ertsProcRawTrylock at hi' ⊢
    split_ifs at hi' ⊢ with h0
    · have hl : locks.getLsbD b = false := by simpa [hflag] using congrArg (·.getLsbD b) h0
      exact handOff_keep hi hi' rfl
        (getLsbD_update_held (by rw [BitVec.getLsbD_or, hl, Bool.or_false]))
    · exact handOff_keep hi hi' rfl fun _ => rfl
  | unlock t locks =>
    simp only [step] at h
    split_ifs at h
    cases h
    -- the wait flag of `b` is set: the unlock leaves `b` to `erts_proc_unlock_failed`
    have hl : (locks &&& ~~~((s.flags >>> L.waiterShift) &&& locks)).getLsbD b = false := by
      rw [getLsbD_and_not, BitVec.getLsbD_and, BitVec.getLsbD_ushiftRight,
        show s.flags.getLsbD (L.waiterShift + b) = true from hwait]
      cases locks.getLsbD b <;> rfl
    exact handOff_keep hi hi' rfl
      (getLsbD_update_held (by rw [getLsbD_and_not, hl, Bool.not_false, Bool.and_true]))
  | run t => exact handOff_run hi hi' h hq

/-- The lock flag of a lock with waiters stays set. -/
theorem flag_of_handOff (hq : qs b ≠ []) {a : Act} {q q' : List Nat}
    (ho : HandOff b a s s' q q') : s'.flags.getLsbD b := by
  obtain ⟨hb, -, hflag⟩ := flag_of_queued hi hq
  rw [hi'.own.flag_iff b hb]
  cases ho with
  | keep _ _ _ held =>
    obtain ⟨u, hu⟩ := (hi.own.flag_iff b hb).mp hflag
    exact ⟨u, (held u).trans hu⟩
  | transfer r w _ _ _ _ _ _ _ held => exact ⟨w, (held w).mpr rfl⟩

end Steps

/-! ## Runs -/

section Runs

variable {creator w₁ w₂ : Nat}

/-- Over a run from `s`, with `w₁` ahead of `w₂` on queue `b`: `w₁` is still ahead of `w₂`, or a
state of the run has `w₁` owning `b` with `w₂` still on the queue. -/
theorem ahead_run (h : Reachable L c creator s) {l : List Nat} (hl : s.wq.Lists b l)
    (hw : [w₁, w₂].Sublist l) {x : St} (hrun : Relation.ReflTransGen (Step L c) s x) :
    (∃ l, x.wq.Lists b l ∧ [w₁, w₂].Sublist l) ∨
      ∃ m, Relation.ReflTransGen (Step L c) s m ∧ Relation.ReflTransGen (Step L c) m x ∧
        (m.held w₁).getLsbD b ∧ ∃ l, m.wq.Lists b l ∧ w₂ ∈ l := by
  induction hrun with
  | refl => exact .inl ⟨l, hl, hw⟩
  | @tail x y hsx hxy ih =>
    rcases ih with ⟨l, hl, hw⟩ | ⟨m, hsm, hmx, hm⟩
    · obtain ⟨qs, hi⟩ := inv_reachable (h.trans hsx)
      obtain ⟨a, ha⟩ := hxy
      obtain ⟨qs', hi', -⟩ := inv_step hi ha
      obtain rfl := lists_eq hi hl
      rcases handOff_step hi hi' ha (List.ne_nil_of_mem (hw.subset (List.mem_cons_self _ _))) with
        ⟨l', -, hq', -⟩ | ⟨r, w, -, -, -, -, -, hq, -, held⟩
      · exact .inl ⟨qs' b, hi'.queues.ring b, hq' ▸ hw.trans (List.sublist_append_left _ _)⟩
      · rw [hq] at hw
        rcases List.sublist_cons_iff.mp hw with hw' | ⟨r', hr', hsub⟩
        · exact .inl ⟨qs' b, hi'.queues.ring b, hw'⟩
        · -- `w₁` was the head: it now owns `b`, and `w₂` is still queued
          cases hr'
          exact .inr ⟨y, hsx.tail ⟨a, ha⟩, .refl, (held w₁).mpr rfl, qs' b, hi'.queues.ring b,
            hsub.subset (List.mem_singleton_self _)⟩
    · exact .inr ⟨m, hsm, hmx.tail hxy, hm⟩

/-- While queue `b` lists `l ≠ []`, a step keeps the lock flag of `b` set, and what it does to
`b` and its queue is a `HandOff`. -/
def HandOffSound (L : Layout) (c : Nat → Int) (s : St) : Prop :=
  ∀ a s' b l, step L c s a = some s' → s.wq.Lists b l → l ≠ [] →
    s'.flags.getLsbD b ∧ ∃ l', s'.wq.Lists b l' ∧ HandOff b a s s' l l'

/-- Waiters get a lock in queue order: over a run from `s`, a waiter `w₂` behind `w₁` on queue
`b` owns `b` only after a state where `w₁` owns `b` and `w₂` is still on the queue. -/
def FifoOrder (L : Layout) (c : Nat → Int) (s : St) : Prop :=
  ∀ s' b l w₁ w₂, Relation.ReflTransGen (Step L c) s s' → s.wq.Lists b l → [w₁, w₂].Sublist l →
    (s'.held w₂).getLsbD b →
    ∃ m, Relation.ReflTransGen (Step L c) s m ∧ Relation.ReflTransGen (Step L c) m s' ∧
      (m.held w₁).getLsbD b ∧ ∃ l', m.wq.Lists b l' ∧ w₂ ∈ l'

/-- **FIFO hand-off**: while a lock has waiters its lock flag stays set and it passes only from
its owner's `transfer_locks` to the head of its queue; waiters get it in queue order. -/
theorem fifo_handoff (h : Reachable L c creator s) : HandOffSound L c s ∧ FifoOrder L c s := by
  refine ⟨fun a s' b l hst hl hne => ?_, fun s' b l w₁ w₂ hrun hl hw hheld => ?_⟩
  · obtain ⟨qs, hi⟩ := inv_reachable h
    obtain ⟨qs', hi', -⟩ := inv_step hi hst
    obtain rfl := lists_eq hi hl
    have ho := handOff_step hi hi' hst hne
    exact ⟨flag_of_handOff hi hi' hne ho, qs' b, hi'.queues.ring b, ho⟩
  · rcases ahead_run h hl hw hrun with ⟨l', hl', hw'⟩ | hm
    · obtain ⟨qs', hi'⟩ := inv_reachable (h.trans hrun)
      obtain rfl := lists_eq hi' hl'
      have hq : w₂ ∈ qs' b := hw'.subset (by simp)
      rw [not_held_of_queued hi' hq] at hheld
      cases hheld
    · exact hm

/-- Two waiters on the queue of lock `0`, thread `1` ahead of thread `2`. -/
theorem fifo_handoff_two :
    ∃ s, runActs fiveLocks (fun _ => 0) (ertsProcLockInit fiveLocks 0)
        [.lock 1 1, .run 1, .run 1, .run 1, .lock 2 1, .run 2, .run 2, .run 2] = some s ∧
      s.wq.Lists 0 [1, 2] ∧ Reachable fiveLocks (fun _ => 0) 0 s ∧
      HandOffSound fiveLocks (fun _ => 0) s ∧ FifoOrder fiveLocks (fun _ => 0) s := by
  have hrun : runActs fiveLocks (fun _ => 0) (ertsProcLockInit fiveLocks 0)
      [.lock 1 1, .run 1, .run 1, .run 1, .lock 2 1, .run 2, .run 2, .run 2] = some _ := rfl
  have hr : Reachable fiveLocks (fun _ => 0) 0 _ := runActs_reachable hrun
  exact ⟨_, hrun, by decide, hr, fifo_handoff hr⟩

end Runs

end ProcLock.Fifo
