import ProcLock.Exclusion

/-! # The lock postcondition and the wake-up handshake

`erts_proc_lock_failed` returns in four places: the spin loop with nothing left to take, the end
of `try_aquire` in `wait_for_locks` with nothing left to take (after the loop, or after its last
`band`), and the wait loop once `uaflgs` is clear. `returns_idle` says what each of these steps
leaves: the locks of the thread as they were, and nothing left to take; with the invariant,

* `wakeup_sound`: a thread returns owning all the locks it asked for, on no queue, and from the
  wait path with `uflgs` clear; and a thread in the wait loop with `uaflgs` clear has `uflgs`
  clear, while one with `uflgs` clear and `uaflgs` still set owns all its locks, is on no queue,
  and is on the wake list of a `transfer_locks` that has still to clear its `uaflgs`. -/

namespace ProcLock.Wakeup

open Function ProcLock.Bits ProcLock.Queue ProcLock.Machine ProcLock.Invariant ProcLock.Frame
open ProcLock.Step

variable {L : Layout} {c : Nat → Int} {s s' : St} {creator t : Nat}

/-! ## The steps that return -/

section Returns

variable {locks got : ErtsProcLocks} {wtr n : Nat}

/-- The end of `try_aquire` in `wait_for_locks` returns only with nothing left to take. -/
theorem tryAquireDone_idle (h : (tryAquireDone s t (.waitForLocks locks) wtr got).pc t = .idle) :
    s.uflgs wtr &&& ~~~got = 0 ∧ (tryAquireDone s t (.waitForLocks locks) wtr got).uflgs wtr = 0 := by
  by_cases h0 : s.uflgs wtr &&& ~~~got = 0
  · rw [tryAquireDone_waitForLocks_zero h0]; exact ⟨h0, update_same _ _ _⟩
  · rw [tryAquireDone_waitForLocks h0] at h; simp at h

/-- A step of `try_aquire` that returns from `wait_for_locks` finds nothing left to take, and
leaves the locks as they were. -/
theorem tryAquireStep_idle (h : (tryAquireStep L s t (.waitForLocks locks) wtr got n).pc t = .idle) :
    s.uflgs wtr &&& ~~~got = 0 ∧ (tryAquireStep L s t (.waitForLocks locks) wtr got n).held = s.held ∧
      (tryAquireStep L s t (.waitForLocks locks) wtr got n).uflgs wtr = 0 := by
  by_cases hmax : L.maxBit < n
  · rw [tryAquireStep_of_lt hmax] at h ⊢
    exact ⟨(tryAquireDone_idle h).1, tryAquireDone_held, (tryAquireDone_idle h).2⟩
  rcases @tryAquireStep_cases L s t wtr (.waitForLocks locks) got n (Nat.le_of_not_lt hmax) with
    ⟨-, hs⟩ | ⟨-, -, hs⟩ | ⟨-, -, -, hs⟩ | ⟨-, -, -, hs⟩ <;> rw [hs] at h ⊢
  · simp at h
  · exact ⟨(tryAquireDone_idle h).1, tryAquireDone_held, (tryAquireDone_idle h).2⟩
  · exact ⟨(tryAquireDone_idle h).1, tryAquireDone_held, (tryAquireDone_idle h).2⟩
  · simp at h

theorem tryAquireBandStep_idle
    (h : (tryAquireBandStep L s t (.waitForLocks locks) wtr got n).pc t = .idle) :
    s.uflgs wtr &&& ~~~got = 0 ∧
      (tryAquireBandStep L s t (.waitForLocks locks) wtr got n).held = s.held ∧
      (tryAquireBandStep L s t (.waitForLocks locks) wtr got n).uflgs wtr = 0 := by
  rcases @tryAquireBandStep_cases L s t wtr (.waitForLocks locks) got n with ⟨-, hs⟩ | ⟨-, hs⟩ <;>
    rw [hs] at h ⊢
  · exact ⟨(tryAquireDone_idle h).1, tryAquireDone_held, (tryAquireDone_idle h).2⟩
  · simp at h

/-- The spin loop returns only with nothing left to take. -/
theorem lockFailedStep_idle {need o : ErtsProcLocks} {k k' : Int}
    (h : (lockFailedStep s t locks need o k k').pc t = .idle) :
    need = 0 ∧ (lockFailedStep s t locks need o k k').held = s.held := by
  rcases @lockFailedStep_cases s t locks need o k k' with
    ⟨h0, hs⟩ | ⟨-, -, -, hs⟩ | ⟨-, -, -, hs⟩ | ⟨-, -, -, hs⟩ | ⟨-, -, -, hs⟩ <;> rw [hs] at h ⊢
  · exact ⟨h0, rfl⟩
  all_goals simp at h

/-- The wait loop returns only once `uaflgs` is clear. -/
theorem sleepStep_idle {phase : Phase} (h : (sleepStep s t locks phase).pc t = .idle) :
    s.uaflgs t = 0 ∧ (sleepStep s t locks phase).held = s.held ∧
      (sleepStep s t locks phase).uflgs = s.uflgs := by
  cases phase with
  | check =>
    unfold sleepStep at h ⊢
    split_ifs at h ⊢ with hua
    · exact ⟨hua, rfl, rfl⟩
    · simp at h
  | reset => simp [sleepStep] at h
  | wait => simp [sleepStep] at h

/-- **The steps that return from `erts_proc_lock_failed`**: a step of `t` from a request that
leaves `t` idle finds nothing left to take and leaves its locks as they were; from the wait path,
it leaves `uflgs` clear. -/
theorem returns_idle {qs : Nat → List Nat} (hi : Inv L s qs) {need : ErtsProcLocks}
    (hstep : step L c s (.run t) = some s') (hreq : request s t = some (locks, need))
    (hidle : s'.pc t = .idle) :
    need = 0 ∧ s'.held t = s.held t ∧
      ((∀ n o k k', s.pc t ≠ .lockFailed locks n o k k') → s'.uflgs t = 0) := by
  simp only [step] at hstep
  cases hpc : s.pc t with
  | lockFailed locks' need' o k k' =>
    rw [hpc] at hstep; cases hstep
    simp only [request, hpc, Option.some.injEq, Prod.mk.injEq] at hreq
    obtain ⟨rfl, rfl⟩ := hreq
    obtain ⟨h0, hh⟩ := lockFailedStep_idle hidle
    exact ⟨h0, by rw [hh], fun h => absurd rfl (h _ _ _ _)⟩
  | waitForLocks locks' =>
    rw [hpc] at hstep; simp only [run] at hstep
    split_ifs at hstep
    cases hstep; simp at hidle
  | tryAquire ret wtr got n =>
    rw [hpc] at hstep; cases hstep
    obtain ⟨⟨-, -, hret⟩, -⟩ : ThreadInv L s qs t (.tryAquire ret wtr got n) := hpc ▸ hi.threads t
    cases ret with
    | transferLocks => simp [request, hpc] at hreq
    | waitForLocks locks' =>
      subst hret
      simp only [request, hpc, Option.some.injEq, Prod.mk.injEq] at hreq
      obtain ⟨rfl, rfl⟩ := hreq
      obtain ⟨h0, hh, hu⟩ := tryAquireStep_idle hidle
      exact ⟨h0, by rw [hh], fun _ => hu⟩
  | tryAquireBand ret wtr got n =>
    rw [hpc] at hstep; cases hstep
    obtain ⟨⟨-, -, hret⟩, -⟩ : ThreadInv L s qs t (.tryAquireBand ret wtr got n) :=
      hpc ▸ hi.threads t
    cases ret with
    | transferLocks => simp [request, hpc] at hreq
    | waitForLocks locks' =>
      subst hret
      simp only [request, hpc, Option.some.injEq, Prod.mk.injEq] at hreq
      obtain ⟨rfl, rfl⟩ := hreq
      obtain ⟨h0, hh, hu⟩ := tryAquireBandStep_idle hidle
      exact ⟨h0, by rw [hh], fun _ => hu⟩
  | sleep locks' phase =>
    rw [hpc] at hstep; cases hstep
    simp only [request, hpc, Option.some.injEq, Prod.mk.injEq] at hreq
    obtain ⟨rfl, rfl⟩ := hreq
    obtain ⟨hua, hh, hu⟩ := sleepStep_idle hidle
    have hu0 : s.uflgs t = 0 := by
      rcases hi.places.sleeping t locks' phase hpc with h | h
      · rw [hua] at h; exact absurd h.1 (by decide)
      · exact h.2.1
    exact ⟨by rw [hu0]; ext i; simp, by rw [hh], fun _ => by rw [hu, hu0]⟩
  | idle | unlockFailed _ | transferLocks _ _ _ _ | wakeClear _ | wakeSet _ _ =>
    simp [request, hpc] at hreq

end Returns

/-! ## The postcondition and the handshake -/

/-- A thread returns from `erts_proc_lock_failed` owning all the locks it asked for and on no
queue; from the wait path (`wait_for_locks`), with `uflgs` clear. -/
def ReturnSound (L : Layout) (c : Nat → Int) (s : St) : Prop :=
  ∀ t s' locks need, step L c s (.run t) = some s' → request s t = some (locks, need) →
    s'.pc t = .idle →
    (∀ i, locks.getLsbD i → (s'.held t).getLsbD i) ∧ (∀ b l, s'.wq.Lists b l → t ∉ l) ∧
    ((∀ n o k k', s.pc t ≠ .lockFailed locks n o k k') → s'.uflgs t = 0)

/-- A thread in the wait loop with `uaflgs` clear has `uflgs` clear; one with `uflgs` clear and
`uaflgs` set owns all its locks, is on no queue, and is on the wake list of a `transfer_locks`. -/
def WaitLoopSound (s : St) : Prop :=
  ∀ t locks phase, s.pc t = .sleep locks phase →
    (s.uaflgs t = 0 → s.uflgs t = 0) ∧
    (s.uflgs t = 0 → s.uaflgs t = 1 →
      (∀ i, locks.getLsbD i → (s.held t).getLsbD i) ∧ (∀ b l, s.wq.Lists b l → t ∉ l) ∧
      ∃ r, t ∈ (s.pc r).wake)

/-- A thread that does not sleep is on no queue. -/
theorem not_mem_queue {qs : Nat → List Nat} (hi : Inv L s qs) (ht : ¬ (s.pc t).Sleeping)
    {b : Nat} {l : List Nat} (hl : s.wq.Lists b l) : t ∉ l := fun h =>
  ht (hi.places.placed t (.inl ⟨b, lists_eq hi hl ▸ h⟩)).1

/-- **No lost and no premature wake-up**: `erts_proc_lock_failed` returns owning all the locks
it asked for, and the wait loop is left only once all of them have been handed over. -/
theorem wakeup_sound (h : Reachable L c creator s) : ReturnSound L c s ∧ WaitLoopSound s := by
  obtain ⟨qs, hi⟩ := inv_reachable h
  refine ⟨fun t s' locks need hstep hreq hidle => ?_, fun t locks phase hpc => ?_⟩
  · obtain ⟨qs', hi'⟩ := inv_reachable (h.tail ⟨_, hstep⟩)
    obtain ⟨h0, hh, hu⟩ := returns_idle hi hstep hreq hidle
    have hacq := (hi.acquiring t locks need hreq).2
    refine ⟨fun i hl => ?_, fun b l hl => not_mem_queue hi' (by rw [hidle]; exact id) hl, hu⟩
    rw [hh]; exact hacq.holds i hl (by rw [h0]; simp)
  · rcases hi.places.sleeping t locks phase hpc with ⟨h1, hpl⟩ | ⟨h0, hu0, -⟩
    · refine ⟨fun h => absurd (h.symm.trans h1) (by decide), fun hu _ => ⟨fun i hl => ?_,
        fun b l hl ht => ?_, ?_⟩⟩
      · have hacq := (hi.acquiring t locks (s.uflgs t &&& ~~~flightGot s t)
          (by simp only [request, hpc])).2
        exact hacq.holds i hl (by rw [hu]; simp)
      · have := (hi.places.queued b t (lists_eq hi hl ▸ ht)).1
        rw [hu] at this; simp at this
      · rcases hpl with ⟨b, hb⟩ | ⟨r, hr⟩ | hwk
        · have := (hi.places.queued b t hb).1
          rw [hu] at this; simp at this
        · exact absurd hu (hi.places.flight_need r t hr)
        · exact hwk
    · exact ⟨fun _ => hu0, fun _ h => absurd (h0.symm.trans h) (by decide)⟩

/-- A hand-over in progress: thread `1` sleeps with `uflgs` clear and `uaflgs` still set, on the
wake list of the creator's `transfer_locks`, and thread `2`, which has grabbed lock `4` in the spin
loop, returns at its next step. -/
theorem wakeup_sound_handOver :
    ∃ s, runActs fiveLocks (fun _ => 0) (ertsProcLockInit fiveLocks 0)
        [.unlock 0 16, .lock 2 16, .run 2, .lock 1 1, .run 1, .run 1, .run 1, .unlock 0 1, .run 0,
          .run 0] = some s ∧
      (∃ s', step fiveLocks (fun _ => 0) s (.run 2) = some s' ∧ s'.pc 2 = .idle) ∧
      s.pc 1 = .sleep 1 .reset ∧ s.uflgs 1 = 0 ∧ s.uaflgs 1 = 1 ∧
      Reachable fiveLocks (fun _ => 0) 0 s ∧ ReturnSound fiveLocks (fun _ => 0) s ∧
      WaitLoopSound s := by
  have hrun : runActs fiveLocks (fun _ => 0) (ertsProcLockInit fiveLocks 0)
      [.unlock 0 16, .lock 2 16, .run 2, .lock 1 1, .run 1, .run 1, .run 1, .unlock 0 1, .run 0,
        .run 0] = some _ := rfl
  have hr : Reachable fiveLocks (fun _ => 0) 0 _ := runActs_reachable hrun
  exact ⟨_, hrun, ⟨_, rfl, by decide⟩, by decide, by decide, by decide, hr, wakeup_sound hr⟩

end ProcLock.Wakeup
