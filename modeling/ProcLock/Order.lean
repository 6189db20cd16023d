import ProcLock.Step

/-! # In-order acquisition within a process

A thread in `erts_proc_lock` for `locks` owns a prefix of `locks`: the spin loop takes
`in_order_locks` (the wanted locks below the lowest busy one), and `try_aquire` and
`transfer_locks` take the lowest lock it still needs. This is `Acquiring.upper` of the
invariant.

* `in_order`: in every reachable state the locks of `locks` a thread owns lie below those it
  does not; while it sleeps in `wait_for_locks` needing more, it is on the queue of the lowest
  lock of `locks` it does not own, or `transfer_locks` runs `try_aquire` for it and it is on no
  queue;
* `parked_off_queue`: the second case happens. A thread asking for locks `0` and `1` of a
  process whose creator holds them sleeps on queue `0`; the creator unlocks `0`, and
  `transfer_locks` dequeues the sleeper and hands it `0`: it sleeps, does not own `1`, and is on
  no queue. -/

namespace ProcLock.Order

open Function ProcLock.Bits ProcLock.Queue ProcLock.Machine ProcLock.Invariant ProcLock.Frame
open ProcLock.Step

variable {L : Layout} {c : Nat → Int} {s : St} {creator : Nat}

/-- The locks of `locks` a thread does not own are those it still needs. -/
theorem unowned_iff {held locks need : ErtsProcLocks} (h : Acquiring held locks need) (i : Nat) :
    (locks &&& ~~~held).getLsbD i ↔ need.getLsbD i := by
  rw [getLsbD_and_not, Bool.and_eq_true, Bool.not_eq_true']
  constructor
  · rintro ⟨hl, hh⟩
    by_contra hn
    rw [h.holds i hl (by simpa using hn)] at hh; cases hh
  · exact fun hn => ⟨h.sub i hn, h.disj i hn⟩

/-- The locks of `locks` a thread in `erts_proc_lock` owns form a prefix of `locks`. -/
def InOrder (s : St) : Prop :=
  ∀ t locks need, request s t = some (locks, need) →
    ∀ i j, i < j → locks.getLsbD i → locks.getLsbD j → (s.held t).getLsbD j → (s.held t).getLsbD i

/-- A thread asleep in `wait_for_locks`, with `b` the lowest lock of `locks` it does not own,
is on the queue of `b`, or `transfer_locks` runs `try_aquire` for it and it is on no queue. -/
def ParkedPlace (s : St) : Prop :=
  ∀ t locks phase, s.pc t = .sleep locks phase → ∀ b, IsLowest (locks &&& ~~~s.held t) b →
    (∃ l, s.wq.Lists b l ∧ t ∈ l) ∨
      (∃ r, (s.pc r).flight = some t) ∧ ∀ c l, s.wq.Lists c l → t ∉ l

/-- A queued waiter is not in the hands of `transfer_locks`: it needs all of `uflgs`. -/
theorem flightGot_of_queued {qs : Nat → List Nat} (hi : Inv L s qs) {t b : Nat}
    (hq : t ∈ qs b) : flightGot s t = 0 := by
  unfold flightGot
  cases hp : s.pix with
  | none => rfl
  | some r =>
    have hfl := hi.places.queued_flight b t r hq
    simp only
    generalize s.pc r = p at hfl
    cases p with
    | tryAquire ret w got n =>
      cases ret with
      | waitForLocks => rfl
      | transferLocks =>
        by_cases hw : w = t
        · exact absurd (by rw [hw]; rfl) hfl
        · simp [Pc.flightGot, hw]
    | tryAquireBand ret w got n =>
      cases ret with
      | waitForLocks => rfl
      | transferLocks =>
        by_cases hw : w = t
        · exact absurd (by rw [hw]; rfl) hfl
        · simp [Pc.flightGot, hw]
    | _ => rfl

/-- **In-order locking**: a thread owns a prefix of the locks it asks for, and while it sleeps
needing more it is on the queue of the lowest lock it does not own, unless `transfer_locks`
runs `try_aquire` for it, and then it is on no queue. -/
theorem in_order (h : Reachable L c creator s) : InOrder s ∧ ParkedPlace s := by
  obtain ⟨qs, hi⟩ := inv_reachable h
  refine ⟨fun t locks need hreq i j hij hi' hj hhj => ?_, fun t locks phase hpc b hb => ?_⟩
  · have hacq := (hi.acquiring t locks need hreq).2
    by_contra hni
    have hn : need.getLsbD i :=
      (unowned_iff hacq i).mp (by rw [getLsbD_and_not, hi', Bool.eq_false_iff.mpr hni]; rfl)
    have hnj : need.getLsbD j = false := by
      cases hnj : need.getLsbD j
      · rfl
      · rw [hacq.disj j hnj] at hhj; cases hhj
    exact absurd (hacq.upper j i hj hnj hn) (by omega)
  · have hreq : request s t = some (locks, s.uflgs t &&& ~~~flightGot s t) := by
      simp only [request, hpc]
    have hacq := (hi.acquiring t locks _ hreq).2
    rcases hi.places.sleeping t locks phase hpc with ⟨-, hpl⟩ | ⟨-, hu0, -⟩
    · rcases hpl with ⟨c, hc⟩ | hfl | ⟨r, hr⟩
      · -- on a queue: that of the lowest lock it needs
        left
        have hlow : IsLowest (locks &&& ~~~s.held t) c := by
          have hq := hi.places.queued c t hc
          refine ⟨(unowned_iff hacq c).mpr ?_, fun i hi' => (Bool.not_eq_true _).mp fun h' => ?_⟩
          · rw [flightGot_of_queued hi hc, and_not_zero]; exact hq.1
          · have := (unowned_iff hacq i).mp h'
            rw [flightGot_of_queued hi hc, and_not_zero, hq.2 i hi'] at this; cases this
        rw [hb.unique hlow]
        exact ⟨qs c, hi.queues.ring c, hc⟩
      · -- in the hands of `transfer_locks`: off every queue
        obtain ⟨r, hr⟩ := hfl
        exact .inr ⟨⟨r, hr⟩, fun c l hl ht =>
          hi.places.queued_flight c t r (lists_eq hi hl ▸ ht) hr⟩
      · -- on a wake list: it owns all its locks
        have h0 : s.uflgs t = 0 := hi.places.wake_done r t hr
        have := (unowned_iff hacq b).mp hb.1
        rw [h0] at this; simp at this
    · have := (unowned_iff hacq b).mp hb.1
      rw [hu0] at this; simp at this

/-- Thread `1` asks for locks `0` and `1`; `transfer_locks` of the creator has handed it lock `0`
and runs `try_aquire` for it. -/
theorem in_order_flight :
    ∃ s, runActs fiveLocks (fun _ => 0) (ertsProcLockInit fiveLocks 0)
        [.lock 1 3, .run 1, .run 1, .run 1, .unlock 0 1, .run 0, .run 0] = some s ∧
      s.pc 1 = .sleep 3 .reset ∧ s.held 1 = 1 ∧ (s.pc 0).flight = some 1 ∧
      Reachable fiveLocks (fun _ => 0) 0 s ∧ InOrder s ∧ ParkedPlace s := by
  have hrun : runActs fiveLocks (fun _ => 0) (ertsProcLockInit fiveLocks 0)
      [.lock 1 3, .run 1, .run 1, .run 1, .unlock 0 1, .run 0, .run 0] = some _ := rfl
  have hr : Reachable fiveLocks (fun _ => 0) 0 _ := runActs_reachable hrun
  exact ⟨_, hrun, by decide, by decide, by decide, hr, in_order hr⟩

/-- **A sleeper off every queue**: after `transfer_locks` has dequeued it and handed it lock
`0`, a thread asking for locks `0` and `1` sleeps in `wait_for_locks`, does not own `1`, the
lowest lock it does not own, and is on no queue. -/
theorem parked_off_queue :
    ∃ s, Reachable fiveLocks (fun _ => 0) 0 s ∧ s.pc 1 = .sleep 3 .reset ∧
      IsLowest (3 &&& ~~~s.held 1) 1 ∧ ∀ b l, s.wq.Lists b l → 1 ∉ l := by
  obtain ⟨s, hrun, hpc, hheld, hfl⟩ : ∃ s, runActs fiveLocks (fun _ => 0)
      (ertsProcLockInit fiveLocks 0)
      [.lock 1 3, .run 1, .run 1, .run 1, .unlock 0 1, .run 0, .run 0] = some s ∧
      s.pc 1 = .sleep 3 .reset ∧ s.held 1 = 1 ∧ (s.pc 0).flight = some 1 :=
    ⟨_, rfl, by decide, by decide, by decide⟩
  have hr : Reachable fiveLocks (fun _ => 0) 0 s := runActs_reachable hrun
  obtain ⟨qs, hi⟩ := inv_reachable hr
  refine ⟨s, hr, hpc, by rw [hheld]; decide, fun b l hl h1 => ?_⟩
  exact hi.places.queued_flight b 1 0 (lists_eq hi hl ▸ h1) hfl

end ProcLock.Order
