import ProcLock.Frame

/-! # What `try_aquire` does

`try_aquire(lck, wtr)`, run by the holder `t` of the pix lock, is a loop over the locks in
ascending order. Each of its iterations is one or two steps of `t` in `Machine`: the check of the
queue with the `bor` of the lock word, and when it got the lock, the `band` that clears the wait
flag. `runTry` lets `t` take its own steps while it is in the loop, with no other thread between
them.

From a state whose queues are rings listing `qs`, no waiter on two of them (`Abstracts`), where a
queue with waiters has its wait flag set, and where `wtr` is on no queue and needs locks of the
process:

* `tryAquireStep_cases` (in `Machine`): one iteration passes a lock `wtr` does not need, queues
  `wtr` behind the waiters of a lock, queues it after a `bor` that found the lock taken, or takes
  the lock;
* `post_skip`, `post_take`, and `post_none`, `post_queued`, `post_busy`: what the loop does from
  lock `k` on (`TryAquirePost`), for each way an iteration goes on and each way out of the loop;
* `runTry_loop`: with enough steps the loop ends and does what `TryAquirePost` says;
* `try_aquire_post`: entered at lock `0`, the loop takes exactly the locks `wtr` needs below the
  first that is not free (`Takes`), their wait flags clear, and queues `wtr` at the tail of the
  queue of that one (`Stops`) with its wait flag set; it changes no other lock flag, wait flag or
  queue, and leaves in `uflgs` the locks it did not take, so that `wtr` is on a queue exactly when
  `uflgs` is not empty, that of its lowest lock. -/

namespace ProcLock.TryAquire

open Function ProcLock.Bits ProcLock.Queue ProcLock.Machine ProcLock.Invariant ProcLock.Frame

/-! ## Running the loop -/

variable (L : Layout)

/-- Thread `t` taking its own steps, at most `n`, while it is in the loop of `try_aquire`. -/
def runTry (s : St) (t : Nat) : Nat → St
  | 0 => s
  | n + 1 =>
    if (s.pc t).inTry then
      match run L s t (s.pc t) with
      | some s' => runTry s' t n
      | none => s
    else s

/-! ## What the loop is for -/

section Spec

variable (s : St) (qs : Nat → List Nat)

/-- Lock `b` is free at its `bor`: no waiter is queued on it and its lock flag is clear. -/
def Free (b : Nat) : Prop := qs b = [] ∧ s.flags.getLsbD b = false

/-- The loop, entered at lock `k` for the locks `need`, takes lock `b`: every lock of `need` from
`k` up to `b` is free. -/
def Takes (need : ErtsProcLocks) (k b : Nat) : Prop :=
  need.getLsbD b ∧ k ≤ b ∧ ∀ i ≤ b, k ≤ i → need.getLsbD i → Free s qs i

/-- The loop entered at lock `0` stops at lock `b`: the first lock of `need` that is not free. -/
def Stops (need : ErtsProcLocks) (b : Nat) : Prop :=
  need.getLsbD b ∧ ¬ Free s qs b ∧ ∀ i < b, need.getLsbD i → Free s qs i

instance (b : Nat) : Decidable (Free s qs b) := inferInstanceAs (Decidable (_ ∧ _))

instance (need : ErtsProcLocks) (k b : Nat) : Decidable (Takes s qs need k b) :=
  inferInstanceAs (Decidable (_ ∧ _ ∧ _))

instance (need : ErtsProcLocks) (b : Nat) : Decidable (Stops s qs need b) :=
  inferInstanceAs (Decidable (_ ∧ _ ∧ _))

end Spec

/-- The loop of `try_aquire` for `wtr` at lock `k`, with the locks `got` taken: the queues of `s`
are the rings listing `qs`, `wtr` is on none of them, a queue with waiters has its wait flag set,
`wtr` needs locks of the process, and `got` holds those it needs below `k`. -/
structure LoopPre (s : St) (qs : Nat → List Nat) (wtr : Nat) (got : ErtsProcLocks) (k : Nat) :
    Prop where
  queues : Abstracts s.wq qs
  not_queued : ∀ b, wtr ∉ qs b
  queue_wait : ∀ b, qs b ≠ [] → waitFlag L s b
  need_all : InAll L (s.uflgs wtr)
  got : ∀ i, got.getLsbD i ↔ (s.uflgs wtr).getLsbD i ∧ i < k

/-- What the loop of `try_aquire` for `wtr`, entered at lock `k` of `s` with the locks `got` taken,
leaves in `s'`: `wtr` holds the locks `Takes` names, their wait flags clear; it is queued at the
tail of the queue of the lowest lock left in its `uflgs`, with that wait flag set; and `uflgs`
holds the locks it needed and did not get. No other lock flag, wait flag or queue changes, and
no other thread gains or loses a lock. -/
structure TryAquirePost (s s' : St) (qs : Nat → List Nat) (wtr : Nat) (got : ErtsProcLocks)
    (k : Nat) : Prop where
  lock_flag : ∀ b ≤ L.maxBit, s'.flags.getLsbD b ↔ s.flags.getLsbD b ∨ Takes s qs (s.uflgs wtr) k b
  wait_flag : ∀ b ≤ L.maxBit, waitFlag L s' b ↔
    waitFlag L s b ∧ ¬ Takes s qs (s.uflgs wtr) k b ∨ IsLowest (s'.uflgs wtr) b
  uflgs : ∀ b, (s'.uflgs wtr).getLsbD b ↔
    (s.uflgs wtr).getLsbD b ∧ got.getLsbD b = false ∧ ¬ Takes s qs (s.uflgs wtr) k b
  queues : Abstracts s'.wq fun b => if IsLowest (s'.uflgs wtr) b then qs b ++ [wtr] else qs b
  held_wtr : ∀ b, (s'.held wtr).getLsbD b ↔ (s.held wtr).getLsbD b ∨ Takes s qs (s.uflgs wtr) k b
  held_other : ∀ u ≠ wtr, s'.held u = s.held u

variable {L} {s : St} {t wtr : Nat} {ret : Ret} {got : ErtsProcLocks}

theorem runTry_out (h : (s.pc t).inTry = false) (n : Nat) : runTry L s t n = s := by
  cases n <;> simp [runTry, h]

theorem runTry_tryAquire {k : Nat} (h : s.pc t = .tryAquire ret wtr got k) (n : Nat) :
    runTry L s t (n + 1) = runTry L (tryAquireStep L s t ret wtr got k) t n := by
  simp [runTry, h, Pc.inTry, run]

theorem runTry_tryAquireBand {k : Nat} (h : s.pc t = .tryAquireBand ret wtr got k) (n : Nat) :
    runTry L s t (n + 1) = runTry L (tryAquireBandStep L s t ret wtr got k) t n := by
  simp [runTry, h, Pc.inTry, run]

/-! ## The locks taken -/

section Takes

variable {s s2 : St} {qs : Nat → List Nat} {need : ErtsProcLocks} {k b : Nat}

theorem Takes.free (h : Takes s qs need k b) : Free s qs b := h.2.2 b le_rfl h.2.1 h.1

theorem free_of_takes (h : Takes s qs need k b) (hk : need.getLsbD k) : Free s qs k :=
  h.2.2 k h.2.1 le_rfl hk

theorem not_takes_of_none (h : ∀ b, k ≤ b → need.getLsbD b = false) : ¬ Takes s qs need k b :=
  fun ht => absurd ht.1 (by simp [h b ht.2.1])

/-- Past a lock it does not need, the loop takes what it takes from the next one. -/
theorem takes_iff_of_skip (hu : need.getLsbD k = false) :
    Takes s qs need k b ↔ Takes s qs need (k + 1) b := by
  have hne : ∀ {i}, need.getLsbD i → k ≠ i := fun hi e => by simp [e ▸ hu] at hi
  constructor
  · rintro ⟨hb, hkb, hf⟩
    exact ⟨hb, Nat.lt_of_le_of_ne hkb (hne hb), fun i hi hki => hf i hi (by omega)⟩
  · rintro ⟨hb, hkb, hf⟩
    exact ⟨hb, by omega, fun i hi hki hn => hf i hi (Nat.lt_of_le_of_ne hki (hne hn)) hn⟩

/-- At a free lock it needs, the loop takes it, and what it takes from the next lock on in the
state `s2` it leaves, whose lock flags above `k` are those of `s`. -/
theorem takes_iff_of_take (hu : need.getLsbD k) (hfree : Free s qs k)
    (hfl : ∀ i, k < i → need.getLsbD i → s2.flags.getLsbD i = s.flags.getLsbD i) :
    Takes s qs need k b ↔ b = k ∨ Takes s2 qs need (k + 1) b := by
  have hfree2 : ∀ i, k < i → need.getLsbD i → (Free s2 qs i ↔ Free s qs i) := fun i hi hn => by
    simp only [Free, hfl i hi hn]
  constructor
  · rintro ⟨hb, hkb, hf⟩
    rcases Nat.eq_or_lt_of_le hkb with rfl | hlt
    · exact .inl rfl
    · exact .inr ⟨hb, hlt, fun i hi hki hn => (hfree2 i hki hn).mpr (hf i hi (by omega) hn)⟩
  · rintro (rfl | ⟨hb, hkb, hf⟩)
    · exact ⟨hu, le_rfl, fun i hi hki _ => le_antisymm hi hki ▸ hfree⟩
    · refine ⟨hb, by omega, fun i hi hki hn => ?_⟩
      rcases Nat.eq_or_lt_of_le hki with rfl | hlt
      · exact hfree
      · exact (hfree2 i hlt hn).mp (hf i hi hlt hn)

/-- **Where the loop stops**: the lowest lock of `need` the loop from lock `0` does not take is the
first lock of `need` that is not free. -/
theorem isLowest_iff_stops {m : ErtsProcLocks}
    (h : ∀ b, m.getLsbD b ↔ need.getLsbD b ∧ (0 : ErtsProcLocks).getLsbD b = false ∧
      ¬ Takes s qs need 0 b) (b : Nat) :
    IsLowest m b ↔ Stops s qs need b := by
  have hm : ∀ c, m.getLsbD c ↔ need.getLsbD c ∧ ¬ Takes s qs need 0 c := fun c => by simp [h c]
  constructor
  · rintro ⟨hb, hlow⟩
    obtain ⟨hnb, hnt⟩ := (hm b).mp hb
    have hfree : ∀ i < b, need.getLsbD i → Free s qs i := fun i hi hn => by
      by_contra hf
      simpa [hlow i hi] using (hm i).mpr ⟨hn, fun ht => hf ht.free⟩
    refine ⟨hnb, fun hf => hnt ⟨hnb, Nat.zero_le b, fun i hi _ hn => ?_⟩, hfree⟩
    rcases Nat.eq_or_lt_of_le hi with rfl | hlt
    · exact hf
    · exact hfree i hlt hn
  · rintro ⟨hnb, hnf, hfree⟩
    refine ⟨(hm b).mpr ⟨hnb, fun ht => hnf ht.free⟩, fun c hc => Bool.eq_false_iff.mpr fun hmc => ?_⟩
    obtain ⟨hnc, hnt⟩ := (hm c).mp hmc
    exact hnt ⟨hnc, Nat.zero_le c, fun i hi _ hn => hfree i (by omega) hn⟩

end Takes

/-! ## The loop, step by step -/

section Loop

variable {qs : Nat → List Nat} {k : Nat}

/-- The lock flags after the `bor` and the `band` at a lock `k` the loop takes. -/
theorem getLsbD_take_lock (f : ErtsProcLocks) {b : Nat} (hb : b ≤ L.maxBit) :
    ((f ||| (lockBit k <<< L.waiterShift ||| lockBit k)) &&& ~~~(lockBit k <<< L.waiterShift)).getLsbD b =
      (f.getLsbD b || decide (b = k)) := by
  rw [getLsbD_and_not, getLsbD_lock_shift _ hb, Bool.not_false, Bool.and_true, getLsbD_bor_lock _ hb]

/-- The wait flags after the `bor` and the `band` at a lock `k` the loop takes. -/
theorem getLsbD_take_wait (f : ErtsProcLocks) (hk : k ≤ L.maxBit) (b : Nat) :
    ((f ||| (lockBit k <<< L.waiterShift ||| lockBit k)) &&& ~~~(lockBit k <<< L.waiterShift)).getLsbD
      (L.waiterShift + b) = (f.getLsbD (L.waiterShift + b) && !decide (b = k)) := by
  rw [getLsbD_and_not, getLsbD_bor_wait _ hk, getLsbD_shift_add, getLsbD_lockBit]
  by_cases hbk : b = k
  · subst hbk; simp [L.waiter_lt hk, lt_of_le_maxBit hk]
  · simp [hbk]

/-- Past a lock `wtr` does not need, the loop goes on at the next one. -/
theorem LoopPre.skip (h : LoopPre L s qs wtr got k) (hu : (s.uflgs wtr).getLsbD k = false)
    (p : Nat → Pc) : LoopPre L { s with pc := p } qs wtr got (k + 1) where
  queues := h.queues
  not_queued := h.not_queued
  queue_wait := h.queue_wait
  need_all := h.need_all
  got i := by
    rw [h.got]
    refine and_congr_right fun hi => ⟨fun h' => by omega, fun h' => ?_⟩
    rcases Nat.lt_succ_iff_lt_or_eq.mp h' with h' | rfl
    · exact h'
    · simp [hu] at hi

/-- Having taken lock `k`, the loop goes on at the next one in the state `s2` after the `band`. -/
theorem LoopPre.take (h : LoopPre L s qs wtr got k) (hk : k ≤ L.maxBit)
    (hu : (s.uflgs wtr).getLsbD k) (hfree : Free s qs k) {s2 : St}
    (hf2 : s2.flags = (s.flags ||| (lockBit k <<< L.waiterShift ||| lockBit k)) &&&
      ~~~(lockBit k <<< L.waiterShift))
    (hwq : s2.wq = s.wq) (hu2 : s2.uflgs = s.uflgs) :
    LoopPre L s2 qs wtr (got ||| lockBit k) (k + 1) where
  queues := hwq ▸ h.queues
  not_queued := h.not_queued
  queue_wait b hb := by
    have hbk : b ≠ k := fun e => hb (e ▸ hfree.1)
    rw [waitFlag, hf2, getLsbD_take_wait _ hk, decide_eq_false hbk, Bool.not_false, Bool.and_true]
    exact h.queue_wait b hb
  need_all := hu2 ▸ h.need_all
  got i := by
    rw [hu2, BitVec.getLsbD_or, Bool.or_eq_true, h.got, getLsbD_lockBit]
    by_cases hik : i = k
    · subst hik; simp [hu, lt_of_le_maxBit hk]
    · simp only [hik, decide_False, Bool.and_false, Bool.false_eq_true, or_false]
      exact and_congr_right fun _ => by omega

/-- **Nothing left to take**: where `wtr` needs no lock from `k` on, the loop ends at `k`. -/
theorem post_none (h : LoopPre L s qs wtr got k)
    (hnone : ∀ b, k ≤ b → (s.uflgs wtr).getLsbD b = false) :
    TryAquirePost L s (tryAquireDone s t ret wtr got) qs wtr got k := by
  have hnt : ∀ b, ¬ Takes s qs (s.uflgs wtr) k b := fun b => not_takes_of_none hnone
  have hz : ∀ b, ((tryAquireDone s t ret wtr got).uflgs wtr).getLsbD b = false := fun b => by
    rw [tryAquireDone_uflgs, getLsbD_and_not]
    cases hb : (s.uflgs wtr).getLsbD b
    · rfl
    · have hlt : b < k := Nat.lt_of_not_le fun hkb => by simp [hnone b hkb] at hb
      simp [(h.got b).mpr ⟨hb, hlt⟩]
  have hnl : ∀ b, ¬ IsLowest ((tryAquireDone s t ret wtr got).uflgs wtr) b := fun b hb =>
    Bool.false_ne_true ((hz b).symm.trans hb.1)
  exact
    { lock_flag := fun b _ => by rw [tryAquireDone_flags]; exact (or_iff_left (hnt b)).symm
      wait_flag := fun b _ => by
        rw [waitFlag_congr tryAquireDone_flags]; simp only [hnt b, hnl b, not_false_eq_true, and_true, or_false]
      uflgs := fun b => by rw [tryAquireDone_uflgs, getLsbD_and_not]; simp [hnt b]
      queues := by rw [tryAquireDone_wq]; simpa only [hnl, if_false] using h.queues
      held_wtr := fun b => by rw [tryAquireDone_held]; exact (or_iff_left (hnt b)).symm
      held_other := fun u _ => by rw [tryAquireDone_held] }

/-- **Queued at lock `k`**: where `wtr` needs lock `k` and it is not free, the loop queues `wtr` on
it and ends. `s1` is the state `enqueue_waiter` leaves, with the lock flags of `s` and the wait flag
of `k` set. -/
theorem post_enqueue (h : LoopPre L s qs wtr got k) (hu : (s.uflgs wtr).getLsbD k)
    (hnf : ¬ Free s qs k) {s1 : St} (hwq : s1.wq = s.wq.enqueueWaiter k wtr)
    (hu1 : s1.uflgs = s.uflgs) (hh1 : s1.held = s.held)
    (hlock : ∀ b ≤ L.maxBit, s1.flags.getLsbD b = s.flags.getLsbD b)
    (hwait : ∀ b, waitFlag L s1 b ↔ waitFlag L s b ∨ b = k) :
    TryAquirePost L s (tryAquireDone s1 t ret wtr got) qs wtr got k := by
  have hnt : ∀ b, ¬ Takes s qs (s.uflgs wtr) k b := fun b ht => hnf (free_of_takes ht hu)
  have hU : (tryAquireDone s1 t ret wtr got).uflgs wtr = s.uflgs wtr &&& ~~~got := by
    rw [tryAquireDone_uflgs, hu1]
  have hU' : ∀ b, (s.uflgs wtr &&& ~~~got).getLsbD b ↔ (s.uflgs wtr).getLsbD b ∧ k ≤ b := fun b => by
    rw [getLsbD_and_not, Bool.and_eq_true]
    refine and_congr_right fun hb => ?_
    rcases Nat.lt_or_ge b k with hlt | hle
    · simp [(h.got b).mpr ⟨hb, hlt⟩, Nat.not_le.mpr hlt]
    · simp [Bool.eq_false_iff.mpr fun hg => absurd ((h.got b).mp hg).2 (by omega), hle]
  have hk : IsLowest (s.uflgs wtr &&& ~~~got) k := ⟨(hU' k).mpr ⟨hu, le_rfl⟩, fun c hc =>
    Bool.eq_false_iff.mpr fun hc' => absurd ((hU' c).mp hc').2 (by omega)⟩
  have hlow : ∀ b, IsLowest ((tryAquireDone s1 t ret wtr got).uflgs wtr) b ↔ b = k := fun b => by
    rw [hU]; exact ⟨fun hb => hb.unique hk, fun e => e ▸ hk⟩
  have hfifo : (fun b => if IsLowest ((tryAquireDone s1 t ret wtr got).uflgs wtr) b then
      qs b ++ [wtr] else qs b) = fifoEnqueue qs k wtr := funext fun b => by
    by_cases hb : b = k
    · rw [if_pos ((hlow b).mpr hb), fifoEnqueue, hb, update_same]
    · rw [if_neg fun h => hb ((hlow b).mp h), fifoEnqueue, update_noteq hb]
  exact
    { lock_flag := fun b hb => by
        rw [tryAquireDone_flags, hlock b hb]; exact (or_iff_left (hnt b)).symm
      wait_flag := fun b _ => by rw [waitFlag_congr tryAquireDone_flags, hwait, hlow]; simp [hnt b]
      uflgs := fun b => by rw [hU, getLsbD_and_not]; simp [hnt b]
      queues := by rw [tryAquireDone_wq, hwq, hfifo]; exact abstracts_enqueue h.queues h.not_queued
      held_wtr := fun b => by rw [tryAquireDone_held, hh1]; exact (or_iff_left (hnt b)).symm
      held_other := fun u _ => by rw [tryAquireDone_held, hh1] }

/-- **Queued behind waiters**: `try_aquire` finds waiters on a lock `wtr` needs. -/
theorem post_queued (h : LoopPre L s qs wtr got k) (hu : (s.uflgs wtr).getLsbD k) (hq : qs k ≠ []) :
    TryAquirePost L s (tryAquireDone { s with wq := s.wq.enqueueWaiter k wtr } t ret wtr got)
      qs wtr got k :=
  post_enqueue h hu (fun hf => hq hf.1) rfl rfl rfl (fun _ _ => rfl)
    fun _ => ⟨.inl, fun hb => hb.elim id fun e => e ▸ h.queue_wait k hq⟩

/-- **Queued after the `bor`**: the `bor` of `try_aquire` finds taken a lock `wtr` needs. -/
theorem post_busy (h : LoopPre L s qs wtr got k) (hk : k ≤ L.maxBit) (hu : (s.uflgs wtr).getLsbD k)
    (hf : s.flags.getLsbD k) :
    TryAquirePost L s
      (tryAquireDone
        { s with
          flags := s.flags ||| (lockBit k <<< L.waiterShift ||| lockBit k)
          wq := s.wq.enqueueWaiter k wtr } t ret wtr got) qs wtr got k :=
  post_enqueue h hu (fun hfr => by simp [hfr.2] at hf) rfl rfl rfl
    (fun b hb => by
      rw [getLsbD_bor_lock _ hb]
      by_cases hbk : b = k
      · subst hbk; simp [hf]
      · simp [hbk])
    fun b => by simp only [waitFlag, getLsbD_bor_wait _ hk, Bool.or_eq_true, decide_eq_true_eq]

/-- **Taken**: at a free lock `wtr` needs, the loop takes it, clears its wait flag, and goes on in
the state `s2` the `band` leaves. -/
theorem post_take (h : LoopPre L s qs wtr got k) (hk : k ≤ L.maxBit) (hu : (s.uflgs wtr).getLsbD k)
    (hfree : Free s qs k) {s2 s' : St}
    (hf2 : s2.flags = (s.flags ||| (lockBit k <<< L.waiterShift ||| lockBit k)) &&&
      ~~~(lockBit k <<< L.waiterShift))
    (hh2 : s2.held = update s.held wtr (s.held wtr ||| lockBit k)) (hu2 : s2.uflgs = s.uflgs)
    (h' : TryAquirePost L s2 s' qs wtr (got ||| lockBit k) (k + 1)) :
    TryAquirePost L s s' qs wtr got k := by
  have hT : ∀ b, Takes s qs (s.uflgs wtr) k b ↔ b = k ∨ Takes s2 qs (s2.uflgs wtr) (k + 1) b :=
    fun b => by
      rw [hu2]
      refine takes_iff_of_take hu hfree fun i hi hn => ?_
      rw [hf2, getLsbD_take_lock _ (h.need_all i hn), decide_eq_false (by omega), Bool.or_false]
  have hk32 := lt_of_le_maxBit hk
  exact
    { lock_flag := fun b hb => by
        rw [h'.lock_flag b hb, hf2, getLsbD_take_lock _ hb, hT]
        simp only [Bool.or_eq_true, decide_eq_true_eq, or_assoc]
      wait_flag := fun b hb => by
        rw [h'.wait_flag b hb, waitFlag, hf2, getLsbD_take_wait _ hk, hT]
        simp only [waitFlag, Bool.and_eq_true, Bool.not_eq_true', decide_eq_false_iff_not, not_or,
          and_assoc]
      uflgs := fun b => by
        rw [h'.uflgs, hT, hu2, BitVec.getLsbD_or, getLsbD_lockBit]
        by_cases hbk : b = k
        · subst hbk; simp [hk32]
        · simp [hbk]
      queues := h'.queues
      held_wtr := fun b => by
        rw [h'.held_wtr, hh2, update_same, BitVec.getLsbD_or, getLsbD_lockBit, hT]
        by_cases hbk : b = k
        · subst hbk; simp [hk32]
        · simp [hbk]
      held_other := fun u hu => by rw [h'.held_other u hu, hh2, update_noteq hu] }

/-- **Passed**: past a lock `wtr` does not need, the loop does what it does from the next one. -/
theorem post_skip (hu : (s.uflgs wtr).getLsbD k = false) {p : Nat → Pc} {s' : St}
    (h' : TryAquirePost L { s with pc := p } s' qs wtr got (k + 1)) :
    TryAquirePost L s s' qs wtr got k where
  lock_flag b hb := by rw [takes_iff_of_skip hu]; exact h'.lock_flag b hb
  wait_flag b hb := by rw [takes_iff_of_skip hu]; exact h'.wait_flag b hb
  uflgs b := by rw [takes_iff_of_skip hu]; exact h'.uflgs b
  queues := h'.queues
  held_wtr b := by rw [takes_iff_of_skip hu]; exact h'.held_wtr b
  held_other := h'.held_other

end Loop

/-! ## The whole loop -/

section Run

variable {qs : Nat → List Nat}

/-- **The loop of `try_aquire`**, entered at lock `k` with enough steps, ends, having done what
`TryAquirePost` says. Each lock takes one step, or two where the loop takes it. -/
theorem runTry_loop (n : Nat) {k : Nat} (h : LoopPre L s qs wtr got k)
    (hpc : s.pc t = .tryAquire ret wtr got k) (hn : 2 * (L.maxBit + 1 - k) + 1 ≤ n) :
    ((runTry L s t n).pc t).inTry = false ∧ TryAquirePost L s (runTry L s t n) qs wtr got k := by
  induction n using Nat.strong_induction_on generalizing s got k with
  | _ n ih =>
  obtain ⟨m, rfl⟩ : ∃ m, n = m + 1 := ⟨n - 1, by omega⟩
  rw [runTry_tryAquire hpc]
  by_cases hk : L.maxBit < k
  · rw [tryAquireStep_of_lt hk, runTry_out tryAquireDone_inTry]
    exact ⟨tryAquireDone_inTry, post_none h fun b hb => getLsbD_of_inAll h.need_all (by omega)⟩
  have hk' := Nat.le_of_not_lt hk
  have hq := (h.queues.lists k).eq_nil_iff
  rcases @tryAquireStep_cases L s t wtr ret got k hk' with
    ⟨hu, hs⟩ | ⟨hu, hqk, hs⟩ | ⟨hu, hqk, hf, hs⟩ | ⟨hu, hqk, hf, hs⟩ <;> rw [hs]
  · -- a lock `wtr` does not need
    exact And.imp_right (post_skip hu)
      (ih m (by omega) (h.skip hu _) (update_same _ _ _) (by omega))
  · -- waiters on the lock
    rw [runTry_out tryAquireDone_inTry]
    exact ⟨tryAquireDone_inTry, post_queued h hu fun e => hqk (hq.mp e)⟩
  · -- the `bor` finds the lock taken
    rw [runTry_out tryAquireDone_inTry]
    exact ⟨tryAquireDone_inTry, post_busy h hk' hu hf⟩
  · -- the `bor` gets the lock
    have hfree : Free s qs k := ⟨hq.mpr hqk, hf⟩
    obtain ⟨m, rfl⟩ : ∃ j, m = j + 1 := ⟨m - 1, by omega⟩
    rw [runTry_tryAquireBand (update_same _ _ _)]
    rcases tryAquireBandStep_cases with ⟨hall, hs⟩ | ⟨-, hs⟩ <;> rw [hs]
    · -- and it was the last one `wtr` needs
      have hnone : ∀ b, k + 1 ≤ b → (s.uflgs wtr).getLsbD b = false := fun b hb => by
        have hg : got.getLsbD b = false :=
          Bool.eq_false_iff.mpr fun hg => absurd ((h.got b).mp hg).2 (by omega)
        rw [← hall, BitVec.getLsbD_or, getLsbD_lockBit, hg, decide_eq_false (by omega : b ≠ k)]
        simp
      rw [runTry_out tryAquireDone_inTry]
      refine ⟨tryAquireDone_inTry, post_take h hk' hu hfree ?_ ?_ ?_
        (post_none (h.take hk' hu hfree ?_ ?_ ?_) hnone)⟩ <;> rfl
    · refine And.imp_right (post_take h hk' hu hfree ?_ ?_ ?_)
        (ih m (by omega) (h.take hk' hu hfree ?_ ?_ ?_) (update_same _ _ _) (by omega)) <;> rfl

/-- **What `try_aquire` does**: from a state whose queues are rings listing `qs`, where a queue
with waiters has its wait flag set, and where `wtr` is on no queue and needs locks of the process,
the loop of `try_aquire` entered at lock `0` with nothing taken ends within `2 * maxBit + 3` steps.
It takes the locks `wtr` needs up to the first that is not free and clears their wait flags, and
queues `wtr` at the tail of the queue of that lock, with its wait flag set (`TryAquirePost`). That
lock is the lowest left in `uflgs` (`Stops`), and `wtr` is on the queue of a lock exactly when it is
the lowest left in `uflgs`. -/
theorem try_aquire_post (hq : Abstracts s.wq qs) (hw : ∀ b, wtr ∉ qs b)
    (hall : InAll L (s.uflgs wtr)) (hwait : ∀ b, qs b ≠ [] → waitFlag L s b)
    (hpc : s.pc t = .tryAquire ret wtr 0 0) (n : Nat) (hn : 2 * L.maxBit + 3 ≤ n) :
    ((runTry L s t n).pc t).inTry = false ∧ TryAquirePost L s (runTry L s t n) qs wtr 0 0 ∧
      (∀ b, IsLowest ((runTry L s t n).uflgs wtr) b ↔ Stops s qs (s.uflgs wtr) b) ∧
      ∀ b l, (runTry L s t n).wq.Lists b l →
        (wtr ∈ l ↔ IsLowest ((runTry L s t n).uflgs wtr) b) := by
  obtain ⟨hin, hpost⟩ := runTry_loop n ⟨hq, hw, hwait, hall, fun i => by simp⟩ hpc (by omega)
  refine ⟨hin, hpost, isLowest_iff_stops hpost.uflgs, fun b l hl => ?_⟩
  obtain rfl := Ring.unique (hpost.queues.lists b) hl
  split_ifs with hb
  · simp [hb]
  · simp [hb, hw b]

/-- Thread `0` enters the loop of `try_aquire` for itself, needing locks `0`, `1` and `2` of five,
while thread `1` holds lock `1`. -/
def tryAquireExample : St :=
  { ertsProcLockInit fiveLocks 1 with
    flags := lockBit 1
    held := fun u => if u = 1 then lockBit 1 else 0
    uflgs := fun _ => 7
    pc := fun _ => .tryAquire (.waitForLocks 7) 0 0 0 }

theorem try_aquire_post_example :
    InAll fiveLocks (tryAquireExample.uflgs 0) ∧
      ((runTry fiveLocks tryAquireExample 0 11).pc 0).inTry = false ∧
      TryAquirePost fiveLocks tryAquireExample (runTry fiveLocks tryAquireExample 0 11)
        (fun _ => []) 0 0 0 ∧
      (∀ b, IsLowest ((runTry fiveLocks tryAquireExample 0 11).uflgs 0) b ↔
        Stops tryAquireExample (fun _ => []) (tryAquireExample.uflgs 0) b) ∧
      ∀ b l, (runTry fiveLocks tryAquireExample 0 11).wq.Lists b l →
        (0 ∈ l ↔ IsLowest ((runTry fiveLocks tryAquireExample 0 11).uflgs 0) b) :=
  have hall : InAll fiveLocks (tryAquireExample.uflgs 0) := inAll_of_and_not_all (by decide)
  have hq : Abstracts tryAquireExample.wq fun _ => [] :=
    ⟨fun _ => rfl, fun _ _ _ h => absurd h (List.not_mem_nil _)⟩
  ⟨hall, try_aquire_post hq (fun _ => List.not_mem_nil _) hall (fun _ h => absurd rfl h) rfl 11
    (by decide)⟩

/-- In the example, the loop takes lock `0`, finds lock `1` taken, and queues thread `0` on it. -/
example : (runTry fiveLocks tryAquireExample 0 11).uflgs 0 = 6 ∧
    (runTry fiveLocks tryAquireExample 0 11).wq.queue 1 = some 0 := by
  decide

end Run

end ProcLock.TryAquire
