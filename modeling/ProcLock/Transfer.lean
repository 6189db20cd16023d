import ProcLock.Acquire

/-! # `transfer_locks` keeps the invariant

`erts_proc_unlock_failed` takes the pix lock (`inv_pixUnlock`) and runs `transfer_locks` for the
locks the unlock fast path left to it. Lock by lock it dequeues the head of the queue and hands
it the lock, the lock flag staying set (`inv_transfer_dequeue`), and runs `try_aquire` for the
waiter if it needs more. At the end it clears the wait flags of the queues it emptied and
releases the pix lock (`inv_transfer_exit`), then clears `uaflgs` of the waiters that have all
they need and signals them (`inv_wakeClear`, `inv_wakeSet`). `dequeue_waiter` always finds a
waiter: `transferLocksStep` never fails on a reachable state (`transferLocksStep_isSome`). -/

namespace ProcLock.Transfer

open Function ProcLock.Bits ProcLock.Queue ProcLock.Machine ProcLock.Invariant ProcLock.Frame
open ProcLock.FastPath ProcLock.Acquire

variable {L : Layout} {s : St} {qs : Nat → List Nat} {t : Nat}

/-! ## Taking the pix lock in `erts_proc_unlock_failed` -/

theorem inv_pixUnlock (hi : Inv L s qs) {T : ErtsProcLocks} (hpc : s.pc t = .unlockFailed T)
    (hpix : s.pix = none) :
    Inv L { s with pix := some t, pc := update s.pc t (.transferLocks T 0 0 []) } qs := by
  have hout : ∀ u, ¬ (s.pc u).InPix := fun u h => by simp [(hi.pix_iff u).mpr h] at hpix
  obtain ⟨-, hT⟩ : ThreadInv L s qs t (.unlockFailed T) := hpc ▸ hi.threads t
  refine ⟨hi.own, hi.queues, placeInv_frame hi.places (fun r => ?_) (fun w hw => ?_)
    (fun _ _ => rfl) (fun _ _ => rfl), fun b hb hw => ?_, fun u locks need h => ?_, fun r => ?_,
    fun u => ?_⟩
  · by_cases hr : r = t
    · subst hr; simp [hpc, Pc.flight, Pc.wake]
    · simp [update_noteq hr]
  · have hwt : w ≠ t := by rintro rfl; simp [hpc, Pc.Sleeping] at hw
    simp [update_noteq hwt]
  · rcases hi.wait_queue b hb hw with h | ⟨r, hr⟩
    · exact .inl h
    · exact absurd hr.inPix (hout r)
  · by_cases hut : u = t
    · subst hut; simp [request] at h
    · exact acquiring_congr hi h (by simp [flightGot, hpix, Pc.flightGot])
        (update_noteq hut _ _) rfl rfl
  · by_cases hrt : r = t
    · subst hrt; simp [Pc.InPix]
    · simpa [update_noteq hrt, Ne.symm hrt] using hout r
  · by_cases hut : u = t
    · subst hut
      simp only [update_same]
      refine ⟨rfl, fun b hb => hi.own.held_all u b (hT b hb).1, fun b hb _ => ?_,
        fun b hb => by simp at hb, by omega⟩
      obtain ⟨h1, h2⟩ := hT b hb
      refine ⟨h1, h2, ?_⟩
      rcases hi.wait_queue b (hi.own.held_all u b h1) h2 with h | ⟨r, hr⟩
      · exact h
      · exact absurd hr.inPix (hout r)
    · simp only [update_noteq hut]
      exact threadInv_out (hi.threads u) (hout u) rfl rfl fun _ _ => id

/-! ## The loop of `transfer_locks` -/

section Transfer

variable {tr U : ErtsProcLocks} {n : Nat} {wake : List Nat}

/-- `transfer_locks` passes a lock it does not transfer. -/
theorem inv_transfer_skip (hi : Inv L s qs) (hpc : s.pc t = .transferLocks tr n U wake)
    (hn : n ≤ L.maxBit) :
    Inv L { s with pc := update s.pc t (.transferLocks tr (n + 1) U wake) } qs := by
  obtain ⟨hpix, htr⟩ : ThreadInv L s qs t (.transferLocks tr n U wake) := hpc ▸ hi.threads t
  refine inv_setPc_pix hi hpix trivial (by rw [hpc]; rfl) (by rw [hpc]; rfl)
    (fun b h => by rw [hpc] at h; exact h) (by rw [hpc]; rfl) (by simp [request, hpc])
    ⟨hpix, { htr with
      ahead := fun b hb hnb => htr.ahead b hb (by omega)
      unset := fun b hb => by
        obtain ⟨h1, h2⟩ := htr.unset b hb
        exact ⟨by omega, h2⟩
      lockNo_le := by omega }⟩

/-- The end of `transfer_locks`: the wait flags of the emptied queues are cleared, the pix lock
released, and the wake-up loop begins. -/
theorem inv_transfer_exit (hi : Inv L s qs) (hpc : s.pc t = .transferLocks tr n U wake) :
    Inv L { s with flags := s.flags &&& ~~~(U <<< L.waiterShift), pix := none,
                   pc := update s.pc t (if wake = [] then .idle else .wakeClear wake) } qs := by
  obtain ⟨hpix, htr⟩ : ThreadInv L s qs t (.transferLocks tr n U wake) := hpc ▸ hi.threads t
  have hin : (s.pc t).InPix := (hi.pix_iff t).mp hpix
  have hout : ∀ u, u ≠ t → ¬ (s.pc u).InPix := fun u hu h => hu (eq_of_pix hi hpix h)
  have hp : ∀ p : Pc, p = (if wake = [] then .idle else .wakeClear wake) →
      ¬ p.InPix ∧ p.flight = none ∧ p.wake = wake ∧ ¬ p.Sleeping := by
    rintro p rfl; split_ifs with h <;> simp [Pc.InPix, Pc.flight, Pc.wake, Pc.Sleeping, h]
  obtain ⟨hp1, hp2, hp3, hp4⟩ := hp _ rfl
  have hwf : ∀ b, b ≤ L.maxBit → (s.flags &&& ~~~(U <<< L.waiterShift)).getLsbD (L.waiterShift + b) =
      (waitFlag L s b && !U.getLsbD b) := fun b hb => getLsbD_clearWait _ _ hb
  -- the owners of the cleared wait flags sleep
  have hsl : ∀ u b, (s.held u).getLsbD b → U.getLsbD b → (s.pc u).Sleeping := fun u b hu hb => by
    rcases (htr.unset b hb).2.2.2 u hu with h | h | ⟨c, h⟩
    · cases h
    · exact (hi.places.placed u (.inr (.inr ⟨t, by rw [hpc]; exact h⟩))).1
    · exact (hi.places.placed u (.inl ⟨c, h⟩)).1
  refine ⟨ownInv_clearWait hi.own U, { hi.queues with queue_wait := fun b hb => ?_ },
    placeInv_frame hi.places (fun r => ?_) (fun w hw => ?_) (fun _ _ => rfl) (fun _ _ => rfl),
    fun b hb hw => ?_, fun u locks need h => ?_, fun r => ?_, fun u => ?_⟩
  · dsimp only [waitFlag]
    rw [hwf b (hi.queues.queue_le b hb), hi.queues.queue_wait b hb]
    cases hU : U.getLsbD b
    · rfl
    · exact absurd (htr.unset b hU).2.2.1 hb
  · by_cases hr : r = t
    · subst hr; simp only [update_same, hp2, hp3, hpc]; exact ⟨rfl, rfl⟩
    · simp [update_noteq hr]
  · have hwt : w ≠ t := by
      rintro rfl; simp only [update_same] at hw; exact hw.elim hin.not_sleeping hp4
    simp [update_noteq hwt]
  · dsimp only [waitFlag] at hw
    rw [hwf b hb, Bool.and_eq_true, Bool.not_eq_true'] at hw
    rcases wait_queue_pix hi hpix hb hw.1 with h | hr
    · exact .inl h
    · rw [hpc] at hr; exact absurd hw.2 (by simp only [Pc.Pending] at hr; simp [hr])
  · by_cases hut : u = t
    · subst hut
      split_ifs at h <;> simp [request] at h
    · exact acquiring_congr hi h (by simp [flightGot, hpix, hpc, Pc.flightGot])
        (update_noteq hut _ _) rfl rfl
  · by_cases hrt : r = t
    · subst hrt; simpa using hp1
    · simpa [update_noteq hrt, Ne.symm hrt] using hout r hrt
  · by_cases hut : u = t
    · subst hut
      simp only [update_same]
      split_ifs with h
      · trivial
      · exact h
    · simp only [update_noteq hut]
      by_cases hsu : (s.pc u).Sleeping
      · obtain ⟨locks, phase, hw⟩ := Pc.sleeping_iff.mp hsu
        rw [hw]; trivial
      · refine threadInv_out (hi.threads u) (hout u hut) rfl rfl fun b hb hw => ?_
        dsimp only [waitFlag]
        rw [hwf b (hi.own.held_all u b hb), hw]
        cases hU : U.getLsbD b
        · rfl
        · exact absurd (hsl u b hb hU) hsu

/-! ## Handing a lock over -/

/-- `transfer_locks` moves lock `n` from `t` to `w`. -/
theorem getLsbD_handOver (held : Nat → ErtsProcLocks) {w n : Nat} (hn : n < 32) (hwt : w ≠ t)
    (u i : Nat) :
    (update (update held t (held t &&& ~~~lockBit n)) w (held w ||| lockBit n) u).getLsbD i ↔
      (held u).getLsbD i ∧ ¬ (u = t ∧ i = n) ∨ (u = w ∧ i = n) := by
  by_cases huw : u = w
  · subst huw; by_cases hin : i = n <;> simp [hin, hwt, getLsbD_lockBit, hn]
  · by_cases hut : u = t
    · subst hut
      simp only [update_noteq huw, update_same, getLsbD_and_not, getLsbD_lockBit]
      by_cases hin : i = n <;> simp [hin, huw, hn]
    · simp [update_noteq huw, update_noteq hut, huw, hut]

/-- Handing a held lock to another thread keeps one owner per set lock flag. -/
theorem own_handOver {f : ErtsProcLocks} {held : Nat → ErtsProcLocks} (h : OwnInv L f held)
    {w n : Nat} (ht : (held t).getLsbD n) (hwt : w ≠ t) :
    OwnInv L f (update (update held t (held t &&& ~~~lockBit n)) w (held w ||| lockBit n)) := by
  have key := getLsbD_handOver held (BitVec.lt_of_getLsbD ht) hwt
  have hown : ∀ v, (held v).getLsbD n → v = t := fun v hv => h.held_unique n v t hv ht
  refine ⟨h.flags_bits, fun u i hi => ?_, fun b hb => ?_, fun b u v hu hv => ?_, h.wait_flag⟩
  · rcases (key u i).mp hi with ⟨hi, -⟩ | ⟨-, rfl⟩
    · exact h.held_all u i hi
    · exact h.held_all t i ht
  · rw [h.flag_iff b hb]
    constructor
    · rintro ⟨u, hu⟩
      by_cases hbn : b = n
      · exact ⟨w, (key w b).mpr (.inr ⟨rfl, hbn⟩)⟩
      · exact ⟨u, (key u b).mpr (.inl ⟨hu, fun h => hbn h.2⟩)⟩
    · rintro ⟨u, hu⟩
      rcases (key u b).mp hu with ⟨hu, -⟩ | ⟨-, rfl⟩
      · exact ⟨u, hu⟩
      · exact ⟨t, ht⟩
  · rw [key] at hu hv
    rcases hu with ⟨hu, hu'⟩ | ⟨huw, hbn⟩ <;> rcases hv with ⟨hv, hv'⟩ | ⟨hvw, hbn'⟩
    · exact h.held_unique b u v hu hv
    · subst hbn'; exact absurd ⟨hown u hu, rfl⟩ hu'
    · subst hbn; exact absurd ⟨hown v hv, rfl⟩ hv'
    · rw [huw, hvw]

section Dequeue

variable {w : Nat} {l : List Nat} {wq : WaitQueues} {U' : ErtsProcLocks}

/-- `transfer_locks` takes the head `w` of queue `n` and hands it lock `n`; it runs `try_aquire`
for `w` if `w` needs more, and puts it on the wake list if not. -/
theorem inv_transfer_dequeue (hi : Inv L s qs) (hpc : s.pc t = .transferLocks tr n U wake)
    (hn : n ≤ L.maxBit) (hbit : tr.getLsbD n) (hq : qs n = w :: l)
    (hwq : QueueInv L wq (update qs n l) (waitFlag L s))
    (hU' : ∀ b, U'.getLsbD b ↔ U.getLsbD b ∨ (b = n ∧ l = []))
    {s' : St} (hflags : s'.flags = s.flags) (hwq' : s'.wq = wq)
    (huf : s'.uflgs = update s.uflgs w (s.uflgs w &&& ~~~lockBit n))
    (hheld : s'.held =
      update (update s.held t (s.held t &&& ~~~lockBit n)) w (s.held w ||| lockBit n))
    (hua : s'.uaflgs = s.uaflgs) (hpix' : s'.pix = s.pix)
    (hpc' : s'.pc = update s.pc t (if s.uflgs w &&& ~~~lockBit n ≠ 0
      then .tryAquire (.transferLocks tr n U' wake) w 0 0
      else .transferLocks tr (n + 1) U' (w :: wake))) :
    Inv L s' (update qs n l) := by
  obtain ⟨hpix, htr⟩ : ThreadInv L s qs t (.transferLocks tr n U wake) := hpc ▸ hi.threads t
  have hout : ∀ u, u ≠ t → ¬ (s.pc u).InPix := fun u hu h => hu (eq_of_pix hi hpix h)
  obtain ⟨hheld_n, hwait_n, -⟩ := htr.ahead n hbit le_rfl
  have hwn : w ∈ qs n := hq ▸ List.mem_cons_self w l
  obtain ⟨hsl, -⟩ := hi.places.placed w (.inl ⟨n, hwn⟩)
  obtain ⟨locks', phase, hsw⟩ := Pc.sleeping_iff.mp hsl
  have hwt : w ≠ t := by rintro rfl; rw [hpc] at hsw; cases hsw
  have hlow : IsLowest (s.uflgs w) n := hi.places.queued n w hwn
  have hwf : waitFlag L s' = waitFlag L s := waitFlag_congr hflags
  have key := getLsbD_handOver s.held (lt_of_le_maxBit hn) hwt
  -- where `t` goes
  set uf := s.uflgs w &&& ~~~lockBit n with huf_def
  set p : Pc := if uf ≠ 0 then .tryAquire (.transferLocks tr n U' wake) w 0 0
    else .transferLocks tr (n + 1) U' (w :: wake) with hp_def
  obtain ⟨hp_in, hp_fl, hp_wk, hp_wk', hp_sl, hp_pend, hp_fg⟩ : p.InPix ∧
      (∀ v, p.flight = some v ↔ v = w ∧ uf ≠ 0) ∧ (∀ v, v ∈ p.wake ↔ v ∈ wake ∨ (v = w ∧ uf = 0)) ∧
      (p.wake = wake ∨ p.wake = w :: wake) ∧ ¬ p.Sleeping ∧ (∀ b, U'.getLsbD b → p.Pending b) ∧
      ∀ u, p.flightGot u = 0 := by
    by_cases h0 : uf = 0#32 <;>
      simp [hp_def, Pc.InPix, Pc.flight, Pc.wake, Pc.Sleeping, Pc.Pending, Pc.flightGot, Ret.unset,
        Ret.wake, h0, @eq_comm _ w, or_comm]
  have hpt : s'.pc t = p := by rw [hpc', update_same]
  have hpr : ∀ r, r ≠ t → s'.pc r = s.pc r := fun r hr => by rw [hpc', update_noteq hr]
  have hufw : s'.uflgs w = uf := by rw [huf, update_same]
  have hufv : ∀ v, v ≠ w → s'.uflgs v = s.uflgs v := fun v hv => by rw [huf, update_noteq hv]
  have hheldv : ∀ v, v ≠ w → v ≠ t → s'.held v = s.held v := fun v hvw hvt => by
    rw [hheld, update_noteq hvw, update_noteq hvt]
  have hfg : ∀ u, flightGot s' u = 0 := fun u => by simp [flightGot, hpix', hpix, hpt, hp_fg]
  have hfg0 : ∀ u, flightGot s u = 0 := fun u => by simp [flightGot, hpix, hpc, Pc.flightGot]
  -- the waiters left on the queues
  have hwq_notin : ∀ b, w ∉ update qs n l b := fun b hb => by
    by_cases hbn : b = n
    · subst hbn
      rw [update_same] at hb
      have hnd := (hi.queues.ring b).nodup
      rw [hq] at hnd
      exact (List.nodup_cons.mp hnd).1 hb
    · rw [update_noteq hbn] at hb; exact hbn (hi.queues.queue_disj b n w hb hwn)
  have htr' : TransferInv L s' (update qs n l) t (some w) tr (n + 1) U' wake := by
    refine ⟨htr.tr_all, fun b hb hnb => ?_, fun b hb => ?_, by omega⟩
    · have hbn : b ≠ n := by omega
      obtain ⟨h1, h2, h3⟩ := htr.ahead b hb (by omega)
      refine ⟨?_, hwf ▸ h2, by rwa [update_noteq hbn]⟩
      rw [hheld, key]
      exact .inl ⟨h1, fun h => hbn h.2⟩
    · rcases (hU' b).mp hb with hb | ⟨rfl, hl⟩
      · obtain ⟨h1, h2, h3, h4⟩ := htr.unset b hb
        have hbn : b ≠ n := by omega
        refine ⟨by omega, hwf ▸ h2, by rwa [update_noteq hbn], fun u hu => ?_⟩
        rw [hheld, key] at hu
        have hu' : (s.held u).getLsbD b := by
          rcases hu with ⟨hu, -⟩ | ⟨-, rfl⟩
          · exact hu
          · exact absurd rfl hbn
        rcases h4 u hu' with h | h | ⟨c, hc⟩
        · cases h
        · exact .inr (.inl h)
        · by_cases huw : u = w
          · exact .inl (congrArg some huw.symm)
          · refine .inr (.inr ⟨c, ?_⟩)
            by_cases hcn : c = n
            · subst hcn; rw [update_same]; rw [hq] at hc
              exact (List.mem_cons.mp hc).resolve_left huw
            · rwa [update_noteq hcn]
      · refine ⟨by omega, hwf ▸ hwait_n, by rw [update_same, hl], fun u hu => ?_⟩
        rw [hheld, key] at hu
        rcases hu with ⟨hu, hu'⟩ | ⟨huw, -⟩
        · exact absurd ⟨hi.own.held_unique b u t hu hheld_n, rfl⟩ hu'
        · exact .inl (by rw [huw])
  have hthr : ThreadInv L s' (update qs n l) t p := by
    rw [hp_def]
    split_ifs with h0
    · refine ⟨⟨by rw [hpix', hpix], by omega, fun i hi => ?_, htr'⟩, fun i => by simp⟩
      rw [hufw, huf_def, getLsbD_and_not, getLsbD_lockBit, Bool.and_eq_true] at hi
      have hin : i ≠ n := fun e => by simp [e, lt_of_le_maxBit hn] at hi
      have := hlow.2 i
      by_contra hle
      exact absurd (this (by omega)) (by simp [hi.1])
    · exact ⟨by rw [hpix', hpix], transferInv_wake htr'⟩
  refine ⟨hheld ▸ hflags ▸ own_handOver hi.own hheld_n hwt, by rw [hwq', hwf]; exact hwq,
    placeInv_dequeue hi.places hq rfl hwq_notin hpr (by rw [hpc]; rfl)
      (by rw [hpt, hufw]; exact hp_fl) (by rw [hpt, hpc, hufw]; exact hp_wk)
      (by rw [hpt, hpc]; exact hp_wk') (by rw [hpc]; exact id) (by rw [hpt]; exact hp_sl) hufv hua,
    fun b hb hw => ?_, fun u locks need h => ?_, fun r => ?_, fun u => ?_⟩
  · -- wait flags
    rw [hwf] at hw
    by_cases hbn : b = n
    · subst hbn
      by_cases hl : l = []
      · exact .inr ⟨t, hpt ▸ hp_pend b ((hU' b).mpr (.inr ⟨rfl, hl⟩))⟩
      · exact .inl (by rwa [update_same])
    · rcases wait_queue_pix hi hpix hb hw with h | hr
      · exact .inl (by rwa [update_noteq hbn])
      · rw [hpc] at hr; exact .inr ⟨t, hpt ▸ hp_pend b ((hU' b).mpr (.inl hr))⟩
  · -- requests
    by_cases hut : u = t
    · subst hut; rw [request, hpt, hp_def] at h; split_ifs at h
    by_cases huw : u = w
    · subst huw
      have hreq : request s' u = some (locks', uf) := by
        simp only [request, hpr u hut, hsw, hfg, hufw, and_not_zero]
      rw [hreq, Option.some.injEq, Prod.mk.injEq] at h
      obtain ⟨rfl, rfl⟩ := h
      have hold := hi.acquiring u locks' (s.uflgs u)
        (by simp only [request, hsw, hfg0, and_not_zero])
      refine ⟨hold.1, ?_⟩
      rw [hheld, update_same]
      exact acquiring_take hold.2 hlow.1 hlow.2
    · exact acquiring_congr hi h (by rw [hfg, hfg0]) (hpr u hut) (hufv u huw) (hheldv u huw hut)
  · -- the pix lock
    by_cases hrt : r = t
    · subst hrt; rw [hpt, hpix', hpix]; exact iff_of_true rfl hp_in
    · rw [hpr r hrt, hpix']; exact hi.pix_iff r
  · -- the threads
    by_cases hut : u = t
    · subst hut; rw [hpt]; exact hthr
    by_cases huw : u = w
    · subst huw; rw [hpr u hut, hsw]; trivial
    · rw [hpr u hut]
      exact threadInv_out (hi.threads u) (hout u hut) (hufv u huw) (hheldv u huw hut)
        fun b _ h => by rwa [hwf]

end Dequeue

/-- **`transfer_locks` keeps the invariant**: a step of its loop leaves the queues as they were
or takes the head `w` of the queue of one lock `b`; and `dequeue_waiter` always finds a waiter,
so the step never fails. -/
theorem inv_transferLocksStep (hi : Inv L s qs) (hpc : s.pc t = .transferLocks tr n U wake) :
    ∃ s', transferLocksStep L s t tr n U wake = some s' ∧ ∃ qs', Inv L s' qs' ∧
      QueueMove qs qs' := by
  obtain ⟨-, htr⟩ : ThreadInv L s qs t (.transferLocks tr n U wake) := hpc ▸ hi.threads t
  rcases @transferLocksStep_cases L s t n tr U wake with
    ⟨-, hs⟩ | ⟨hexit, -, hs⟩ | ⟨hexit, hbit, hdq, -⟩ | ⟨hexit, hbit, wq, w, hdq, hs⟩
  · -- the end of the loop
    exact ⟨_, hs, qs, inv_transfer_exit hi hpc, .keep⟩
  · -- lock `n` is not transferred
    exact ⟨_, hs, qs, inv_transfer_skip hi hpc (Nat.not_lt.mp (not_or.mp hexit).2), .keep⟩
  all_goals
    have hn : n ≤ L.maxBit := Nat.not_lt.mp (not_or.mp hexit).2
    obtain ⟨-, -, hne⟩ := htr.ahead n hbit le_rfl
    obtain ⟨w', l, hq⟩ := List.exists_cons_of_ne_nil hne
    obtain ⟨wq', hdq', hwq, hnone⟩ := queueInv_dequeue hi.queues hq
    rw [hdq'] at hdq
  · -- `dequeue_waiter` finds the head of the queue
    cases hdq
  · -- lock `n` goes to the head `w` of its queue
    obtain ⟨rfl, rfl⟩ := Prod.mk.inj (Option.some.inj hdq)
    have hU' : ∀ b, (if wq'.queue n = none then U ||| lockBit n else U).getLsbD b ↔
        U.getLsbD b ∨ (b = n ∧ l = []) := fun b => by
      rw [← hnone]
      by_cases h0 : wq'.queue n = none <;> by_cases hb : b = n <;>
        simp [h0, hb, getLsbD_lockBit, lt_of_le_maxBit hn]
    exact ⟨_, hs, _, inv_transfer_dequeue hi hpc hn hbit hq hwq hU' rfl rfl rfl rfl rfl rfl rfl,
      .dequeue n w' l hq⟩

/-! ## The wake-up loop -/

/-- Clearing `uaflgs` of the head `w` of the wake list takes `w` from its place. -/
theorem placeInv_wakeClear {s' : St} (h : PlaceInv s qs) {w : Nat}
    (hpc : s.pc t = .wakeClear (w :: wake)) (hpc' : s'.pc = update s.pc t (.wakeSet w wake))
    (huf : s'.uflgs = s.uflgs) (hua : s'.uaflgs = update s.uaflgs w 0) : PlaceInv s' qs := by
  have hwk : w ∈ (s.pc t).wake := by rw [hpc]; exact List.mem_cons_self w wake
  have hnd : (w :: wake).Nodup := by simpa [hpc, Pc.wake] using h.wake_nodup t
  have hpcv : ∀ v, v ≠ t → s'.pc v = s.pc v := fun v hv => by rw [hpc', update_noteq hv]
  have hfl : ∀ r, (s'.pc r).flight = (s.pc r).flight := fun r => by
    by_cases hr : r = t
    · subst hr; rw [hpc', update_same, hpc]; rfl
    · rw [hpcv r hr]
  have hwk' : ∀ r v, v ∈ (s'.pc r).wake ↔ v ∈ (s.pc r).wake ∧ v ≠ w := fun r v => by
    by_cases hr : r = t
    · subst hr
      rw [hpc', update_same, hpc]
      simp only [Pc.wake, List.mem_cons]
      exact ⟨fun hv => ⟨.inr hv, fun e => (List.nodup_cons.mp hnd).1 (e ▸ hv)⟩,
        fun ⟨hv, hne⟩ => hv.resolve_left hne⟩
    · rw [hpcv r hr]
      exact ⟨fun hv => ⟨hv, fun e => hr (h.wake_unique r t v hv (e ▸ hwk))⟩, fun h => h.1⟩
  have hpl : ∀ v, Placed s' qs v ↔ Placed s qs v ∧ v ≠ w := fun v => by
    simp only [Placed, hfl, hwk']
    constructor
    · rintro (⟨b, hb⟩ | ⟨r, hr⟩ | ⟨r, hr, hne⟩)
      · exact ⟨.inl ⟨b, hb⟩, fun e => h.queued_wake b w t (e ▸ hb) hwk⟩
      · exact ⟨.inr (.inl ⟨r, hr⟩), fun e => h.flight_wake r t w (e ▸ hr) hwk⟩
      · exact ⟨.inr (.inr ⟨r, hr⟩), hne⟩
    · rintro ⟨hb | hr | ⟨r, hr⟩, hne⟩
      · exact .inl hb
      · exact .inr (.inl hr)
      · exact .inr (.inr ⟨r, hr, hne⟩)
  refine ⟨fun b v hv => ?_, fun v hv => ?_, fun v locks phase hv => ?_, fun r v hv => ?_,
    fun b v r hv => ?_, fun b v r hv => ?_, fun r r' v hv => ?_, fun r r' v hv hv' => ?_,
    fun r => ?_, fun r v hv => ?_⟩
  · rw [huf]; exact h.queued b v hv
  · obtain ⟨hv, hne⟩ := (hpl v).mp hv
    obtain ⟨h1, h2⟩ := h.placed v hv
    have hvt : v ≠ t := fun e => by rw [e, hpc] at h1; exact h1
    rw [hpcv v hvt, hua, update_noteq hne]; exact ⟨h1, h2⟩
  · have hvt : v ≠ t := by rintro rfl; rw [hpc', update_same] at hv; cases hv
    rw [hpcv v hvt] at hv
    by_cases hvw : v = w
    · subst hvw
      exact .inr ⟨by rw [hua, update_same], by rw [huf]; exact h.wake_done t v hwk,
        fun hp => ((hpl v).mp hp).2 rfl⟩
    · rw [hua, update_noteq hvw, huf, hpl]
      simpa [hvw] using h.sleeping v locks phase hv
  · rw [huf]; exact h.wake_done r v ((hwk' r v).mp hv).1
  · rw [hfl]; exact h.queued_flight b v r hv
  · rw [hwk']; exact fun h' => h.queued_wake b v r hv h'.1
  · rw [hfl] at hv; rw [hwk']; exact fun h' => h.flight_wake r r' v hv h'.1
  · exact h.wake_unique r r' v ((hwk' r v).mp hv).1 ((hwk' r' v).mp hv').1
  · by_cases hr : r = t
    · subst hr; rw [hpc', update_same]; exact (List.nodup_cons.mp hnd).2
    · rw [hpcv r hr]; exact h.wake_nodup r
  · rw [hfl] at hv; rw [huf]; exact h.flight_need r v hv

/-- The wake-up loop clears `uaflgs` of the head of its list. -/
theorem inv_wakeClear (hi : Inv L s qs) {w : Nat} (hpc : s.pc t = .wakeClear (w :: wake)) :
    Inv L { s with uaflgs := update s.uaflgs w 0, pc := update s.pc t (.wakeSet w wake) } qs := by
  have hin : ¬ (s.pc t).InPix := by rw [hpc]; exact id
  have hpixt : ∀ r, s.pix = some r → r ≠ t := fun r hr e => hin (e ▸ (hi.pix_iff r).mp hr)
  refine ⟨hi.own, hi.queues, placeInv_wakeClear hi.places hpc rfl rfl rfl, fun b hb hw => ?_,
    fun u locks need h => ?_, fun r => ?_, fun u => ?_⟩
  · rcases hi.wait_queue b hb hw with h | ⟨r, hr⟩
    · exact .inl h
    · have hrt : r ≠ t := fun e => hin (e ▸ hr.inPix)
      exact .inr ⟨r, by simpa [update_noteq hrt] using hr⟩
  · by_cases hut : u = t
    · subst hut; simp [request] at h
    · refine acquiring_congr hi h ?_ (update_noteq hut _ _) rfl rfl
      simp only [flightGot]
      cases hp : s.pix with
      | none => rfl
      | some r => simp [update_noteq (hpixt r hp)]
  · by_cases hrt : r = t
    · subst hrt
      simp only [update_same]
      exact ⟨fun h => absurd rfl (hpixt r h), fun h => h.elim⟩
    · simpa [update_noteq hrt] using hi.pix_iff r
  · by_cases hut : u = t
    · subst hut; simp only [update_same]; trivial
    · simp only [update_noteq hut]
      exact threadInv_frame (hi.threads u) rfl rfl (fun _ _ => ⟨rfl, rfl⟩) fun _ _ _ => id

/-- The wake-up loop signals the waiter it has cleared, and goes on with the rest. -/
theorem inv_wakeSet (hi : Inv L s qs) {w : Nat} (hpc : s.pc t = .wakeSet w wake) :
    Inv L { s with pc := update s.pc t (if wake = [] then .idle else .wakeClear wake) } qs := by
  have hsl : ¬ (s.pc t).Sleeping := by rw [hpc]; exact id
  refine inv_setPc_out hi (by rw [hpc]; exact id) ?_ (by rw [hpc]; rfl) ?_ ?_
    (fun hp => absurd (hi.places.placed t hp).1 hsl) ?_ ?_ ?_ <;> split_ifs with h <;>
    simp [Pc.InPix, Pc.flight, Pc.wake, hpc, request, ThreadInv, h]

end Transfer

end ProcLock.Transfer
