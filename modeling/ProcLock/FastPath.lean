import ProcLock.Frame

/-! # The fast paths keep the invariant

`erts_proc_lock`, `erts_proc_raw_trylock__` and `erts_proc_unlock` run without the pix lock, and
interleave freely with everything else. The lock fast path takes its locks only from a lock word
that is `0`, the trylock only locks whose flags are clear; both therefore take free locks. The
unlock fast path clears exactly the lock flags with no wait flag and keeps the others, which
`erts_proc_unlock_failed` will hand over. -/

namespace ProcLock.FastPath

open Function ProcLock.Bits ProcLock.Queue ProcLock.Machine ProcLock.Invariant ProcLock.Frame

variable {L : Layout} {s : St} {qs : Nat → List Nat} {t : Nat}

/-- A free lock has no owner. -/
theorem held_eq_false (hi : Inv L s qs) {b : Nat} (hb : s.flags.getLsbD b = false) (u : Nat) :
    (s.held u).getLsbD b = false := by
  cases h : (s.held u).getLsbD b
  · rfl
  · have hle := hi.own.held_all u b h
    rw [(hi.own.flag_iff b hle).mpr ⟨u, h⟩] at hb
    exact absurd hb (by decide)

/-- Taking free locks `m` for `t`: the locks of the process that are clear in the lock word go to
`t`, and nothing else changes that the invariant reads besides the lock flags. -/
theorem own_take {f : ErtsProcLocks} (hi : Inv L s qs) {m : ErtsProcLocks} (hm : InAll L m)
    (hfree : ∀ i, m.getLsbD i → s.flags.getLsbD i = false)
    (hf : ∀ i, f.getLsbD i = (s.flags.getLsbD i || m.getLsbD i)) :
    OwnInv L f (update s.held t (s.held t ||| m)) where
  flags_bits i h := by
    rw [hf] at h
    rcases Bool.or_eq_true _ _ ▸ h with h | h
    · exact hi.own.flags_bits i h
    · exact Or.inl (hm i h)
  held_all u i h := by
    by_cases hu : u = t
    · subst hu
      simp only [update_same, BitVec.getLsbD_or, Bool.or_eq_true] at h
      exact h.elim (hi.own.held_all u i) (hm i)
    · simp only [update_noteq hu] at h
      exact hi.own.held_all u i h
  flag_iff b hb := by
    rw [hf]
    constructor
    · intro h
      rcases Bool.or_eq_true _ _ ▸ h with h | h
      · obtain ⟨u, hu⟩ := (hi.own.flag_iff b hb).mp h
        by_cases hut : u = t
        · subst hut; exact ⟨u, by simp [hu]⟩
        · exact ⟨u, by simpa [update_noteq hut] using hu⟩
      · exact ⟨t, by simp [h]⟩
    · rintro ⟨u, hu⟩
      by_cases hut : u = t
      · subst hut
        simp only [update_same, BitVec.getLsbD_or, Bool.or_eq_true] at hu
        rcases hu with hu | hu
        · simp [(hi.own.flag_iff b hb).mpr ⟨u, hu⟩]
        · simp [hu]
      · simp only [update_noteq hut] at hu
        simp [(hi.own.flag_iff b hb).mpr ⟨u, hu⟩]
  held_unique b u v hu hv := by
    have key : ∀ w, (update s.held t (s.held t ||| m) w).getLsbD b →
        (s.held w).getLsbD b ∨ (w = t ∧ m.getLsbD b) := by
      intro w hw
      by_cases hwt : w = t
      · subst hwt
        simp only [update_same, BitVec.getLsbD_or, Bool.or_eq_true] at hw
        exact hw.imp id (⟨rfl, ·⟩)
      · exact Or.inl (by simpa [update_noteq hwt] using hw)
    rcases key u hu with hu' | ⟨rfl, hmu⟩ <;> rcases key v hv with hv' | ⟨rfl, hmv⟩
    · exact hi.own.held_unique b u v hu' hv'
    · exact absurd hu' (by rw [held_eq_false hi (hfree b hmv)]; decide)
    · exact absurd hv' (by rw [held_eq_false hi (hfree b hmu)]; decide)
    · rfl
  wait_flag b h := by
    rw [hf] at h ⊢
    rcases Bool.or_eq_true _ _ ▸ h with h | h
    · simp [hi.own.wait_flag b h]
    · exact absurd (hm _ h) (by have := L.maxBit_lt_waiterShift; omega)


/-- Taking free locks keeps the wait flags. -/
theorem waitFlag_take {s' : St} {m : ErtsProcLocks} (hm : InAll L m)
    (hf : ∀ i, s'.flags.getLsbD i = (s.flags.getLsbD i || m.getLsbD i)) :
    waitFlag L s' = waitFlag L s := by
  funext b
  have : L.maxBit < L.waiterShift + b := by have := L.maxBit_lt_waiterShift; omega
  simp only [waitFlag, hf, getLsbD_of_inAll hm this, Bool.or_false]

/-- Taking free locks changes no owner of a lock with a wait flag. -/
theorem keep_take (hi : Inv L s qs) {m : ErtsProcLocks}
    (hfree : ∀ i, m.getLsbD i → s.flags.getLsbD i = false) (b : Nat) (hb : waitFlag L s b)
    (v : Nat) (hv : (update s.held t (s.held t ||| m) v).getLsbD b) : (s.held v).getLsbD b := by
  by_cases hvt : v = t
  · subst hvt
    simp only [update_same, BitVec.getLsbD_or, Bool.or_eq_true] at hv
    refine hv.resolve_right fun hmb => ?_
    have := hi.own.wait_flag b hb
    rw [hfree b hmb] at this
    exact absurd this (by decide)
  · simpa [update_noteq hvt] using hv

/-- Releasing locks `m` of `t` that have no wait flag: their lock flags go with them. -/
theorem own_release {f : ErtsProcLocks} (hi : Inv L s qs) {m : ErtsProcLocks}
    (hm : ∀ i, m.getLsbD i → (s.held t).getLsbD i)
    (hmw : ∀ i, m.getLsbD i → s.flags.getLsbD (L.waiterShift + i) = false)
    (hf : ∀ i, f.getLsbD i = (s.flags.getLsbD i && !m.getLsbD i)) :
    OwnInv L f (update s.held t (s.held t &&& ~~~m)) := by
  have hsub : ∀ u i, (update s.held t (s.held t &&& ~~~m) u).getLsbD i → (s.held u).getLsbD i := by
    intro u i h
    by_cases hut : u = t
    · subst hut; simp only [update_same, getLsbD_and_not, Bool.and_eq_true] at h; exact h.1
    · simpa [update_noteq hut] using h
  refine ⟨fun i h => ?_, fun u i h => hi.own.held_all u i (hsub u i h), fun b hb => ?_,
    fun b u v hu hv => hi.own.held_unique b u v (hsub u b hu) (hsub v b hv), fun b h => ?_⟩
  · rw [hf, Bool.and_eq_true] at h; exact hi.own.flags_bits i h.1
  · rw [hf, Bool.and_eq_true, hi.own.flag_iff b hb]
    constructor
    · rintro ⟨⟨u, hu⟩, hmb⟩
      by_cases hut : u = t
      · subst hut
        exact ⟨u, by simp only [update_same, getLsbD_and_not, hu, Bool.true_and]; exact hmb⟩
      · exact ⟨u, by simpa [update_noteq hut] using hu⟩
    · rintro ⟨u, hu⟩
      refine ⟨⟨u, hsub u b hu⟩, ?_⟩
      cases hmb : m.getLsbD b
      · rfl
      · have := hi.own.held_unique b u t (hsub u b hu) (hm b hmb)
        subst this
        simp [hmb] at hu
  · rw [hf, Bool.and_eq_true] at h ⊢
    refine ⟨hi.own.wait_flag b h.1, ?_⟩
    cases hmb : m.getLsbD b
    · rfl
    · simp [hmw b hmb] at h

/-! ## Steps outside the pix lock -/

section Quiet

variable {s' : St}

/-- A step of `t` outside the pix lock that keeps the wait flags leaves the queues, the sleepers,
the pix lock and the other threads as they are; what remains to show is the new ownership, the
request of `t`, and the invariant of where `t` goes. -/
theorem inv_quiet (hi : Inv L s qs) (hown : OwnInv L s'.flags s'.held)
    (hwf : waitFlag L s' = waitFlag L s) (hheld : ∀ u, u ≠ t → s'.held u = s.held u)
    (hkeep : ∀ b, waitFlag L s b → ∀ v, (s'.held v).getLsbD b → (s.held v).getLsbD b)
    (hwq : s'.wq = s.wq) (huf : ∀ u, u ≠ t → s'.uflgs u = s.uflgs u)
    (hua : s'.uaflgs = s.uaflgs) (hpix : s'.pix = s.pix) (hpc : ∀ u, u ≠ t → s'.pc u = s.pc u)
    (hq : (s.pc t).Quiet) (hq' : (s'.pc t).Quiet)
    (hreq : ∀ locks need, request s' t = some (locks, need) →
      InAll L locks ∧ Acquiring (s'.held t) locks need)
    (hthr : ThreadInv L s' qs t (s'.pc t)) : Inv L s' qs := by
  have hnt : ∀ w, Placed s qs w → w ≠ t := fun w hw e =>
    hq.not_sleeping (e ▸ (hi.places.placed w hw).1)
  have hpixt : ∀ r, s.pix = some r → r ≠ t := fun r hr e =>
    hq.not_inPix (e ▸ (hi.pix_iff r).mp hr)
  have hfg : flightGot s' = flightGot s := flightGot_congr hpix fun r hr => hpc r (hpixt r hr)
  refine ⟨hown, by rw [hwq, hwf]; exact hi.queues, placeInv_quiet hi.places hpc hq hq' huf hua,
    fun b hb hw => ?_, fun u locks need h => ?_, fun r => ?_, fun u => ?_⟩
  · rw [hwf] at hw
    rcases hi.wait_queue b hb hw with h | ⟨r, hr⟩
    · exact .inl h
    · have hrt : r ≠ t := fun e => hq.not_pending b (e ▸ hr)
      exact .inr ⟨r, by rw [hpc r hrt]; exact hr⟩
  · by_cases hut : u = t
    · subst hut; exact hreq locks need h
    · rw [request_congr (congrFun hfg u) (hpc u hut) (huf u hut)] at h
      rw [hheld u hut]; exact hi.acquiring u locks need h
  · by_cases hrt : r = t
    · subst hrt
      rw [hpix]
      exact ⟨fun h => absurd rfl (hpixt r h), fun h => absurd h hq'.not_inPix⟩
    · rw [hpix, hpc r hrt]; exact hi.pix_iff r
  · by_cases hut : u = t
    · subst hut; exact hthr
    · rw [hpc u hut]
      refine threadInv_frame (hi.threads u) hwf hpix (fun w hw => ?_) hkeep
      have hwt : w ≠ t := by
        rcases hw with rfl | hw
        · exact hut
        · exact hnt w (.inr (.inl ⟨u, hw⟩))
      exact ⟨huf w hwt, hheld w hwt⟩

/-- `inv_quiet` for a step that takes the free locks `m`. -/
theorem inv_take (hi : Inv L s qs) {m : ErtsProcLocks} (hm : InAll L m)
    (hfree : ∀ i, m.getLsbD i → s.flags.getLsbD i = false)
    (hf : ∀ i, s'.flags.getLsbD i = (s.flags.getLsbD i || m.getLsbD i))
    (hheld : s'.held = update s.held t (s.held t ||| m)) (hwq : s'.wq = s.wq)
    (huf : s'.uflgs = s.uflgs) (hua : s'.uaflgs = s.uaflgs) (hpix : s'.pix = s.pix)
    (hpc : ∀ u, u ≠ t → s'.pc u = s.pc u) (hq : (s.pc t).Quiet) (hq' : (s'.pc t).Quiet)
    (hreq : ∀ locks need, request s' t = some (locks, need) →
      InAll L locks ∧ Acquiring (s'.held t) locks need)
    (hthr : ThreadInv L s' qs t (s'.pc t)) : Inv L s' qs :=
  inv_quiet hi (hheld ▸ own_take hi hm hfree hf) (waitFlag_take hm hf)
    (fun u hu => by rw [hheld, update_noteq hu]) (hheld ▸ keep_take hi hfree) hwq
    (fun u _ => by rw [huf]) hua hpix hpc hq hq' hreq hthr

end Quiet

/-- `inv_quiet` for a step that only moves `t` between quiet places. -/
theorem inv_setPc (hi : Inv L s qs) {p : Pc} (hq : (s.pc t).Quiet) (hq' : p.Quiet)
    (hreq : ∀ locks need, request { s with pc := update s.pc t p } t = some (locks, need) →
      InAll L locks ∧ Acquiring (s.held t) locks need)
    (hthr : ThreadInv L { s with pc := update s.pc t p } qs t p) :
    Inv L { s with pc := update s.pc t p } qs :=
  inv_quiet hi hi.own (waitFlag_congr rfl) (fun _ _ => rfl) (fun _ _ _ => id) rfl (fun _ _ => rfl)
    rfl rfl (fun _ hu => update_noteq hu _ _) hq (by simpa using hq') hreq
    (by simp only [update_same]; exact hthr)

/-! ## Requests -/

/-- The request of `erts_proc_lock` at its start: all of `locks` is still needed. -/
theorem acquiring_start {held locks : ErtsProcLocks} (h : locks &&& held = 0) :
    Acquiring held locks locks where
  sub _ := id
  holds _ h1 h2 := by simp_all
  disj i hi := by simpa [hi] using congrArg (·.getLsbD i) h
  upper _ _ h1 h2 := by simp_all

/-- **In-order locking.** What the spin loop grabs, `in_order_locks`, is free and lies below
every lock still needed after it. -/
theorem acquiring_grab {held locks need o : ErtsProcLocks} (h : Acquiring held locks need) :
    Acquiring (held ||| inOrderLocks o need) locks (need &&& ~~~inOrderLocks o need) where
  sub i hi := h.sub i (by simp only [getLsbD_and_not, Bool.and_eq_true] at hi; exact hi.1)
  holds i hl hn := by
    cases hni : need.getLsbD i
    · simp [h.holds i hl hni]
    · simp only [getLsbD_and_not, hni, Bool.true_and, Bool.not_eq_false'] at hn
      simp [hn]
  disj i hi := by
    simp only [getLsbD_and_not, Bool.and_eq_true, Bool.not_eq_true'] at hi
    simp [h.disj i hi.1, hi.2]
  upper i j hl hn hj := by
    simp only [getLsbD_and_not, Bool.and_eq_true, Bool.not_eq_true'] at hj
    cases hni : need.getLsbD i
    · exact h.upper i j hl hni hj.1
    · simp only [getLsbD_and_not, hni, Bool.true_and, Bool.not_eq_false',
        getLsbD_inOrderLocks, decide_eq_true_eq] at hn
      simp only [getLsbD_inOrderLocks, hj.1, Bool.true_and, decide_eq_false_iff_not] at hj
      by_contra hji
      exact hj.2 fun k hk => hn k (by omega)

/-! ## The fast paths -/

theorem inv_ertsProcLock (hi : Inv L s qs) (hpc : s.pc t = .idle) {locks : ErtsProcLocks}
    (hall : InAll L locks) (hdisj : locks &&& s.held t = 0) (c : Int) :
    Inv L (ertsProcLock s t locks c) qs := by
  have hq : (s.pc t).Quiet := by rw [hpc]; trivial
  unfold ertsProcLock
  split_ifs with h0
  · refine inv_take hi hall (fun i _ => by simp [h0]) (fun i => by simp [h0]) rfl rfl rfl rfl rfl
      (fun _ _ => rfl) hq hq (fun _ _ h => ?_) (by simp only [hpc]; trivial)
    simp [request, hpc] at h
  · refine inv_setPc hi hq trivial (fun l n h => ?_) trivial
    simp only [request, update_same, Option.some.injEq, Prod.mk.injEq] at h
    obtain ⟨rfl, rfl⟩ := h
    exact ⟨hall, acquiring_start hdisj⟩

theorem inv_ertsProcRawTrylock (hi : Inv L s qs) (hpc : s.pc t = .idle) {locks : ErtsProcLocks}
    (hall : InAll L locks) : Inv L (ertsProcRawTrylock s t locks) qs := by
  have hq : (s.pc t).Quiet := by rw [hpc]; trivial
  unfold ertsProcRawTrylock
  split_ifs with h0
  · have hfree : ∀ i, locks.getLsbD i → s.flags.getLsbD i = false := fun i h => by
      simpa [h] using congrArg (·.getLsbD i) h0
    refine inv_take hi hall hfree (fun i => by simp) rfl rfl rfl rfl rfl (fun _ _ => rfl) hq hq
      (fun _ _ h => ?_) (by simp only [hpc]; trivial)
    simp [request, hpc] at h
  · exact hi


/-- What the compare-and-exchange of `erts_proc_unlock` leaves in the lock word: the lock flags of
`locks` without a wait flag are cleared. -/
theorem getLsbD_unlock_want (flags locks : ErtsProcLocks) (W i : Nat) :
    (flags &&& (((flags >>> W) &&& locks) ||| ~~~locks)).getLsbD i =
      (flags.getLsbD i && !(locks.getLsbD i && !flags.getLsbD (W + i))) := by
  by_cases hi : i < 32
  · simp only [BitVec.getLsbD_and, BitVec.getLsbD_or, BitVec.getLsbD_ushiftRight,
      BitVec.getLsbD_not, hi, decide_True, Bool.true_and]
    cases flags.getLsbD i <;> cases locks.getLsbD i <;> simp
  · simp [BitVec.getLsbD_ge flags i (by omega)]

theorem getLsbD_unlock_released (flags locks : ErtsProcLocks) (W i : Nat) :
    (locks &&& ~~~((flags >>> W) &&& locks)).getLsbD i =
      (locks.getLsbD i && !flags.getLsbD (W + i)) := by
  rw [getLsbD_and_not, BitVec.getLsbD_and, BitVec.getLsbD_ushiftRight]
  cases locks.getLsbD i <;> simp

theorem inv_ertsProcUnlock (hi : Inv L s qs) (hpc : s.pc t = .idle) {locks : ErtsProcLocks}
    (hsub : locks &&& ~~~s.held t = 0) : Inv L (ertsProcUnlock L s t locks) qs := by
  have hq : (s.pc t).Quiet := by rw [hpc]; trivial
  have hlk : ∀ i, locks.getLsbD i → (s.held t).getLsbD i := fun i h => by
    have := congrArg (·.getLsbD i) hsub
    simp only at this
    rw [getLsbD_and_not, h] at this
    simpa using this
  have hall : ∀ b, locks.getLsbD (L.waiterShift + b) = false := fun b => by
    cases h : locks.getLsbD (L.waiterShift + b)
    · rfl
    · have := hi.own.held_all t _ (hlk _ h); have := L.maxBit_lt_waiterShift; omega
  have hwf : waitFlag L (ertsProcUnlock L s t locks) = waitFlag L s := by
    funext b
    simp only [waitFlag, ertsProcUnlock, getLsbD_unlock_want, hall, Bool.false_and, Bool.not_false,
      Bool.and_true]
  have hown := own_release hi (m := locks &&& ~~~((s.flags >>> L.waiterShift) &&& locks))
    (f := (ertsProcUnlock L s t locks).flags)
    (fun i h => hlk i (by simp only [getLsbD_unlock_released, Bool.and_eq_true] at h; exact h.1))
    (fun i h => by
      rw [getLsbD_unlock_released, Bool.and_eq_true, Bool.not_eq_true'] at h; exact h.2)
    (fun i => by simp only [ertsProcUnlock, getLsbD_unlock_want, getLsbD_unlock_released])
  refine inv_quiet hi hown hwf (fun u hu => update_noteq hu _ _) (fun b _ v hv => ?_) rfl
    (fun _ _ => rfl) rfl rfl (fun u hu => ?_) hq ?_ (fun _ _ h => ?_) ?_
  · by_cases hvt : v = t
    · subst hvt; simp only [ertsProcUnlock, update_same, getLsbD_and_not, Bool.and_eq_true] at hv
      exact hv.1
    · simpa [ertsProcUnlock, update_noteq hvt] using hv
  · simp only [ertsProcUnlock]; split_ifs <;> simp [update_noteq hu]
  · simp only [ertsProcUnlock]; split_ifs <;> simp [hpc, Pc.Quiet]
  · simp only [ertsProcUnlock] at h; split_ifs at h <;> simp [request, hpc] at h
  · simp only [ertsProcUnlock]
    split_ifs with hT
    · simp only [update_same]
      refine ⟨hT, fun b hb => ?_⟩
      rw [BitVec.getLsbD_and, getLsbD_unlock_want] at hb
      have hlb : locks.getLsbD b = true := ((Bool.and_eq_true _ _).mp hb).2
      have hw : s.flags.getLsbD (L.waiterShift + b) = true := by simp [hlb] at hb; exact hb.2
      refine ⟨by simp only [update_same]; rw [getLsbD_and_not, getLsbD_unlock_released, hlk b hlb, hlb, hw]; rfl,
        (congrFun hwf b).trans hw⟩
    · simp only [hpc]; trivial

/-! ## The spin loop of `erts_proc_lock_failed` -/

theorem inv_lockFailedStep (hi : Inv L s qs) {locks need o : ErtsProcLocks} {c k : Int}
    (hpc : s.pc t = .lockFailed locks need o c k) :
    Inv L (lockFailedStep s t locks need o c k) qs := by
  have hq : (s.pc t).Quiet := by rw [hpc]; trivial
  obtain ⟨hall, hacq⟩ := hi.acquiring t locks need (by simp [request, hpc])
  have hspin : ∀ o' k', Inv L { s with pc := update s.pc t (.lockFailed locks need o' c k') } qs :=
    fun o' k' => inv_setPc hi hq trivial (fun l n h => by
      simp only [request, update_same, Option.some.injEq, Prod.mk.injEq] at h
      obtain ⟨rfl, rfl⟩ := h; exact ⟨hall, hacq⟩) trivial
  rcases @lockFailedStep_cases s t locks need o c k with
    ⟨-, hs⟩ | ⟨h0, -, -, hs⟩ | ⟨-, -, -, hs⟩ | ⟨-, -, hcas, hs⟩ | ⟨-, -, -, hs⟩ <;> rw [hs]
  · exact inv_setPc hi hq trivial (fun _ _ h => by simp [request] at h) trivial
  · -- out of spins: `wait_for_locks` records what is still needed
    refine inv_quiet hi hi.own (waitFlag_congr rfl) (fun _ _ => rfl) (fun _ _ _ => id) rfl
      (fun u hu => update_noteq hu _ _) rfl rfl (fun u hu => update_noteq hu _ _) hq
      (by simp only [update_same]; trivial) (fun l n h => ?_) (by simpa [ThreadInv] using h0)
    simp only [request, update_same, Option.some.injEq, Prod.mk.injEq] at h
    obtain ⟨rfl, rfl⟩ := h; exact ⟨hall, hacq⟩
  · exact hspin _ _
  · -- the compare-and-exchange succeeded
    have hfree : ∀ i, (inOrderLocks o need).getLsbD i → s.flags.getLsbD i = false := by
      intro i h
      simp only [getLsbD_inOrderLocks, Bool.and_eq_true, decide_eq_true_eq] at h
      cases ho : o.getLsbD i
      · rw [hcas, ho]
      · exact absurd ⟨ho, h.1⟩ (h.2 i le_rfl)
    have hm : InAll L (inOrderLocks o need) := fun i h =>
      hall i (hacq.sub i (by simp only [getLsbD_inOrderLocks, Bool.and_eq_true] at h; exact h.1))
    refine inv_take hi hm hfree (fun i => by simp [hcas]) rfl rfl rfl rfl rfl
      (fun u hu => update_noteq hu _ _) hq (by simp only [update_same]; trivial) (fun l n h => ?_)
      (by simp only [update_same]; trivial)
    simp only [request, update_same, Option.some.injEq, Prod.mk.injEq] at h
    obtain ⟨rfl, rfl⟩ := h
    exact ⟨hall, by simpa using acquiring_grab (o := o) hacq⟩
  · exact hspin _ _

end ProcLock.FastPath
