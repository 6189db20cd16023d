import ProcLock.Invariant

/-! # Support for the invariant proofs

What each atomic operation of the code does to a lock flag (bit `b ≤ maxBit`) and to a wait flag
(bit `waiterShift + b`), and the frame lemmas: the parts of the invariant that a step leaves
alone when it leaves alone what they read. -/

namespace ProcLock.Frame

open Function ProcLock.Bits ProcLock.Queue ProcLock.Machine ProcLock.Invariant

variable {L : Layout}

/-! ## Bits of the lock word -/

theorem waiterShift_ne {b c : Nat} (hb : b ≤ L.maxBit) : L.waiterShift + c ≠ b := by
  have := L.maxBit_lt_waiterShift; omega

@[simp] theorem getLsbD_waiter_shift (m : ErtsProcLocks) {b : Nat} (hb : b ≤ L.maxBit) :
    (m <<< L.waiterShift).getLsbD (L.waiterShift + b) = m.getLsbD b := by
  simp [L.waiter_lt hb]

@[simp] theorem getLsbD_lock_shift (m : ErtsProcLocks) {b : Nat} (hb : b ≤ L.maxBit) :
    (m <<< L.waiterShift).getLsbD b = false := by
  have := L.maxBit_lt_waiterShift
  simp; omega

theorem getLsbD_of_inAll {m : ErtsProcLocks} (h : InAll L m) {i : Nat} (hi : L.maxBit < i) :
    m.getLsbD i = false := by
  cases hm : m.getLsbD i
  · rfl
  · exact absurd (h i hm) (by omega)

theorem inAll_all : InAll L L.all := fun i h => by simpa using h

theorem inAll_of_and_not_all {m : ErtsProcLocks} (h : m &&& ~~~L.all = 0) : InAll L m := by
  intro i hi
  have := congrArg (·.getLsbD i) h
  by_contra hlt
  simp [hi, show i < 32 by by_contra; simp_all [BitVec.getLsbD_ge m i (by omega)]] at this
  omega

theorem getLsbD_shift_add (m : ErtsProcLocks) (c : Nat) :
    (m <<< L.waiterShift).getLsbD (L.waiterShift + c) =
      (decide (L.waiterShift + c < 32) && m.getLsbD c) := by
  simp [BitVec.getLsbD_shiftLeft, show ¬ L.waiterShift + c < L.waiterShift by omega]

theorem exists_of_getLsbD_shift {m : ErtsProcLocks} {i : Nat}
    (h : (m <<< L.waiterShift).getLsbD i) : ∃ c, i = L.waiterShift + c ∧ m.getLsbD c := by
  simp only [BitVec.getLsbD_shiftLeft, Bool.and_eq_true, decide_eq_true_eq, Bool.not_eq_true',
    decide_eq_false_iff_not, Nat.not_lt] at h
  exact ⟨i - L.waiterShift, by omega, h.2⟩

/-- The wait flag of `b` after `try_aquire` sets that of `n`. -/
theorem getLsbD_setWait (f : ErtsProcLocks) {n : Nat} (hn : n ≤ L.maxBit) (b : Nat) :
    (f ||| lockBit n <<< L.waiterShift).getLsbD (L.waiterShift + b) =
      (f.getLsbD (L.waiterShift + b) || decide (b = n)) := by
  rw [BitVec.getLsbD_or, getLsbD_shift_add, getLsbD_lockBit]
  by_cases hb : b = n
  · subst hb; simp [L.waiter_lt hn, lt_of_le_maxBit hn]
  · simp [hb]

/-- The lock flag of `b` after the `bor` of `try_aquire` at lock `n`. -/
theorem getLsbD_bor_lock (f : ErtsProcLocks) {n b : Nat} (hb : b ≤ L.maxBit) :
    (f ||| (lockBit n <<< L.waiterShift ||| lockBit n)).getLsbD b = (f.getLsbD b || decide (b = n)) := by
  rw [BitVec.getLsbD_or, BitVec.getLsbD_or, getLsbD_lock_shift _ hb, getLsbD_lockBit,
    decide_eq_true (lt_of_le_maxBit hb), Bool.false_or, Bool.true_and]

/-- The wait flag of `b` after the `bor` of `try_aquire` at lock `n`. -/
theorem getLsbD_bor_wait (f : ErtsProcLocks) {n : Nat} (hn : n ≤ L.maxBit) (b : Nat) :
    (f ||| (lockBit n <<< L.waiterShift ||| lockBit n)).getLsbD (L.waiterShift + b) =
      (f.getLsbD (L.waiterShift + b) || decide (b = n)) := by
  rw [← BitVec.or_assoc, BitVec.getLsbD_or, getLsbD_setWait f hn, getLsbD_lockBit,
    decide_eq_false (waiterShift_ne hn), Bool.and_false, Bool.or_false]

/-- The wait flag of `b ≤ maxBit` after the wait flags of `m` are cleared. -/
theorem getLsbD_clearWait (f m : ErtsProcLocks) {b : Nat} (hb : b ≤ L.maxBit) :
    (f &&& ~~~(m <<< L.waiterShift)).getLsbD (L.waiterShift + b) =
      (f.getLsbD (L.waiterShift + b) && !m.getLsbD b) := by
  rw [getLsbD_and_not, getLsbD_shift_add, decide_eq_true (L.waiter_lt hb), Bool.true_and]

/-! ## Wait flags in the lock word -/

/-- Setting the wait flag of a lock whose lock flag is set. -/
theorem ownInv_setWait {f : ErtsProcLocks} {held : Nat → ErtsProcLocks} (h : OwnInv L f held)
    {n : Nat} (hn : n ≤ L.maxBit) (hf : f.getLsbD n) :
    OwnInv L (f ||| lockBit n <<< L.waiterShift) held where
  flags_bits i hi := by
    rw [BitVec.getLsbD_or, Bool.or_eq_true] at hi
    rcases hi with hi | hi
    · exact h.flags_bits i hi
    · obtain ⟨c, rfl, hc⟩ := exists_of_getLsbD_shift hi
      simp only [getLsbD_lockBit, Bool.and_eq_true, decide_eq_true_eq] at hc
      exact .inr ⟨by omega, by omega⟩
  held_all := h.held_all
  flag_iff c hc := by
    rw [BitVec.getLsbD_or, getLsbD_lock_shift _ hc, Bool.or_false]; exact h.flag_iff c hc
  held_unique := h.held_unique
  wait_flag c hc := by
    rw [BitVec.getLsbD_or, Bool.or_eq_true] at hc ⊢
    rcases hc with hc | hc
    · exact .inl (h.wait_flag c hc)
    · rw [getLsbD_shift_add] at hc
      simp only [getLsbD_lockBit, Bool.and_eq_true, decide_eq_true_eq] at hc
      exact .inl (hc.2.2 ▸ hf)

/-- Clearing the wait flags of `m`. -/
theorem ownInv_clearWait {f : ErtsProcLocks} {held : Nat → ErtsProcLocks} (h : OwnInv L f held)
    (m : ErtsProcLocks) : OwnInv L (f &&& ~~~(m <<< L.waiterShift)) held where
  flags_bits i hi := h.flags_bits i (by rw [getLsbD_and_not, Bool.and_eq_true] at hi; exact hi.1)
  held_all := h.held_all
  flag_iff c hc := by
    rw [getLsbD_and_not, getLsbD_lock_shift _ hc, Bool.not_false, Bool.and_true]
    exact h.flag_iff c hc
  held_unique := h.held_unique
  wait_flag c hc := by
    rw [getLsbD_and_not, Bool.and_eq_true] at hc
    have hc' : c ≤ L.maxBit := by
      have := L.maxBit_lt_waiterShift
      rcases h.flags_bits _ hc.1 with h1 | h1 <;> omega
    rw [getLsbD_and_not, getLsbD_lock_shift _ hc', h.wait_flag c hc.1]; rfl

/-! ## Frames -/

theorem waitFlag_congr {s s' : St} (h : s'.flags = s.flags) : waitFlag L s' = waitFlag L s := by
  funext b; simp [waitFlag, h]

variable {s s' : St} {qs : Nat → List Nat}

/-- `transfer_locks` is undisturbed by steps that keep the wait flags set, its own locks, and the
owners of the wait flags it will clear. -/
theorem transferInv_frame {t : Nat} {fl : Option Nat} {tr : ErtsProcLocks} {n : Nat}
    {U : ErtsProcLocks} {wake : List Nat} (h : TransferInv L s qs t fl tr n U wake)
    (hw : ∀ b, waitFlag L s b → qs b ≠ [] ∨ U.getLsbD b → waitFlag L s' b)
    (ht : ∀ b, (s.held t).getLsbD b → (s'.held t).getLsbD b)
    (hown : ∀ b, U.getLsbD b → ∀ v, (s'.held v).getLsbD b → (s.held v).getLsbD b) :
    TransferInv L s' qs t fl tr n U wake where
  tr_all := h.tr_all
  ahead b hb hn := by
    obtain ⟨h1, h2, h3⟩ := h.ahead b hb hn
    exact ⟨ht b h1, hw b h2 (.inl h3), h3⟩
  unset b hb := by
    obtain ⟨h1, h2, h3, h4⟩ := h.unset b hb
    exact ⟨h1, hw b h2 (.inr hb), h3, fun v hv => h4 v (hown b hb v hv)⟩
  lockNo_le := h.lockNo_le

/-- `try_aquire` has run for `w` in `transfer_locks`, which puts `w` on its wake list. -/
theorem transferInv_wake {t w : Nat} {tr : ErtsProcLocks} {n : Nat} {U : ErtsProcLocks}
    {wake : List Nat} (h : TransferInv L s qs t (some w) tr n U wake) :
    TransferInv L s qs t none tr n U (w :: wake) :=
  { h with
    unset := fun b hb => by
      obtain ⟨h1, h2, h3, h4⟩ := h.unset b hb
      refine ⟨h1, h2, h3, fun u hu => ?_⟩
      rcases h4 u hu with e | hu | hu
      · cases e; exact .inr (.inl (List.mem_cons_self _ _))
      · exact .inr (.inl (List.mem_cons_of_mem _ hu))
      · exact .inr (.inr hu) }

/-- The waiter of `try_aquire` is the thread itself, unless `transfer_locks` runs it. -/
theorem tryInv_wtr_cases {u wtr n : Nat} {ret : Ret} (h : TryInv L s qs u ret wtr n) :
    wtr = u ∨ ∃ tr m U wake, ret = .transferLocks tr m U wake := by
  have h3 := h.ret
  cases ret with
  | waitForLocks _ => exact .inl h3
  | transferLocks tr m U wake => exact .inr ⟨tr, m, U, wake, rfl⟩

theorem tryInv_frame {u wtr n : Nat} {ret : Ret} (h : TryInv L s qs u ret wtr n)
    (hw : ∀ b, waitFlag L s b → qs b ≠ [] ∨ ret.unset.getLsbD b → waitFlag L s' b)
    (hpix : s'.pix = s.pix)
    (hwtr : s'.uflgs wtr = s.uflgs wtr) (hu : ∀ b, (s.held u).getLsbD b → (s'.held u).getLsbD b)
    (hown : ∀ b, ret.unset.getLsbD b → ∀ v, (s'.held v).getLsbD b → (s.held v).getLsbD b) :
    TryInv L s' qs u ret wtr n := by
  refine ⟨hpix ▸ h.pix, h.lockNo_le, ?_⟩
  have h3 := h.ret
  cases ret with
  | waitForLocks _ => exact h3
  | transferLocks tr m U wake => exact ⟨by simpa [hwtr] using h3.1, transferInv_frame h3.2 hw hu hown⟩

theorem unset_wait {u wtr n : Nat} {ret : Ret} (h : TryInv L s qs u ret wtr n) {b : Nat}
    (hb : ret.unset.getLsbD b) : waitFlag L s b := by
  have h3 := h.ret
  cases ret with
  | waitForLocks _ => simp [Ret.unset] at hb
  | transferLocks tr m U wake => exact (h3.2.unset b hb).2.1

/-- A thread's invariant is undisturbed by steps that keep the wait flags, the pix lock, the
`uflgs` and locks of the threads it reads, and the owners of wait flags. -/
theorem threadInv_frame {u : Nat} {p : Pc} (h : ThreadInv L s qs u p)
    (hw : waitFlag L s' = waitFlag L s) (hpix : s'.pix = s.pix)
    (hrd : ∀ w, w = u ∨ p.flight = some w → s'.uflgs w = s.uflgs w ∧ s'.held w = s.held w)
    (hown : ∀ b, waitFlag L s b → ∀ v, (s'.held v).getLsbD b → (s.held v).getLsbD b) :
    ThreadInv L s' qs u p := by
  have hw' : ∀ b, waitFlag L s b → waitFlag L s' b := fun b h => by rw [hw]; exact h
  have hu := (hrd u (.inl rfl)).2
  have hu' : ∀ b, (s.held u).getLsbD b → (s'.held u).getLsbD b := fun b h => by rwa [hu]
  cases p with
  | waitForLocks locks => simpa [ThreadInv, (hrd u (.inl rfl)).1] using h
  | tryAquire ret wtr got n =>
    have hr : s'.uflgs wtr = s.uflgs wtr ∧ s'.held wtr = s.held wtr := by
      rcases tryInv_wtr_cases h.1 with e | ⟨_, _, _, _, rfl⟩
      · exact hrd wtr (.inl e)
      · exact hrd wtr (.inr rfl)
    exact ⟨tryInv_frame h.1 (fun b h _ => hw' b h) hpix hr.1 hu'
      fun b hb v => hown b (unset_wait h.1 hb) v,
      by simpa [hr.1] using h.2⟩
  | tryAquireBand ret wtr got n =>
    have hr : s'.uflgs wtr = s.uflgs wtr ∧ s'.held wtr = s.held wtr := by
      rcases tryInv_wtr_cases h.1 with e | ⟨_, _, _, _, rfl⟩
      · exact hrd wtr (.inl e)
      · exact hrd wtr (.inr rfl)
    obtain ⟨h1, h4, h5, h6, h7, h8, h9⟩ := h
    exact ⟨tryInv_frame h1 (fun b h _ => hw' b h) hpix hr.1 hu'
      fun b hb v => hown b (unset_wait h1 hb) v,
      by simpa [hr.1] using h4, h5, by simpa [hr.1] using h6, by simpa [hr.2] using h7,
      hw' _ h8, h9⟩
  | unlockFailed T => exact ⟨h.1, fun b hb => by rw [hu, hw]; exact h.2 b hb⟩
  | transferLocks tr n U wake =>
    exact ⟨hpix ▸ h.1, transferInv_frame h.2 (fun b h _ => hw' b h) hu'
      fun b hb v => hown b (h.2.unset b hb).2.1 v⟩
  | _ => exact h

theorem flightGot_congr (hpix : s'.pix = s.pix) (hpc : ∀ r, s.pix = some r → s'.pc r = s.pc r) :
    flightGot s' = flightGot s := by
  funext u
  unfold flightGot
  rw [hpix]
  cases h : s.pix with
  | none => rfl
  | some r => simp only [hpc r h]

theorem request_congr {u : Nat} (hfg : flightGot s' u = flightGot s u) (hpc : s'.pc u = s.pc u)
    (huf : s'.uflgs u = s.uflgs u) : request s' u = request s u := by
  unfold request; rw [hpc, huf, hfg]

/-! ## Quiet threads -/

theorem placed_congr {s s' : St} {qs : Nat → List Nat}
    (h : ∀ r, (s'.pc r).flight = (s.pc r).flight ∧ (s'.pc r).wake = (s.pc r).wake) (w : Nat) :
    Placed s' qs w ↔ Placed s qs w := by
  simp only [Placed, (h _).1, (h _).2]

/-- The sleepers are undisturbed by steps that keep the flights and wake lists, keep placed
threads asleep and wake none, and keep the `uflgs` and `uaflgs` of sleeping threads. -/
theorem placeInv_phase (h : PlaceInv s qs)
    (hfw : ∀ r, (s'.pc r).flight = (s.pc r).flight ∧ (s'.pc r).wake = (s.pc r).wake)
    (hsl : ∀ w, Placed s qs w → (s'.pc w).Sleeping)
    (hsl' : ∀ w locks phase, s'.pc w = .sleep locks phase → ∃ phase', s.pc w = .sleep locks phase')
    (huf : ∀ w, (s.pc w).Sleeping → s'.uflgs w = s.uflgs w)
    (hua : ∀ w, (s.pc w).Sleeping → s'.uaflgs w = s.uaflgs w) : PlaceInv s' qs := by
  have hpl : ∀ w, Placed s' qs w ↔ Placed s qs w := placed_congr hfw
  have hps : ∀ w, Placed s qs w → (s.pc w).Sleeping := fun w hw => (h.placed w hw).1
  refine ⟨fun b w hw => ?_, fun w hw => ?_, fun w locks phase hw => ?_, fun r w hw => ?_,
    fun b w r hw => ?_, fun b w r hw => ?_, fun r r' w hw => ?_, fun r r' w hw hw' => ?_,
    fun r => ?_, fun r w hw => ?_⟩
  · rw [huf w (hps w (.inl ⟨b, hw⟩))]; exact h.queued b w hw
  · have hw' := (hpl w).mp hw
    exact ⟨hsl w hw', by rw [hua w (hps w hw')]; exact (h.placed w hw').2⟩
  · obtain ⟨phase', hw'⟩ := hsl' w locks phase hw
    have hs : (s.pc w).Sleeping := by rw [hw']; trivial
    rw [hpl, hua w hs, huf w hs]; exact h.sleeping w locks phase' hw'
  · rw [(hfw r).2] at hw
    rw [huf w (hps w (.inr (.inr ⟨r, hw⟩)))]; exact h.wake_done r w hw
  · rw [(hfw r).1]; exact h.queued_flight b w r hw
  · rw [(hfw r).2]; exact h.queued_wake b w r hw
  · rw [(hfw r).1] at hw; rw [(hfw r').2]; exact h.flight_wake r r' w hw
  · rw [(hfw r).2] at hw; rw [(hfw r').2] at hw'; exact h.wake_unique r r' w hw hw'
  · rw [(hfw r).2]; exact h.wake_nodup r
  · rw [(hfw r).1] at hw
    rw [huf w (hps w (.inr (.inl ⟨r, hw⟩)))]; exact h.flight_need r w hw

/-- The sleepers are undisturbed by steps that keep the flights and wake lists, leave sleeping
threads where they are, and keep their `uflgs` and `uaflgs`. -/
theorem placeInv_frame (h : PlaceInv s qs)
    (hfw : ∀ r, (s'.pc r).flight = (s.pc r).flight ∧ (s'.pc r).wake = (s.pc r).wake)
    (hpc : ∀ w, (s.pc w).Sleeping ∨ (s'.pc w).Sleeping → s'.pc w = s.pc w)
    (huf : ∀ w, (s.pc w).Sleeping → s'.uflgs w = s.uflgs w)
    (hua : ∀ w, (s.pc w).Sleeping → s'.uaflgs w = s.uaflgs w) : PlaceInv s' qs :=
  placeInv_phase h hfw
    (fun w hw => by
      have hs := (h.placed w hw).1; rw [hpc w (.inl hs)]; exact hs)
    (fun w locks phase hw => ⟨phase, by rw [← hpc w (.inr (by rw [hw]; trivial)), hw]⟩) huf hua

/-- A thread that is not placed, and stays quiet, leaves the sleepers as they are. -/
theorem placeInv_quiet {t : Nat} (h : PlaceInv s qs) (hpc' : ∀ r, r ≠ t → s'.pc r = s.pc r)
    (hq : (s.pc t).Quiet) (hq' : (s'.pc t).Quiet) (huf : ∀ u, u ≠ t → s'.uflgs u = s.uflgs u)
    (hua : s'.uaflgs = s.uaflgs) : PlaceInv s' qs := by
  have hne : ∀ w, (s.pc w).Sleeping ∨ (s'.pc w).Sleeping → w ≠ t := by
    rintro w hw rfl; exact hw.elim hq.not_sleeping hq'.not_sleeping
  refine placeInv_frame h (fun r => ?_) (fun w hw => hpc' w (hne w hw))
    (fun w hw => huf w (hne w (.inl hw))) (fun w _ => by rw [hua])
  by_cases hr : r = t
  · subst hr; exact ⟨hq'.flight.trans hq.flight.symm, hq'.wake.trans hq.wake.symm⟩
  · rw [hpc' r hr]; exact ⟨rfl, rfl⟩

/-- `transfer_locks` puts the waiter it ran `try_aquire` for on its wake list, with nothing left
to take. -/
theorem placeInv_wake {t w : Nat} (h : PlaceInv s qs) (hfl : (s.pc t).flight = some w)
    (hfl1 : ∀ r, r ≠ t → (s.pc r).flight = none) (hpc : ∀ r, r ≠ t → s'.pc r = s.pc r)
    (hfl' : (s'.pc t).flight = none) (hwk' : (s'.pc t).wake = w :: (s.pc t).wake)
    (hsl : ¬ (s.pc t).Sleeping) (hsl' : ¬ (s'.pc t).Sleeping)
    (huf : ∀ u, u ≠ w → s'.uflgs u = s.uflgs u) (hw0 : s'.uflgs w = 0)
    (hua : s'.uaflgs = s.uaflgs) : PlaceInv s' qs := by
  have hww : ∀ r, w ∉ (s.pc r).wake := fun r => h.flight_wake t r w hfl
  have hfl1' : ∀ r v, (s'.pc r).flight = some v → False := fun r v hr => by
    by_cases hrt : r = t
    · subst hrt; simp [hfl'] at hr
    · rw [hpc r hrt, hfl1 r hrt] at hr; cases hr
  have hwk : ∀ r v, v ∈ (s'.pc r).wake ↔ v ∈ (s.pc r).wake ∨ (r = t ∧ v = w) := fun r v => by
    by_cases hrt : r = t
    · subst hrt; rw [hwk', List.mem_cons]; tauto
    · rw [hpc r hrt]; simp [hrt]
  have hpl : ∀ v, Placed s' qs v ↔ Placed s qs v := fun v => by
    simp only [Placed, hwk]
    constructor
    · rintro (h1 | ⟨r, hr⟩ | ⟨r, hr | ⟨rfl, rfl⟩⟩)
      · exact .inl h1
      · exact (hfl1' r v hr).elim
      · exact .inr (.inr ⟨r, hr⟩)
      · exact .inr (.inl ⟨r, hfl⟩)
    · rintro (h1 | ⟨r, hr⟩ | ⟨r, hr⟩)
      · exact .inl h1
      · by_cases hrt : r = t
        · subst hrt; rw [hfl] at hr; cases hr; exact .inr (.inr ⟨r, .inr ⟨rfl, rfl⟩⟩)
        · rw [hfl1 r hrt] at hr; cases hr
      · exact .inr (.inr ⟨r, .inl hr⟩)
  have hwpl : Placed s qs w := .inr (.inl ⟨t, hfl⟩)
  have hnt : ∀ v, Placed s qs v → v ≠ t := fun v hv e => hsl (e ▸ (h.placed v hv).1)
  refine ⟨fun b v hv => ?_, fun v hv => ?_, fun v locks phase hv => ?_, fun r v hv => ?_,
    fun b v r _ => ?_, fun b v r hv => ?_, fun r r' v hv => (hfl1' r v hv).elim,
    fun r r' v hv hv' => ?_, fun r => ?_, fun r v hv => (hfl1' r v hv).elim⟩
  · have hvw : v ≠ w := fun e => h.queued_flight b v t hv (e ▸ hfl)
    rw [huf v hvw]; exact h.queued b v hv
  · have hv' := (hpl v).mp hv
    rw [hpc v (hnt v hv'), hua]; exact h.placed v hv'
  · have hvt : v ≠ t := fun e => hsl' (by rw [e] at hv; rw [hv]; trivial)
    rw [hpc v hvt] at hv
    rw [hpl, hua]
    rcases h.sleeping v locks phase hv with h1 | ⟨h1, h2, h3⟩
    · exact .inl h1
    · have hvw : v ≠ w := fun e => h3 (e ▸ hwpl)
      exact .inr ⟨h1, by rw [huf v hvw, h2], h3⟩
  · rcases (hwk r v).mp hv with hv | ⟨-, rfl⟩
    · have hvw : v ≠ w := fun e => hww r (e ▸ hv)
      rw [huf v hvw]; exact h.wake_done r v hv
    · exact hw0
  · by_cases hrt : r = t
    · subst hrt; rw [hfl']; exact fun h => by cases h
    · rw [hpc r hrt, hfl1 r hrt]; exact fun h => by cases h
  · rw [hwk]
    rintro (hv' | ⟨-, rfl⟩)
    · exact h.queued_wake b v r hv hv'
    · exact h.queued_flight b v t hv hfl
  · rcases (hwk r v).mp hv with hv | ⟨hr, hvw⟩ <;> rcases (hwk r' v).mp hv' with hv' | ⟨hr', hvw'⟩
    · exact h.wake_unique r r' v hv hv'
    · exact (hww r (hvw' ▸ hv)).elim
    · exact (hww r' (hvw ▸ hv')).elim
    · exact hr.trans hr'.symm
  · by_cases hrt : r = t
    · subst hrt; rw [hwk']; exact List.nodup_cons.mpr ⟨hww r, h.wake_nodup r⟩
    · rw [hpc r hrt]; exact h.wake_nodup r

/-- `try_aquire` queues `w`, the only thread in flight if any, on lock `n`, where it sleeps. -/
theorem placeInv_enqueue {w n : Nat} (h : PlaceInv s qs) (hflt : ∀ r, (s'.pc r).flight = none)
    (hwk : ∀ r, (s'.pc r).wake = (s.pc r).wake) (hfl : ∀ r v, (s.pc r).flight = some v → v = w)
    (hpc : ∀ v, v ≠ w → (s.pc v).Sleeping ∨ (s'.pc v).Sleeping → s'.pc v = s.pc v)
    (hslw : (s'.pc w).Sleeping) (hua1 : s'.uaflgs w = 1)
    (huf : ∀ v, v ≠ w → s'.uflgs v = s.uflgs v) (hua : ∀ v, v ≠ w → s'.uaflgs v = s.uaflgs v)
    (hlow : IsLowest (s'.uflgs w) n) (hwq : ∀ b, w ∉ qs b) (hwwk : ∀ r, w ∉ (s.pc r).wake) :
    PlaceInv s' (update qs n (qs n ++ [w])) := by
  have hpl : ∀ v, Placed s' (update qs n (qs n ++ [w])) v ↔ Placed s qs v ∨ v = w := fun v => by
    simp only [Placed, mem_update_append, hflt, hwk, reduceCtorEq, exists_false, false_or]
    constructor
    · rintro (⟨b, hb | ⟨-, rfl⟩⟩ | hr)
      · exact .inl (.inl ⟨b, hb⟩)
      · exact .inr rfl
      · exact .inl (.inr (.inr hr))
    · rintro ((hb | ⟨r, hr⟩ | hr) | rfl)
      · exact .inl (hb.imp fun b hb => .inl hb)
      · exact .inl ⟨n, .inr ⟨rfl, hfl r v hr⟩⟩
      · exact .inr hr
      · exact .inl ⟨n, .inr ⟨rfl, rfl⟩⟩
  have hsl : ∀ v, Placed s qs v → (s.pc v).Sleeping := fun v hv => (h.placed v hv).1
  refine ⟨fun b v hv => ?_, fun v hv => ?_, fun v locks phase hv => ?_, fun r v hv => ?_,
    fun b v r _ => ?_, fun b v r hv => ?_, fun r r' v hv => ?_,
    fun r r' v hv hv' => h.wake_unique r r' v (hwk r ▸ hv) (hwk r' ▸ hv'),
    fun r => hwk r ▸ h.wake_nodup r, fun r v hv => by rw [hflt] at hv; cases hv⟩
  · rcases mem_update_append.mp hv with hv | ⟨rfl, rfl⟩
    · rw [huf v fun e => hwq b (e ▸ hv)]; exact h.queued b v hv
    · exact hlow
  · by_cases hvw : v = w
    · subst hvw; exact ⟨hslw, hua1⟩
    · have hv' := ((hpl v).mp hv).resolve_right hvw
      rw [hpc v hvw (.inl (hsl v hv')), hua v hvw]; exact h.placed v hv'
  · by_cases hvw : v = w
    · subst hvw; exact .inl ⟨hua1, (hpl v).mpr (.inr rfl)⟩
    · have hs : (s'.pc v).Sleeping := by rw [hv]; trivial
      rw [hpc v hvw (.inr hs)] at hv
      rw [hpl, hua v hvw, huf v hvw]
      rcases h.sleeping v locks phase hv with h1 | ⟨h1, h2, h3⟩
      · exact .inl ⟨h1.1, .inl h1.2⟩
      · exact .inr ⟨h1, h2, fun h4 => h4.elim h3 hvw⟩
  · rw [hwk] at hv
    rw [huf v fun e => hwwk r (e ▸ hv)]; exact h.wake_done r v hv
  · rw [hflt]; exact fun h => by cases h
  · rw [hwk]
    rcases mem_update_append.mp hv with hv | ⟨-, rfl⟩
    · exact h.queued_wake b v r hv
    · exact hwwk r
  · rw [hflt] at hv; cases hv

/-- `transfer_locks` takes the head `w` of queue `n` into its hands: in flight if it needs more,
on the wake list if not. -/
theorem placeInv_dequeue {t w n : Nat} {l : List Nat} {qs' : Nat → List Nat} (h : PlaceInv s qs)
    (hq : qs n = w :: l) (hqs' : qs' = update qs n l) (hwq : ∀ b, w ∉ qs' b)
    (hpc : ∀ r, r ≠ t → s'.pc r = s.pc r) (hfl : (s.pc t).flight = none)
    (hfl' : ∀ v, (s'.pc t).flight = some v ↔ v = w ∧ s'.uflgs w ≠ 0)
    (hwk' : ∀ v, v ∈ (s'.pc t).wake ↔ v ∈ (s.pc t).wake ∨ (v = w ∧ s'.uflgs w = 0))
    (hwk'' : (s'.pc t).wake = (s.pc t).wake ∨ (s'.pc t).wake = w :: (s.pc t).wake)
    (hsl : ¬ (s.pc t).Sleeping) (hsl' : ¬ (s'.pc t).Sleeping)
    (huf : ∀ v, v ≠ w → s'.uflgs v = s.uflgs v) (hua : s'.uaflgs = s.uaflgs) :
    PlaceInv s' qs' := by
  have hmem : ∀ b v, v ∈ qs' b ↔ v ∈ qs b ∧ v ≠ w := fun b v => by
    constructor
    · intro hv; refine ⟨?_, fun e => hwq b (e ▸ hv)⟩
      rw [hqs'] at hv
      by_cases hb : b = n
      · subst hb; rw [update_same] at hv; rw [hq]; exact List.mem_cons_of_mem w hv
      · rwa [update_noteq hb] at hv
    · rintro ⟨hv, hvw⟩
      rw [hqs']
      by_cases hb : b = n
      · subst hb; rw [update_same]; rw [hq] at hv
        exact (List.mem_cons.mp hv).resolve_left hvw
      · rwa [update_noteq hb]
  have hwn : w ∈ qs n := by rw [hq]; exact List.mem_cons_self w l
  have hwwk : ∀ r, w ∉ (s.pc r).wake := fun r => h.queued_wake n w r hwn
  have hwfl : ∀ r, (s.pc r).flight ≠ some w := fun r => h.queued_flight n w r hwn
  have hfl2 : ∀ r v, (s'.pc r).flight = some v ↔
      (s.pc r).flight = some v ∨ (r = t ∧ v = w ∧ s'.uflgs w ≠ 0) := fun r v => by
    by_cases hr : r = t
    · subst hr; rw [hfl', hfl]; simp [eq_comm]
    · rw [hpc r hr]; simp [hr]
  have hwk2 : ∀ r v, v ∈ (s'.pc r).wake ↔ v ∈ (s.pc r).wake ∨ (r = t ∧ v = w ∧ s'.uflgs w = 0) :=
    fun r v => by
      by_cases hr : r = t
      · subst hr; rw [hwk']; simp
      · rw [hpc r hr]; simp [hr]
  have hpl : ∀ v, Placed s' qs' v ↔ Placed s qs v := fun v => by
    simp only [Placed, hmem, hfl2, hwk2]
    constructor
    · rintro (⟨b, hb, -⟩ | ⟨r, hr | ⟨-, rfl, -⟩⟩ | ⟨r, hr | ⟨-, rfl, -⟩⟩)
      · exact .inl ⟨b, hb⟩
      · exact .inr (.inl ⟨r, hr⟩)
      · exact .inl ⟨n, hwn⟩
      · exact .inr (.inr ⟨r, hr⟩)
      · exact .inl ⟨n, hwn⟩
    · rintro (⟨b, hb⟩ | ⟨r, hr⟩ | ⟨r, hr⟩)
      · by_cases hvw : v = w
        · subst hvw
          by_cases h0 : s'.uflgs v = 0
          · exact .inr (.inr ⟨t, .inr ⟨rfl, rfl, h0⟩⟩)
          · exact .inr (.inl ⟨t, .inr ⟨rfl, rfl, h0⟩⟩)
        · exact .inl ⟨b, hb, hvw⟩
      · exact .inr (.inl ⟨r, .inl hr⟩)
      · exact .inr (.inr ⟨r, .inl hr⟩)
  have hwpl : Placed s qs w := .inl ⟨n, hwn⟩
  have hnt : ∀ v, Placed s qs v → v ≠ t := fun v hv e => hsl (e ▸ (h.placed v hv).1)
  refine ⟨fun b v hv => ?_, fun v hv => ?_, fun v locks phase hv => ?_, fun r v hv => ?_,
    fun b v r hv => ?_, fun b v r hv => ?_, fun r r' v hv => ?_, fun r r' v hv hv' => ?_,
    fun r => ?_, fun r v hv => ?_⟩
  · obtain ⟨hv, hvw⟩ := (hmem b v).mp hv
    rw [huf v hvw]; exact h.queued b v hv
  · have hv' := (hpl v).mp hv
    rw [hpc v (hnt v hv'), hua]; exact h.placed v hv'
  · have hvt : v ≠ t := fun e => hsl' (by rw [e] at hv; rw [hv]; trivial)
    rw [hpc v hvt] at hv
    rw [hpl, hua]
    rcases h.sleeping v locks phase hv with h1 | ⟨h1, h2, h3⟩
    · exact .inl h1
    · have hvw : v ≠ w := fun e => h3 (e ▸ hwpl)
      exact .inr ⟨h1, by rw [huf v hvw, h2], h3⟩
  · rcases (hwk2 r v).mp hv with hv | ⟨-, rfl, h0⟩
    · rw [huf v fun e => hwwk r (e ▸ hv)]; exact h.wake_done r v hv
    · exact h0
  · rw [Ne, hfl2]
    rintro (hr | ⟨-, rfl, -⟩)
    · exact h.queued_flight b v r ((hmem b v).mp hv).1 hr
    · exact hwq b hv
  · rw [hwk2]
    rintro (hr | ⟨-, rfl, -⟩)
    · exact h.queued_wake b v r ((hmem b v).mp hv).1 hr
    · exact hwq b hv
  · rw [hwk2]
    rcases (hfl2 r v).mp hv with hv | ⟨-, rfl, h0⟩
    · rintro (hv' | ⟨-, rfl, -⟩)
      · exact h.flight_wake r r' v hv hv'
      · exact hwfl r hv
    · rintro (hv' | ⟨-, -, h0'⟩)
      · exact hwwk r' hv'
      · exact h0 h0'
  · rcases (hwk2 r v).mp hv with hv | ⟨hr, rfl, -⟩ <;>
      rcases (hwk2 r' v).mp hv' with hv' | ⟨hr', hvw, -⟩
    · exact h.wake_unique r r' v hv hv'
    · exact absurd (hvw ▸ hv) (hwwk r)
    · exact absurd hv' (hwwk r')
    · exact hr.trans hr'.symm
  · by_cases hr : r = t
    · subst hr
      rcases hwk'' with e | e <;> rw [e]
      · exact h.wake_nodup r
      · exact List.nodup_cons.mpr ⟨hwwk r, h.wake_nodup r⟩
    · rw [hpc r hr]; exact h.wake_nodup r
  · rcases (hfl2 r v).mp hv with hv | ⟨-, rfl, h0⟩
    · rw [huf v fun e => hwfl r (e ▸ hv)]; exact h.flight_need r v hv
    · exact h0

/-- A thread outside the pix lock reads only its `uflgs`, its locks, and their wait flags. -/
theorem threadInv_out {qs' : Nat → List Nat} {u : Nat} {p : Pc} (h : ThreadInv L s qs u p)
    (hp : ¬ p.InPix) (huf : s'.uflgs u = s.uflgs u) (hu : s'.held u = s.held u)
    (hw : ∀ b, (s.held u).getLsbD b → waitFlag L s b → waitFlag L s' b) :
    ThreadInv L s' qs' u p := by
  cases p with
  | waitForLocks _ => simpa [ThreadInv, huf] using h
  | unlockFailed T =>
    exact ⟨h.1, fun b hb => ⟨hu ▸ (h.2 b hb).1, hw b (h.2 b hb).1 (h.2 b hb).2⟩⟩
  | tryAquire _ _ _ _ => exact absurd trivial hp
  | tryAquireBand _ _ _ _ => exact absurd trivial hp
  | transferLocks _ _ _ _ => exact absurd trivial hp
  | _ => exact h

/-- A thread whose request and locks a step leaves alone keeps its request in order. -/
theorem acquiring_congr (hi : Inv L s qs) {u : Nat} {locks need : ErtsProcLocks}
    (h : request s' u = some (locks, need)) (hfg : flightGot s' u = flightGot s u)
    (hpc : s'.pc u = s.pc u) (huf : s'.uflgs u = s.uflgs u) (hheld : s'.held u = s.held u) :
    InAll L locks ∧ Acquiring (s'.held u) locks need := by
  rw [request_congr hfg hpc huf] at h
  rw [hheld]; exact hi.acquiring u locks need h

/-! ## Queues -/

section Queues

variable {wq : WaitQueues} {wait : Nat → Bool}

theorem queue_eq_none_iff (h : QueueInv L wq qs wait) (b : Nat) : wq.queue b = none ↔ qs b = [] :=
  ((h.ring b).eq_nil_iff).symm

/-- `enqueue_waiter` of a waiter on no queue, onto a queue with its wait flag. -/
theorem queueInv_enqueue {n w : Nat} (h : QueueInv L wq qs wait) (hn : n ≤ L.maxBit)
    (hw : ∀ b, w ∉ qs b) (hwait : wait n) :
    QueueInv L (wq.enqueueWaiter n w) (update qs n (qs n ++ [w])) wait where
  ring := (abstracts_enqueue ⟨h.ring, h.queue_disj⟩ hw).lists
  queue_le b hb := by
    by_cases hbn : b = n
    · exact hbn ▸ hn
    · exact h.queue_le b (by simpa [update_noteq hbn] using hb)
  queue_disj := (abstracts_enqueue ⟨h.ring, h.queue_disj⟩ hw).disj
  queue_wait b hb := by
    by_cases hbn : b = n
    · exact hbn ▸ hwait
    · exact h.queue_wait b (by simpa [update_noteq hbn] using hb)

/-- `dequeue_waiter` of a non-empty queue takes its head. -/
theorem queueInv_dequeue {n w : Nat} {l : List Nat} (h : QueueInv L wq qs wait)
    (hq : qs n = w :: l) :
    ∃ wq', wq.dequeueWaiter n = some (wq', w) ∧ QueueInv L wq' (update qs n l) wait ∧
      (wq'.queue n = none ↔ l = []) := by
  obtain ⟨wq', hd, ha, -⟩ := abstracts_dequeue ⟨h.ring, h.queue_disj⟩ hq
  have hne : ∀ b, update qs n l b ≠ [] → qs b ≠ [] := fun b hb => by
    by_cases hbn : b = n
    · rw [hbn, hq]; exact List.cons_ne_nil w l
    · rwa [update_noteq hbn] at hb
  refine ⟨wq', hd, ⟨ha.lists, fun b hb => h.queue_le b (hne b hb), ha.disj,
    fun b hb => h.queue_wait b (hne b hb)⟩, ?_⟩
  have := (ha.lists n).eq_nil_iff
  rw [update_same] at this
  exact this.symm

end Queues

end ProcLock.Frame
