import ProcLock.FastPath

/-! # `try_aquire` and `wait_for_locks` keep the invariant

The thread holding the pix lock runs `try_aquire` for a waiter `wtr`: itself, from
`wait_for_locks`, or a thread woken by `transfer_locks`. Lock by lock in ascending order it either
takes a free lock with no queue (`inv_tryAquire_take`, then `inv_tryAquireBand` clears the wait
flag it set) or queues `wtr` on the lock and stops (`inv_tryAquire_enqueue`); when it has all it
needs it stops too (`inv_tryAquireDone_zero`). `wait_for_locks` then sleeps until
`transfer_locks` clears `uaflgs` (`inv_sleepStep`). -/

namespace ProcLock.Acquire

open Function ProcLock.Bits ProcLock.Queue ProcLock.Machine ProcLock.Invariant ProcLock.Frame
open ProcLock.FastPath

variable {L : Layout} {s : St} {qs : Nat → List Nat} {t : Nat}

/-! ## The pix holder -/

theorem eq_of_pix (hi : Inv L s qs) (hpix : s.pix = some t) {u : Nat} (hu : (s.pc u).InPix) :
    u = t :=
  Option.some.inj (((hi.pix_iff u).mpr hu).symm.trans hpix)

/-- A wait flag has a queue, or the pix holder has it to unset. -/
theorem wait_queue_pix (hi : Inv L s qs) (hpix : s.pix = some t) {b : Nat} (hb : b ≤ L.maxBit)
    (hw : waitFlag L s b) : qs b ≠ [] ∨ (s.pc t).Pending b :=
  (hi.wait_queue b hb hw).imp_right fun ⟨_, hr⟩ => eq_of_pix hi hpix hr.inPix ▸ hr

theorem flightGot_of_pix (hpix : s.pix = some t) {p : Pc} :
    flightGot { s with pc := update s.pc t p } = p.flightGot := by
  funext u; simp [flightGot, hpix]

/-- A thread's invariant does not read where the threads are. -/
theorem threadInv_setPc {u : Nat} {p p' : Pc} (h : ThreadInv L s qs u p') :
    ThreadInv L { s with pc := update s.pc t p } qs u p' :=
  threadInv_frame h rfl rfl (fun _ _ => ⟨rfl, rfl⟩) fun _ _ _ => id

/-- A step of the pix holder that only moves it on, keeping what the others see of it. -/
theorem inv_setPc_pix (hi : Inv L s qs) (hpix : s.pix = some t) {p : Pc} (hin : p.InPix)
    (hfl : p.flight = (s.pc t).flight) (hwk : p.wake = (s.pc t).wake)
    (hpend : ∀ b, (s.pc t).Pending b → p.Pending b) (hfg : p.flightGot = (s.pc t).flightGot)
    (hreq : request { s with pc := update s.pc t p } t = request s t)
    (hthr : ThreadInv L s qs t p) : Inv L { s with pc := update s.pc t p } qs := by
  have hin0 : (s.pc t).InPix := (hi.pix_iff t).mp hpix
  refine ⟨hi.own, hi.queues, placeInv_frame hi.places (fun r => ?_) (fun w hw => ?_)
    (fun _ _ => rfl) (fun _ _ => rfl), fun b hb hw => ?_, fun u locks need h => ?_, fun r => ?_,
    fun u => ?_⟩
  · by_cases hr : r = t
    · subst hr; simp [hfl, hwk]
    · simp [update_noteq hr]
  · have hwt : w ≠ t := by
      rintro rfl; simp only [update_same] at hw; exact hw.elim hin0.not_sleeping hin.not_sleeping
    simp [update_noteq hwt]
  · rcases hi.wait_queue b hb hw with h | ⟨r, hr⟩
    · exact .inl h
    · by_cases hrt : r = t
      · subst hrt; exact .inr ⟨r, by simpa using hpend b hr⟩
      · exact .inr ⟨r, by simpa [update_noteq hrt] using hr⟩
  · by_cases hut : u = t
    · subst hut; rw [hreq] at h; exact hi.acquiring u locks need h
    · have hfg' : flightGot { s with pc := update s.pc t p } = flightGot s := by
        rw [flightGot_of_pix hpix, hfg]; funext v; simp [flightGot, hpix]
      rw [request_congr (congrFun hfg' u) (update_noteq hut _ _) rfl] at h
      exact hi.acquiring u locks need h
  · by_cases hrt : r = t
    · subst hrt; simpa [hpix] using hin
    · simpa [update_noteq hrt] using hi.pix_iff r
  · by_cases hut : u = t
    · subst hut; simpa using threadInv_setPc hthr
    · simp only [update_noteq hut]
      exact threadInv_out (hi.threads u) (fun h => hut (eq_of_pix hi hpix h)) rfl rfl
        (fun _ _ => id)

/-! ## Taking the pix lock in `wait_for_locks` -/

theorem inv_pixWait (hi : Inv L s qs) {locks : ErtsProcLocks} (hpc : s.pc t = .waitForLocks locks)
    (hpix : s.pix = none) :
    Inv L { s with pix := some t, pc := update s.pc t (.tryAquire (.waitForLocks locks) t 0 0) }
      qs := by
  have hout : ∀ u, ¬ (s.pc u).InPix := fun u h => by simp [(hi.pix_iff u).mpr h] at hpix
  refine ⟨hi.own, hi.queues, placeInv_frame hi.places (fun r => ?_) (fun w hw => ?_)
    (fun _ _ => rfl) (fun _ _ => rfl), fun b hb hw => ?_, fun u locks' need h => ?_, fun r => ?_,
    fun u => ?_⟩
  · by_cases hr : r = t
    · subst hr; simp [hpc, Pc.flight, Pc.wake, Ret.wake]
    · simp [update_noteq hr]
  · have hwt : w ≠ t := by
      rintro rfl; simp [hpc, Pc.Sleeping] at hw
    simp [update_noteq hwt]
  · rcases hi.wait_queue b hb hw with h | ⟨r, hr⟩
    · exact .inl h
    · exact absurd hr.inPix (hout r)
  · have hfg : flightGot
        { s with pix := some t, pc := update s.pc t (.tryAquire (.waitForLocks locks) t 0 0) } =
        flightGot s := by
      funext v; simp [flightGot, hpix, Pc.flightGot]
    by_cases hut : u = t
    · subst hut
      simp only [request, update_same, and_not_zero] at h
      exact hi.acquiring u locks' need (by simpa [request, hpc] using h)
    · rw [request_congr (congrFun hfg u) (update_noteq hut _ _) rfl] at h
      exact hi.acquiring u locks' need h
  · by_cases hrt : r = t
    · subst hrt; simp [Pc.InPix]
    · simpa [update_noteq hrt, Ne.symm hrt] using hout r
  · by_cases hut : u = t
    · subst hut; simp only [update_same]
      exact ⟨⟨rfl, by omega, rfl⟩, fun i => by simp⟩
    · simp only [update_noteq hut]
      exact threadInv_out (hi.threads u) (hout u) rfl rfl (fun _ _ => id)

/-! ## `try_aquire` -/

section TryAquire

variable {ret : Ret} {wtr n : Nat} {got : ErtsProcLocks}

/-- The waiter of `try_aquire` asks for what it needs beyond what `try_aquire` got it; a step that
keeps its `uflgs` and changes what was got changes its request accordingly. -/
theorem request_wtr_congr (hi : Inv L s qs) (htry : TryInv L s qs t ret wtr n)
    (hpc : s.pc t = .tryAquire ret wtr got n ∨ s.pc t = .tryAquireBand ret wtr got n)
    {s' : St} {got' : ErtsProcLocks} {n' : Nat}
    (hpc' : s'.pc t = .tryAquire ret wtr got' n' ∨ s'.pc t = .tryAquireBand ret wtr got' n')
    (hpix : s'.pix = some t) (hpcw : wtr ≠ t → s'.pc wtr = s.pc wtr)
    (huf : s'.uflgs wtr = s.uflgs wtr) :
    ∃ locks, request s wtr = some (locks, s.uflgs wtr &&& ~~~got) ∧
      request s' wtr = some (locks, s.uflgs wtr &&& ~~~got') := by
  cases ret with
  | waitForLocks locks =>
    have : wtr = t := htry.ret
    subst this
    exact ⟨locks, by rcases hpc with h | h <;> simp [request, h],
      by rcases hpc' with h | h <;> simp [request, h, huf]⟩
  | transferLocks tr m U wake =>
    have hfl : (s.pc t).flight = some wtr := by rcases hpc with h | h <;> rw [h] <;> rfl
    have hwsl := (hi.places.placed wtr (.inr (.inl ⟨t, hfl⟩))).1
    have hwt : wtr ≠ t := fun e => ((hi.pix_iff t).mp htry.pix).not_sleeping (e ▸ hwsl)
    obtain ⟨locks, phase, hw⟩ := Pc.sleeping_iff.mp hwsl
    refine ⟨locks, ?_, ?_⟩
    · rcases hpc with h | h <;> simp [request, hw, flightGot, htry.pix, h, Pc.flightGot]
    · rcases hpc' with h | h <;>
        simp [request, hpcw hwt, hw, flightGot, hpix, h, Pc.flightGot, huf]

theorem request_wtr (hi : Inv L s qs) (htry : TryInv L s qs t ret wtr n)
    (hpc : s.pc t = .tryAquire ret wtr got n ∨ s.pc t = .tryAquireBand ret wtr got n) :
    ∃ locks, request s wtr = some (locks, s.uflgs wtr &&& ~~~got) :=
  (request_wtr_congr hi htry hpc hpc htry.pix (fun _ => rfl) rfl).imp fun _ h => h.1

/-- Taking the lowest lock still needed keeps a request in order. -/
theorem acquiring_take {held locks need : ErtsProcLocks} (h : Acquiring held locks need) {b : Nat}
    (hb : need.getLsbD b) (hlow : ∀ i < b, need.getLsbD i = false) :
    Acquiring (held ||| lockBit b) locks (need &&& ~~~lockBit b) where
  sub i hi := h.sub i (by rw [getLsbD_and_not, Bool.and_eq_true] at hi; exact hi.1)
  holds i hl hni := by
    rw [BitVec.getLsbD_or, Bool.or_eq_true]
    by_cases hib : i = b
    · subst hib; exact .inr (by simp [BitVec.lt_of_getLsbD hb])
    · simp only [getLsbD_and_not, getLsbD_lockBit, hib, decide_False, Bool.and_false,
        Bool.not_false, Bool.and_true] at hni
      exact .inl (h.holds i hl hni)
  disj i hi := by
    rw [getLsbD_and_not, Bool.and_eq_true] at hi
    have hib : i ≠ b := fun e => by subst e; simp [BitVec.lt_of_getLsbD hb] at hi
    simp [h.disj i hi.1, hib]
  upper i j hl hni hj := by
    rw [getLsbD_and_not, Bool.and_eq_true] at hj
    have hjb : j ≠ b := fun e => by subst e; simp [BitVec.lt_of_getLsbD hb] at hj
    by_cases hi : need.getLsbD i
    · have hib : i = b := by
        by_contra hib; simp [getLsbD_and_not, hi, hib, BitVec.lt_of_getLsbD hi] at hni
      subst hib
      by_contra hji
      simp [hlow j (lt_of_le_of_ne (not_lt.mp hji) hjb)] at hj
    · exact h.upper i j hl (by simpa using hi) hj.1

/-- Only the pix holder has a thread in flight. -/
theorem flight_eq_none (hi : Inv L s qs) (hpix : s.pix = some t) {r : Nat} (hr : r ≠ t) :
    (s.pc r).flight = none := by
  cases h : (s.pc r).flight with
  | none => rfl
  | some v => exact absurd (eq_of_pix hi hpix (Pc.inPix_of_flight h)) hr

/-- `try_aquire` passes a lock `wtr` does not need. -/
theorem inv_tryAquire_skip (hi : Inv L s qs) (hpc : s.pc t = .tryAquire ret wtr got n)
    (hn : n ≤ L.maxBit) (hbit : (s.uflgs wtr).getLsbD n = false) :
    Inv L { s with pc := update s.pc t (.tryAquire ret wtr got (n + 1)) } qs := by
  obtain ⟨htry, hgot⟩ : ThreadInv L s qs t (.tryAquire ret wtr got n) := hpc ▸ hi.threads t
  refine inv_setPc_pix hi htry.pix trivial (by rw [hpc]; cases ret <;> rfl) (by rw [hpc]; rfl)
    (fun b h => by rw [hpc] at h; exact h) (by rw [hpc]; cases ret <;> rfl)
    (by cases ret <;> simp [request, hpc]) ⟨⟨htry.pix, by have := htry.lockNo_le; omega, htry.ret⟩,
      fun i => ?_⟩
  rw [hgot i]
  constructor
  · rintro ⟨h1, h2⟩; exact ⟨h1, by omega⟩
  · rintro ⟨h1, h2⟩
    refine ⟨h1, lt_of_le_of_ne (Nat.lt_succ_iff.mp h2) fun e => ?_⟩
    subst e; rw [hbit] at h1; exact absurd h1 (by decide)

/-- `try_aquire` stops with nothing left to take: `wait_for_locks` returns with the pix lock
released, and `transfer_locks` puts the waiter on its wake list. -/
theorem inv_tryAquireDone_zero (hi : Inv L s qs) (hpc : s.pc t = .tryAquire ret wtr got n)
    (h0 : s.uflgs wtr &&& ~~~got = 0) : Inv L (tryAquireDone s t ret wtr got) qs := by
  obtain ⟨htry, hgot⟩ : ThreadInv L s qs t (.tryAquire ret wtr got n) := hpc ▸ hi.threads t
  have hpix := htry.pix
  have hin : (s.pc t).InPix := (hi.pix_iff t).mp hpix
  have hout : ∀ u, u ≠ t → ¬ (s.pc u).InPix := fun u hu h => hu (eq_of_pix hi hpix h)
  cases ret with
  | waitForLocks locks =>
    have hwt : wtr = t := htry.ret
    subst hwt
    rw [tryAquireDone_waitForLocks_zero h0]
    have hns : ∀ v, (s.pc v).Sleeping ∨ ((update s.pc wtr .idle) v).Sleeping → v ≠ wtr := by
      rintro v hv rfl; simp [hpc, Pc.Sleeping] at hv
    refine ⟨hi.own, hi.queues, placeInv_frame hi.places (fun r => ?_)
      (fun v hv => update_noteq (hns v hv) _ _) (fun v hv => update_noteq (hns v (.inl hv)) _ _)
      (fun _ _ => rfl), fun b hb hw => ?_, fun u locks' need h => ?_, fun r => ?_, fun u => ?_⟩
    · by_cases hr : r = wtr
      · subst hr; simp [hpc, Pc.flight, Pc.wake, Ret.wake]
      · simp [update_noteq hr]
    · refine .inl ((hi.wait_queue b hb hw).resolve_right fun ⟨r, hr⟩ => ?_)
      obtain rfl := eq_of_pix hi hpix hr.inPix
      rw [hpc] at hr; simp [Pc.Pending, Ret.unset] at hr
    · by_cases hut : u = wtr
      · subst hut; simp [request] at h
      · have hfg : flightGot s u = 0 := by simp [flightGot, hpix, hpc, Pc.flightGot]
        rw [request_congr (hfg.symm ▸ rfl) (update_noteq hut _ _) (update_noteq hut _ _)] at h
        exact hi.acquiring u locks' need h
    · by_cases hrt : r = wtr
      · subst hrt; simp [Pc.InPix]
      · simpa [update_noteq hrt] using hout r hrt
    · by_cases hut : u = wtr
      · subst hut; simp only [update_same]; trivial
      · simp only [update_noteq hut]
        exact threadInv_out (hi.threads u) (hout u hut) (update_noteq hut _ _) rfl fun _ _ => id
  | transferLocks tr m U wake =>
    have hfl : (s.pc t).flight = some wtr := by rw [hpc]; rfl
    have hwsl := (hi.places.placed wtr (.inr (.inl ⟨t, hfl⟩))).1
    have hwt : wtr ≠ t := fun e => hin.not_sleeping (e ▸ hwsl)
    obtain ⟨-, htr⟩ := htry.ret
    rw [tryAquireDone_transferLocks_zero h0]
    refine ⟨hi.own, hi.queues, placeInv_wake hi.places hfl (fun r hr => flight_eq_none hi hpix hr)
      (fun r hr => update_noteq hr _ _) (by simp [Pc.flight]) (by simp [hpc, Pc.wake, Ret.wake])
      hin.not_sleeping (by simp [Pc.Sleeping]) (fun u hu => update_noteq hu _ _) (by simp) rfl,
      fun b hb hw => ?_, fun u locks' need h => ?_, fun r => ?_, fun u => ?_⟩
    · rcases wait_queue_pix hi hpix hb hw with h | hr
      · exact .inl h
      · rw [hpc] at hr; exact .inr ⟨t, by simpa [Pc.Pending] using hr⟩
    · obtain ⟨locks, phase, hw⟩ := Pc.sleeping_iff.mp hwsl
      by_cases hut : u = t
      · subst hut; simp [request] at h
      by_cases huw : u = wtr
      · subst huw
        obtain ⟨lk, hlk⟩ := request_wtr hi htry (.inl hpc)
        rw [h0] at hlk
        simp [request, hw, update_noteq hut, flightGot, hpix, Pc.flightGot] at h hlk
        obtain ⟨rfl, rfl⟩ := h
        exact hi.acquiring u _ 0 (by simp [request, hw, flightGot, hpix, hpc, Pc.flightGot, h0, hlk])
      · have hfg : flightGot
            { s with uflgs := update s.uflgs wtr 0,
                     pc := update s.pc t (.transferLocks tr (m + 1) U (wtr :: wake)) } u =
            flightGot s u := by
          simp [flightGot, hpix, hpc, Pc.flightGot, Ne.symm huw]
        rw [request_congr hfg (update_noteq hut _ _) (update_noteq huw _ _)] at h
        exact hi.acquiring u locks' need h
    · by_cases hrt : r = t
      · subst hrt; simp [hpix, Pc.InPix]
      · simpa [update_noteq hrt] using hi.pix_iff r
    · by_cases hut : u = t
      · subst hut; simp only [update_same]; exact ⟨hpix, transferInv_frame (transferInv_wake htr) (fun _ h _ => h) (fun _ => id) fun _ _ _ => id⟩
      by_cases huw : u = wtr
      · subst huw; obtain ⟨locks, phase, hw⟩ := Pc.sleeping_iff.mp hwsl
        simp only [update_noteq hut, hw]; trivial
      · simp only [update_noteq hut]
        exact threadInv_out (hi.threads u) (hout u hut) (update_noteq huw _ _) rfl fun _ _ => id

/-- `try_aquire` takes a free lock with an empty queue for `wtr`, setting its wait flag (the
`bor`). -/
theorem inv_tryAquire_take (hi : Inv L s qs) (hpc : s.pc t = .tryAquire ret wtr got n)
    (hn : n ≤ L.maxBit) (hbit : (s.uflgs wtr).getLsbD n) (hq : qs n = [])
    (hfree : s.flags.getLsbD n = false) {s' : St}
    (hflags : s'.flags = (s.flags ||| lockBit n) ||| lockBit n <<< L.waiterShift)
    (hheld : s'.held = update s.held wtr (s.held wtr ||| lockBit n))
    (hpc' : s'.pc = update s.pc t (.tryAquireBand ret wtr (got ||| lockBit n) n))
    (hwq : s'.wq = s.wq) (huf : s'.uflgs = s.uflgs) (hua : s'.uaflgs = s.uaflgs)
    (hpix' : s'.pix = s.pix) : Inv L s' qs := by
  obtain ⟨htry, hgot⟩ : ThreadInv L s qs t (.tryAquire ret wtr got n) := hpc ▸ hi.threads t
  have hpix := htry.pix
  have hin : (s.pc t).InPix := (hi.pix_iff t).mp hpix
  have hn32 := lt_of_le_maxBit hn
  have hlb : ∀ i, (lockBit n).getLsbD i = decide (i = n) := fun i => by
    rw [getLsbD_lockBit]; by_cases h : i = n <;> simp [h, hn32]
  have hwf : ∀ b, waitFlag L s' b = (waitFlag L s b || decide (b = n)) := fun b => by
    have := L.maxBit_lt_waiterShift
    simp only [waitFlag, hflags]
    rw [getLsbD_setWait _ hn, BitVec.getLsbD_or, hlb,
      decide_eq_false (show L.waiterShift + b ≠ n by omega), Bool.or_false]
  have hwmono : ∀ b, waitFlag L s b → waitFlag L s' b := fun b h => by rw [hwf, h]; rfl
  -- `n` is the lowest lock `wtr` still needs, and no lock of the unset wait flags
  have hlow : ∀ i < n, (s.uflgs wtr &&& ~~~got).getLsbD i = false := fun i hi => by
    rw [getLsbD_and_not]
    cases h : (s.uflgs wtr).getLsbD i
    · rfl
    · simp [(hgot i).mpr ⟨h, hi⟩]
  have hgn : got.getLsbD n = false := by
    cases h : got.getLsbD n
    · rfl
    · exact absurd ((hgot n).mp h).2 (lt_irrefl n)
  have hunset : ∀ b, ret.unset.getLsbD b → b ≠ n := by
    cases ret with
    | waitForLocks _ => simp [Ret.unset]
    | transferLocks tr m U wake =>
      rintro b hb rfl
      obtain ⟨hup, htr⟩ := htry.ret
      exact absurd (hup b hbit) (by have := (htr.unset b hb).1; omega)
  have hwt : ∀ u, (s.pc u).Sleeping ∨ (s'.pc u).Sleeping → u ≠ t := by
    rintro u hu rfl; rw [hpc', update_same] at hu; exact hu.elim hin.not_sleeping id
  have hsame : ∀ u, u ≠ t → s'.pc u = s.pc u := fun u hu => by rw [hpc', update_noteq hu]
  refine ⟨?_, ?_, placeInv_frame hi.places (fun r => ?_) (fun u hu => hsame u (hwt u hu))
    (fun _ _ => by rw [huf]) (fun _ _ => by rw [hua]), fun b hb hw => ?_,
    fun u locks need h => ?_, fun r => ?_, fun u => ?_⟩
  · rw [hflags, hheld]
    refine ownInv_setWait (own_take hi (fun i h => ?_) (fun i h => ?_) fun i => BitVec.getLsbD_or ..)
      hn (by simp [hlb])
    · rw [hlb] at h; simp only [decide_eq_true_eq] at h; exact h ▸ hn
    · rw [hlb] at h; simp only [decide_eq_true_eq] at h; exact h ▸ hfree
  · rw [hwq]; exact { hi.queues with queue_wait := fun b hb => hwmono b (hi.queues.queue_wait b hb) }
  · by_cases hr : r = t
    · subst hr; rw [hpc', update_same, hpc]; cases ret <;> exact ⟨rfl, rfl⟩
    · rw [hsame r hr]; exact ⟨rfl, rfl⟩
  · rw [hwf] at hw
    by_cases hbn : b = n
    · exact .inr ⟨t, by rw [hpc', update_same]; exact .inl hbn⟩
    · rw [decide_eq_false hbn, Bool.or_false] at hw
      rcases wait_queue_pix hi hpix hb hw with h | hr
      · exact .inl h
      · rw [hpc] at hr; exact .inr ⟨t, by rw [hpc', update_same]; exact .inr hr⟩
  · obtain ⟨lk, hlk, hlk'⟩ := request_wtr_congr hi htry (.inl hpc)
      (by rw [hpc', update_same]; exact .inr rfl) (by rw [hpix', hpix])
      (fun h => hsame wtr h) (by rw [huf])
    by_cases huw : u = wtr
    · subst huw
      rw [hlk'] at h
      obtain ⟨rfl, rfl⟩ := Prod.mk.inj (Option.some.inj h)
      obtain ⟨hall, hacq⟩ := hi.acquiring u lk _ hlk
      refine ⟨hall, ?_⟩
      have := acquiring_take hacq (by rw [getLsbD_and_not, hbit, hgn]; rfl) hlow
      have heq : s.uflgs u &&& ~~~(got ||| lockBit n) = s.uflgs u &&& ~~~got &&& ~~~lockBit n := by
        ext i; simp only [getLsbD_and_not, BitVec.getLsbD_or, Bool.not_or, Bool.and_assoc]
      rw [hheld, update_same, heq]; exact this
    · have hfg : flightGot s' u = flightGot s u := by
        simp only [flightGot, hpix', hpix, hpc', update_same, hpc]
        cases ret <;> simp [Pc.flightGot, Ne.symm huw]
      rw [hheld, update_noteq huw]
      by_cases hut : u = t
      · subst hut
        cases ret with
        | waitForLocks _ => exact absurd htry.ret (Ne.symm huw)
        | transferLocks _ _ _ _ => simp [request, hpc'] at h
      · rw [request_congr hfg (hsame u hut) (by rw [huf])] at h
        exact hi.acquiring u locks need h
  · by_cases hrt : r = t
    · subst hrt; rw [hpix', hpix, hpc', update_same]; simp [Pc.InPix]
    · rw [hpix', hsame r hrt]; exact hi.pix_iff r
  · by_cases hut : u = t
    · subst hut
      rw [hpc', update_same]
      refine ⟨tryInv_frame htry (fun b h _ => hwmono b h) (by rw [hpix']) (by rw [huf]) (fun b h => ?_)
        (fun b hb v hv => ?_), fun i => ?_, hn, by rw [huf]; exact hbit,
        by rw [hheld, update_same]; simp [hlb], by rw [hwf]; simp, hq⟩
      · rw [hheld]; by_cases hwu : u = wtr
        · subst hwu; simp [h]
        · rw [update_noteq hwu]; exact h
      · have hbn := hunset b hb
        rw [hheld] at hv
        by_cases hvw : v = wtr
        · subst hvw; simpa [hlb, hbn] using hv
        · rwa [update_noteq hvw] at hv
      · rw [huf, BitVec.getLsbD_or, hlb, Bool.or_eq_true, hgot i, decide_eq_true_eq]
        constructor
        · rintro (⟨h1, h2⟩ | rfl)
          · exact ⟨h1, h2.le⟩
          · exact ⟨hbit, le_rfl⟩
        · rintro ⟨h1, h2⟩
          rcases Nat.lt_or_eq_of_le h2 with h2 | rfl
          · exact .inl ⟨h1, h2⟩
          · exact .inr rfl
    · rw [hsame u hut]
      by_cases huw : u = wtr
      · subst huw
        obtain ⟨lk, -⟩ := request_wtr hi htry (.inl hpc)
        have hsl : (s.pc u).Sleeping := by
          cases ret with
          | waitForLocks _ => exact absurd htry.ret hut
          | transferLocks _ _ _ _ =>
            exact (hi.places.placed u (.inr (.inl ⟨t, by rw [hpc]; rfl⟩))).1
        obtain ⟨locks, phase, hw⟩ := Pc.sleeping_iff.mp hsl
        rw [hw]; trivial
      · exact threadInv_out (hi.threads u) (fun h => hut (eq_of_pix hi hpix h)) (by rw [huf])
          (by rw [hheld, update_noteq huw]) fun b _ h => hwmono b h

/-- The locks of the wait flags `transfer_locks` will clear lie below what `wtr` still needs. -/
theorem unset_lt (htry : TryInv L s qs t ret wtr n) {b i : Nat} (hb : ret.unset.getLsbD b)
    (hi : (s.uflgs wtr).getLsbD i) : b < i := by
  cases ret with
  | waitForLocks _ => simp [Ret.unset] at hb
  | transferLocks tr m U wake =>
    obtain ⟨hup, htr⟩ := htry.ret
    have := (htr.unset b hb).1; have := hup i hi; omega

/-- `try_aquire` clears the wait flag of the lock it took (the `band`) and moves on. -/
theorem inv_tryAquireBand (hi : Inv L s qs) (hpc : s.pc t = .tryAquireBand ret wtr got n)
    {s' : St} (hflags : s'.flags = s.flags &&& ~~~(lockBit n <<< L.waiterShift))
    (hpc' : s'.pc = update s.pc t (.tryAquire ret wtr got (n + 1))) (hwq : s'.wq = s.wq)
    (hheld : s'.held = s.held) (huf : s'.uflgs = s.uflgs) (hua : s'.uaflgs = s.uaflgs)
    (hpix' : s'.pix = s.pix) : Inv L s' qs := by
  obtain ⟨htry, hgot, hn, hbit, hheldn, -, hq⟩ :
    ThreadInv L s qs t (.tryAquireBand ret wtr got n) := hpc ▸ hi.threads t
  have hpix := htry.pix
  have hin : (s.pc t).InPix := (hi.pix_iff t).mp hpix
  have hwf : ∀ b, waitFlag L s' b = (waitFlag L s b && !decide (b = n)) := fun b => by
    simp only [waitFlag, hflags, getLsbD_and_not, getLsbD_shift_add, getLsbD_lockBit]
    by_cases hbn : b = n
    · subst hbn; simp [L.waiter_lt hn, lt_of_le_maxBit hn]
    · simp [hbn]
  have hwne : ∀ b, waitFlag L s b → b ≠ n → waitFlag L s' b := fun b h hbn => by
    simp [hwf, h, hbn]
  have hqn : ∀ b, qs b ≠ [] → b ≠ n := fun b hb e => hb (e ▸ hq)
  have hun : ∀ b, ret.unset.getLsbD b → b ≠ n := fun b hb => (unset_lt htry hb hbit).ne
  have hsame : ∀ u, u ≠ t → s'.pc u = s.pc u := fun u hu => by rw [hpc', update_noteq hu]
  have hfg : ∀ u, flightGot s' u = flightGot s u := fun u => by
    simp only [flightGot, hpix', hpix, hpc', update_same, hpc]; cases ret <;> rfl
  refine ⟨by rw [hflags, hheld]; exact ownInv_clearWait hi.own _, ?_,
    placeInv_frame hi.places (fun r => ?_) (fun u hu => hsame u ?_) (fun _ _ => by rw [huf])
      (fun _ _ => by rw [hua]), fun b hb hw => ?_, fun u locks need h => ?_, fun r => ?_,
    fun u => ?_⟩
  · rw [hwq]
    exact { hi.queues with
      queue_wait := fun b hb => hwne b (hi.queues.queue_wait b hb) (hqn b hb) }
  · by_cases hr : r = t
    · subst hr; rw [hpc', update_same, hpc]; cases ret <;> exact ⟨rfl, rfl⟩
    · rw [hsame r hr]; exact ⟨rfl, rfl⟩
  · rintro rfl; rw [hpc', update_same] at hu; exact hu.elim hin.not_sleeping id
  · simp only [hwf, Bool.and_eq_true, Bool.not_eq_true', decide_eq_false_iff_not] at hw
    rcases wait_queue_pix hi hpix hb hw.1 with h | hr
    · exact .inl h
    · rw [hpc] at hr; exact .inr ⟨t, by rw [hpc', update_same]; exact hr.resolve_left hw.2⟩
  · rw [hheld]
    by_cases hut : u = t
    · subst hut
      have hreq : request s' u = request s u := by cases ret <;> simp [request, hpc', hpc, huf]
      exact hi.acquiring u locks need (hreq ▸ h)
    · rw [request_congr (hfg u) (hsame u hut) (by rw [huf])] at h
      exact hi.acquiring u locks need h
  · by_cases hrt : r = t
    · subst hrt; rw [hpix', hpix, hpc', update_same]; simp [Pc.InPix]
    · rw [hpix', hsame r hrt]; exact hi.pix_iff r
  · by_cases hut : u = t
    · subst hut
      rw [hpc', update_same]
      have ht' : TryInv L s' qs u ret wtr n := tryInv_frame htry
        (fun b h hb => hwne b h (hb.elim (hqn b) (hun b))) (by rw [hpix']) (by rw [huf])
        (by rw [hheld]; exact fun _ => id) (fun b _ v hv => by rwa [hheld] at hv)
      refine ⟨⟨ht'.pix, by omega, ht'.ret⟩, fun i => ?_⟩
      rw [huf, hgot i, Nat.lt_succ_iff]
    · rw [hsame u hut]
      by_cases huw : u = wtr
      · subst huw
        have hsl : (s.pc u).Sleeping := by
          cases ret with
          | waitForLocks _ => exact absurd htry.ret hut
          | transferLocks _ _ _ _ =>
            exact (hi.places.placed u (.inr (.inl ⟨t, by rw [hpc]; rfl⟩))).1
        obtain ⟨locks, phase, hw⟩ := Pc.sleeping_iff.mp hsl
        rw [hw]; trivial
      · refine threadInv_out (hi.threads u) (fun h => hut (eq_of_pix hi hpix h)) (by rw [huf])
          (by rw [hheld]) fun b hb h => hwne b h ?_
        intro hbn; rw [hbn] at hb; exact huw (hi.own.held_unique n u wtr hb hheldn)

/-- When `try_aquire` sets the wait flag of `n` and queues `wtr` there, every wait flag still has a
queue, or the pix holder still has it to unset. -/
theorem wait_queue_setWait (hi : Inv L s qs) (hpix : s.pix = some t) {n b wtr : Nat}
    (hn : n ≤ L.maxBit) (hb : b ≤ L.maxBit)
    (hw : (s.flags ||| lockBit n <<< L.waiterShift).getLsbD (L.waiterShift + b)) :
    update qs n (qs n ++ [wtr]) b ≠ [] ∨ (s.pc t).Pending b := by
  rw [getLsbD_setWait _ hn] at hw
  by_cases hbn : b = n
  · exact .inl (by rw [hbn, update_same]; simp)
  · rw [decide_eq_false hbn, Bool.or_false] at hw
    exact (wait_queue_pix hi hpix hb hw).imp_left fun h => by rwa [update_noteq hbn]

/-- `try_aquire` queues `wtr` on a lock that is taken, with the wait flag set, and stops:
`wait_for_locks` goes to sleep, `transfer_locks` moves on. -/
theorem inv_tryAquire_enqueue (hi : Inv L s qs) (hpc : s.pc t = .tryAquire ret wtr got n)
    (hn : n ≤ L.maxBit) (hbit : (s.uflgs wtr).getLsbD n) (hlock : s.flags.getLsbD n) :
    Inv L (tryAquireDone { s with flags := s.flags ||| lockBit n <<< L.waiterShift,
                                  wq := s.wq.enqueueWaiter n wtr } t ret wtr got)
      (update qs n (qs n ++ [wtr])) := by
  obtain ⟨htry, hgot⟩ : ThreadInv L s qs t (.tryAquire ret wtr got n) := hpc ▸ hi.threads t
  have hpix := htry.pix
  have hin : (s.pc t).InPix := (hi.pix_iff t).mp hpix
  have hout : ∀ u, u ≠ t → ¬ (s.pc u).InPix := fun u hu h => hu (eq_of_pix hi hpix h)
  have hgn : got.getLsbD n = false := by
    cases h : got.getLsbD n
    · rfl
    · exact absurd ((hgot n).mp h).2 (lt_irrefl n)
  have hufn : (s.uflgs wtr &&& ~~~got).getLsbD n := by rw [getLsbD_and_not, hbit, hgn]; rfl
  have huf0 : s.uflgs wtr &&& ~~~got ≠ 0 := ne_zero_iff.mpr ⟨n, hufn⟩
  have hlow : IsLowest (s.uflgs wtr &&& ~~~got) n := ⟨hufn, fun i hi => by
    rw [getLsbD_and_not]
    cases h : (s.uflgs wtr).getLsbD i
    · rfl
    · simp [(hgot i).mpr ⟨h, hi⟩]⟩
  have hown := ownInv_setWait hi.own hn hlock
  have hwf : ∀ b, (s.flags ||| lockBit n <<< L.waiterShift).getLsbD (L.waiterShift + b) =
      (waitFlag L s b || decide (b = n)) := fun b => by rw [getLsbD_setWait _ hn]; rfl
  have hwait : ∀ b, waitFlag L s b →
      (s.flags ||| lockBit n <<< L.waiterShift).getLsbD (L.waiterShift + b) := fun b h => by
    rw [hwf, h]; rfl
  have hqs : ∀ b, qs b ≠ [] → update qs n (qs n ++ [wtr]) b ≠ [] := fun b hb => by
    by_cases hbn : b = n
    · subst hbn; simp
    · rwa [update_noteq hbn]
  have hq0 := fun w hw => queueInv_enqueue (w := w)
    { hi.queues with queue_wait := fun b hb => hwait b (hi.queues.queue_wait b hb) } hn hw
    (by rw [hwf]; simp)
  have huf0' : ({ s with flags := s.flags ||| lockBit n <<< L.waiterShift,
                          wq := s.wq.enqueueWaiter n wtr } : St).uflgs wtr &&& ~~~got ≠ 0 := huf0
  cases ret with
  | waitForLocks locks =>
    have hwt : wtr = t := htry.ret
    subst hwt
    rw [tryAquireDone_waitForLocks huf0']
    have hnq : ∀ b, wtr ∉ qs b := fun b hb => hin.not_sleeping (hi.places.placed wtr (.inl ⟨b, hb⟩)).1
    have hnw : ∀ r, wtr ∉ (s.pc r).wake := fun r hr =>
      hin.not_sleeping (hi.places.placed wtr (.inr (.inr ⟨r, hr⟩))).1
    refine ⟨hown, hq0 wtr hnq, placeInv_enqueue hi.places (fun r => ?_) (fun r => ?_)
      (fun r v hr => ?_) (fun v hv _ => update_noteq hv _ _) (by simp [Pc.Sleeping]) (by simp)
      (fun v hv => update_noteq hv _ _) (fun v hv => update_noteq hv _ _) (by simpa using hlow)
      hnq hnw, fun b hb hw => ?_, fun u locks' need h => ?_, fun r => ?_, fun u => ?_⟩
    · by_cases hr : r = wtr
      · subst hr; simp [Pc.flight]
      · simp [update_noteq hr, flight_eq_none hi hpix hr]
    · by_cases hr : r = wtr
      · subst hr; simp [hpc, Pc.wake, Ret.wake]
      · simp [update_noteq hr]
    · by_cases hrt : r = wtr
      · subst hrt; rw [hpc] at hr; simp [Pc.flight] at hr
      · rw [flight_eq_none hi hpix hrt] at hr; cases hr
    · rcases wait_queue_setWait hi hpix hn hb hw with h | hr
      · exact .inl h
      · rw [hpc] at hr; simp [Pc.Pending, Ret.unset] at hr
    · by_cases hut : u = wtr
      · subst hut
        simp only [request, update_same, flightGot, and_not_zero, Option.some.injEq,
          Prod.mk.injEq] at h
        obtain ⟨rfl, rfl⟩ := h
        exact hi.acquiring u _ _ (by simp [request, hpc])
      · have hfg : flightGot s u = 0 := by simp [flightGot, hpix, hpc, Pc.flightGot]
        rw [request_congr (hfg.symm ▸ rfl) (update_noteq hut _ _) (update_noteq hut _ _)] at h
        exact hi.acquiring u locks' need h
    · by_cases hrt : r = wtr
      · subst hrt; simp [Pc.InPix]
      · simpa [update_noteq hrt] using hout r hrt
    · by_cases hut : u = wtr
      · subst hut; simp only [update_same]; trivial
      · simp only [update_noteq hut]
        exact threadInv_out (hi.threads u) (hout u hut) (update_noteq hut _ _) rfl
          fun b _ h => hwait b h
  | transferLocks tr m U wake =>
    have hfl : (s.pc t).flight = some wtr := by rw [hpc]; rfl
    have hwpl := hi.places.placed wtr (.inr (.inl ⟨t, hfl⟩))
    have hwt : wtr ≠ t := fun e => hin.not_sleeping (e ▸ hwpl.1)
    obtain ⟨hup, htr⟩ := htry.ret
    have hmn := hup n hbit
    obtain ⟨locks, phase, hw⟩ := Pc.sleeping_iff.mp hwpl.1
    rw [tryAquireDone_transferLocks huf0']
    refine ⟨hown, hq0 wtr fun b hb => hi.places.queued_flight b wtr t hb hfl,
      placeInv_enqueue hi.places (fun r => ?_) (fun r => ?_) (fun r v hr => ?_)
        (fun v _ hv => ?_) (by simp only [update_noteq hwt]; exact hwpl.1) hwpl.2
        (fun v hv => update_noteq hv _ _) (fun _ _ => rfl) (by simpa using hlow)
        (fun b hb => hi.places.queued_flight b wtr t hb hfl)
        (fun r => hi.places.flight_wake t r wtr hfl),
      fun b hb hw => ?_, fun u locks' need h => ?_, fun r => ?_, fun u => ?_⟩
    · by_cases hr : r = t
      · subst hr; simp [Pc.flight]
      · simp [update_noteq hr, flight_eq_none hi hpix hr]
    · by_cases hr : r = t
      · subst hr; simp [hpc, Pc.wake, Ret.wake]
      · simp [update_noteq hr]
    · by_cases hrt : r = t
      · subst hrt; rw [hpc] at hr; simpa [Pc.flight, eq_comm] using hr
      · rw [flight_eq_none hi hpix hrt] at hr; cases hr
    · have hvt : v ≠ t := by
        rintro rfl; simp only [update_same] at hv
        exact hv.elim hin.not_sleeping (by simp [Pc.Sleeping])
      exact update_noteq hvt _ _
    · rcases wait_queue_setWait hi hpix hn hb hw with h | hr
      · exact .inl h
      · rw [hpc] at hr; exact .inr ⟨t, by simpa [Pc.Pending] using hr⟩
    · by_cases hut : u = t
      · subst hut; simp [request] at h
      by_cases huw : u = wtr
      · subst huw
        simp only [request, update_noteq hut, hw, flightGot, hpix, update_same, Pc.flightGot,
          and_not_zero, Option.some.injEq, Prod.mk.injEq] at h
        obtain ⟨rfl, rfl⟩ := h
        exact hi.acquiring u _ _ (by simp [request, hw, flightGot, hpix, hpc, Pc.flightGot])
      · exact acquiring_congr hi h (by simp [flightGot, hpix, hpc, Pc.flightGot, Ne.symm huw])
          (update_noteq hut _ _) (update_noteq huw _ _) rfl
    · by_cases hrt : r = t
      · subst hrt; simp [hpix, Pc.InPix]
      · simpa [update_noteq hrt] using hi.pix_iff r
    · by_cases hut : u = t
      · subst hut
        simp only [update_same]
        refine ⟨hpix, htr.tr_all, fun b hb hmb => ?_, fun b hb => ?_, htr.lockNo_le⟩
        · obtain ⟨h1, h2, h3⟩ := htr.ahead b hb hmb
          exact ⟨h1, hwait b h2, hqs b h3⟩
        · obtain ⟨h1, h2, h3, h4⟩ := htr.unset b hb
          have hbn : b ≠ n := by omega
          refine ⟨h1, hwait b h2, by rwa [update_noteq hbn], fun v hv => ?_⟩
          rcases h4 v hv with e | hv | ⟨c, hc⟩
          · cases e; exact .inr (.inr ⟨n, by simp⟩)
          · exact .inr (.inl hv)
          · exact .inr (.inr ⟨c, mem_update_append.mpr (.inl hc)⟩)
      by_cases huw : u = wtr
      · subst huw; simp only [update_noteq hut, hw]; trivial
      · simp only [update_noteq hut]
        exact threadInv_out (hi.threads u) (hout u hut) (update_noteq huw _ _) rfl
          fun b _ h => hwait b h

/-- **`try_aquire` keeps the invariant**: one iteration of its loop, with the queues it leaves. -/
theorem inv_tryAquireStep (hi : Inv L s qs) (hpc : s.pc t = .tryAquire ret wtr got n) :
    ∃ qs', Inv L (tryAquireStep L s t ret wtr got n) qs' ∧ QueueMove qs qs' := by
  obtain ⟨htry, hgot⟩ : ThreadInv L s qs t (.tryAquire ret wtr got n) := hpc ▸ hi.threads t
  by_cases hmax : L.maxBit < n
  · -- past the last lock: `wtr` needs nothing more
    rw [tryAquireStep_of_lt hmax]
    refine ⟨qs, inv_tryAquireDone_zero hi hpc (eq_zero_iff.mpr fun i => ?_), .keep⟩
    obtain ⟨lk, hlk⟩ := request_wtr hi htry (.inl hpc)
    obtain ⟨hall, hacq⟩ := hi.acquiring wtr lk _ hlk
    cases h : (s.uflgs wtr &&& ~~~got).getLsbD i
    · rfl
    · have hle := hall i (hacq.sub i h)
      rw [getLsbD_and_not, Bool.and_eq_true] at h
      have := (hgot i).mpr ⟨h.1, by omega⟩
      simp [this] at h
  have hn := Nat.le_of_not_lt hmax
  rcases @tryAquireStep_cases L s t wtr ret got n hn with
    ⟨hbit, hs⟩ | ⟨hbit, hqueue, hs⟩ | ⟨hbit, hqueue, hlock, hs⟩ | ⟨hbit, hqueue, hfree, hs⟩ <;>
    rw [hs]
  · exact ⟨qs, inv_tryAquire_skip hi hpc hn hbit, .keep⟩
  · -- the queue is not empty: `wtr` queues behind its waiters
    have hw := hi.queues.queue_wait n fun h => hqueue ((queue_eq_none_iff hi.queues n).mpr h)
    have hf : s.flags ||| lockBit n <<< L.waiterShift = s.flags := by
      ext i
      rw [BitVec.getLsbD_or]
      by_cases hin : (i : Nat) = L.waiterShift + n
      · simp only [waitFlag] at hw
        rw [hin, hw]; rfl
      · simp [BitVec.getLsbD_shiftLeft, getLsbD_lockBit]; omega
    have := inv_tryAquire_enqueue hi hpc hn hbit (hi.own.wait_flag n hw)
    rw [hf] at this
    exact ⟨_, this, .enqueue n wtr⟩
  · -- the `bor` found the lock taken
    have hf : s.flags ||| lockBit n <<< L.waiterShift =
        s.flags ||| (lockBit n <<< L.waiterShift ||| lockBit n) := by
      ext i
      simp only [BitVec.getLsbD_or]
      by_cases hin : (i : Nat) = n
      · simp [hin, hlock]
      · simp [getLsbD_lockBit, hin]
    have := inv_tryAquire_enqueue hi hpc hn hbit hlock
    rw [hf] at this
    exact ⟨_, this, .enqueue n wtr⟩
  · -- the `bor` got the lock
    exact ⟨qs, inv_tryAquire_take hi hpc hn hbit ((queue_eq_none_iff hi.queues n).mp hqueue) hfree
      (by dsimp only; ac_rfl) rfl rfl rfl rfl rfl rfl, .keep⟩

/-- The `band` of `try_aquire`, and the end of `try_aquire` when it has all `wtr` needs. -/
theorem inv_tryAquireBandStep (hi : Inv L s qs) (hpc : s.pc t = .tryAquireBand ret wtr got n) :
    Inv L (tryAquireBandStep L s t ret wtr got n) qs := by
  have h2 : Inv L { s with flags := s.flags &&& ~~~(lockBit n <<< L.waiterShift),
                           pc := update s.pc t (.tryAquire ret wtr got (n + 1)) } qs :=
    inv_tryAquireBand hi hpc rfl rfl rfl rfl rfl rfl rfl
  rcases @tryAquireBandStep_cases L s t wtr ret got n with ⟨hall, hs⟩ | ⟨-, hs⟩ <;> rw [hs]
  · rw [← tryAquireDone_setPc (.tryAquire ret wtr got (n + 1))]
    refine inv_tryAquireDone_zero (n := n + 1) h2 (by simp) ?_
    rw [← hall]; ext i; simp
  · exact h2

end TryAquire

/-! ## Threads outside the pix lock -/

/-- A step that only moves a thread outside the pix lock, with no thread in its hands, on. -/
theorem inv_setPc_out (hi : Inv L s qs) {p : Pc} (hin : ¬ (s.pc t).InPix) (hin' : ¬ p.InPix)
    (hfl : (s.pc t).flight = none) (hfl' : p.flight = none) (hwk : p.wake = (s.pc t).wake)
    (hsl : Placed s qs t → p.Sleeping)
    (hsl' : ∀ locks phase, p = .sleep locks phase → ∃ phase', s.pc t = .sleep locks phase')
    (hreq : ∀ locks need, request { s with pc := update s.pc t p } t = some (locks, need) →
      InAll L locks ∧ Acquiring (s.held t) locks need)
    (hthr : ThreadInv L s qs t p) : Inv L { s with pc := update s.pc t p } qs := by
  have hpixt : ∀ r, s.pix = some r → r ≠ t := fun r hr e => hin (e ▸ (hi.pix_iff r).mp hr)
  refine ⟨hi.own, hi.queues, placeInv_phase hi.places (fun r => ?_) (fun w hw => ?_)
    (fun w locks phase hw => ?_) (fun _ _ => rfl) (fun _ _ => rfl), fun b hb hw => ?_,
    fun u locks need h => ?_, fun r => ?_, fun u => ?_⟩
  · by_cases hr : r = t
    · subst hr; simp [hfl, hfl', hwk]
    · simp [update_noteq hr]
  · by_cases hwt : w = t
    · subst hwt; simpa using hsl hw
    · simpa [update_noteq hwt] using (hi.places.placed w hw).1
  · by_cases hwt : w = t
    · subst hwt; exact hsl' locks phase (by simpa using hw)
    · exact ⟨phase, by simpa [update_noteq hwt] using hw⟩
  · rcases hi.wait_queue b hb hw with h | ⟨r, hr⟩
    · exact .inl h
    · have hrt : r ≠ t := fun e => hin (e ▸ hr.inPix)
      exact .inr ⟨r, by simpa [update_noteq hrt] using hr⟩
  · by_cases hut : u = t
    · subst hut; exact hreq locks need h
    · refine acquiring_congr hi h ?_ (update_noteq hut _ _) rfl rfl
      simp only [flightGot]
      cases hp : s.pix with
      | none => rfl
      | some r => simp [update_noteq (hpixt r hp)]
  · by_cases hrt : r = t
    · subst hrt
      simp only [update_same]
      exact ⟨fun h => absurd rfl (hpixt r h), fun h => absurd h hin'⟩
    · simpa [update_noteq hrt] using hi.pix_iff r
  · by_cases hut : u = t
    · subst hut; simpa using threadInv_setPc hthr
    · simpa [update_noteq hut] using threadInv_setPc (p := p) (t := t) (hi.threads u)

/-! ## The wait loop of `wait_for_locks` -/

theorem inv_sleepStep (hi : Inv L s qs) {locks : ErtsProcLocks} {phase : Phase}
    (hpc : s.pc t = .sleep locks phase) : Inv L (sleepStep s t locks phase) qs := by
  have hin : ¬ (s.pc t).InPix := by rw [hpc]; exact id
  have hfl : (s.pc t).flight = none := by rw [hpc]; rfl
  have hwk : ∀ p : Pc, p.wake = [] → p.wake = (s.pc t).wake := fun p hp => by rw [hp, hpc]; rfl
  have hreq : ∀ phase', ∀ locks' need,
      request { s with pc := update s.pc t (.sleep locks phase') } t = some (locks', need) →
        InAll L locks' ∧ Acquiring (s.held t) locks' need := fun phase' locks' need h => by
    have hpixt : ∀ r, s.pix = some r → r ≠ t := fun r hr e => hin (e ▸ (hi.pix_iff r).mp hr)
    have hfg : flightGot { s with pc := update s.pc t (.sleep locks phase') } t = flightGot s t := by
      simp only [flightGot]
      cases hp : s.pix with
      | none => rfl
      | some r => simp [update_noteq (hpixt r hp)]
    refine hi.acquiring t locks' need (Eq.trans ?_ h)
    simp only [request, hpc, update_same, hfg]
  have hsleep : ∀ phase', Inv L { s with pc := update s.pc t (.sleep locks phase') } qs :=
    fun phase' => inv_setPc_out hi hin id hfl rfl (hwk _ rfl) (fun _ => trivial)
      (fun l ph h => by cases h; exact ⟨phase, hpc⟩) (hreq phase') trivial
  cases phase with
  | reset => exact hsleep .check
  | wait => exact hsleep .reset
  | check =>
    unfold sleepStep
    split_ifs with hua
    · -- woken: `uaflgs` is clear, and `wait_for_locks` returns
      refine inv_setPc_out hi hin id hfl rfl (hwk _ rfl) (fun hp => ?_) (fun _ _ h => by cases h)
        (fun _ _ h => by simp [request] at h) trivial
      rcases hi.places.sleeping t locks .check hpc with h | h
      · rw [hua] at h; exact absurd h.1 (by decide)
      · exact absurd hp h.2.2
    · exact hsleep .wait

end ProcLock.Acquire
