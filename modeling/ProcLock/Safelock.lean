import ProcLock.LockLoop

/-! # `proc_safelock`

`proc_safelock` orders the two processes by id (`lockOrder`), finds the first lock it still has
to take and releases the locks it holds above it (`unlockRange`, `unlockOn`), takes all it needs
in one ascending sweep (`lockLoop`), and drops the references it took to keep alive a process it
gave up its last lock on.

* `unlockRange_spec`: the first lock to take, and the locks above it;
* `safelockBody_post`: the same as `safelock_post`, for the two processes in lock order;
* `procSafelock_spec`: both for `a_proc` and `b_proc`;
* `safelock_post`: `proc_safelock` ends holding exactly what was asked for on each process,
  releases exactly the locks held on entry that lie above a lock still to take, and takes a
  reference on a process exactly when an unmanaged caller gives up its last lock there, dropping
  it before it returns;
* `safelock_order`: every call it makes keeps to the lock order. -/

namespace ProcLock.Safelock

open Function ProcLock.Bits ProcLock.LockLoop

/-! ## The code -/

/-- The two processes of `proc_safelock` in lock order, with the locks needed and held on each:
`p1` has the lower id, and `p2` is `NULL` when the two are one or `a_proc` is absent. -/
structure Ordered where
  p1 : Nat
  needLocks1 : ErtsProcLocks
  haveLocks1 : ErtsProcLocks
  p2 : Option Nat
  needLocks2 : ErtsProcLocks
  haveLocks2 : ErtsProcLocks

/-- The inter-process lock order of `proc_safelock`: the process of the lower id first; one
process with both masks when the ids are equal; `b_proc` alone when `a_proc` is absent. -/
def lockOrder (aProc : Option Nat) (aHaveLocks aNeedLocks : ErtsProcLocks) (bProc : Nat)
    (bHaveLocks bNeedLocks : ErtsProcLocks) : Ordered :=
  match aProc with
  | some a =>
    if a < bProc then ⟨a, aNeedLocks, aHaveLocks, some bProc, bNeedLocks, bHaveLocks⟩
    else if a > bProc then ⟨bProc, bNeedLocks, bHaveLocks, some a, aNeedLocks, aHaveLocks⟩
    else ⟨a, aNeedLocks ||| bNeedLocks, aHaveLocks ||| bHaveLocks, none, 0, 0⟩
  | none => ⟨bProc, bNeedLocks, bHaveLocks, none, 0, 0⟩

/-- What the unlock phase leaves on one process: the calls it made, the locks still held and
still needed there, and whether it took a reference (`refc1`, `refc2`). -/
structure Unlocked where
  calls : List Effect
  haveLocks : ErtsProcLocks
  needLocks : ErtsProcLocks
  refc : Bool

/-- No release on a process. -/
def Unlocked.keep (haveLocks needLocks : ErtsProcLocks) : Unlocked :=
  ⟨[], haveLocks, needLocks, false⟩

/-- The release of the locks of `unlock_mask` held on `p`: they are needed again, and an unmanaged
caller that gives up its last lock on `p` first takes a reference to it. -/
def unlockOn (isManaged : Bool) (p : Option Nat) (unlockMask haveLocks needLocks : ErtsProcLocks) :
    Unlocked :=
  let unlockLocks := unlockMask &&& haveLocks
  if unlockLocks ≠ 0 then
    let haveLocks := haveLocks &&& ~~~unlockLocks
    let refc := !isManaged && decide (haveLocks = 0)
    ⟨(if refc then onProc p fun p => [.incRefc p] else []) ++
      onProc p (fun p => [.unlock p unlockLocks]), haveLocks, needLocks ||| unlockLocks, refc⟩
  else .keep haveLocks needLocks

/-- The release of the references taken, by a caller that is not managed. -/
def releaseRefs (isManaged refc1 refc2 : Bool) (p1 : Nat) (p2 : Option Nat) : List Effect :=
  if isManaged then []
  else (if refc1 then [.decRefc p1] else []) ++ (if refc2 then onProc p2 (fun p => [.decRefc p]) else [])

variable (L : Layout)

/-- `proc_safelock` from its unlock phase on, with `lock_no` and `unlock_mask` as the loop of
`unlockRange` leaves them: the unlock phase, the lock loop from `lock_no`, and the release of the
references taken. -/
def safelockFrom (isManaged : Bool) (o : Ordered) (needLocks1 needLocks2 : ErtsProcLocks)
    (lockNo : Nat) (unlockMask : ErtsProcLocks) : List Effect :=
  let anyHeld := o.haveLocks1 ≠ 0 ∨ o.haveLocks2 ≠ 0
  let u1 := if anyHeld then unlockOn isManaged (some o.p1) unlockMask o.haveLocks1 needLocks1
    else .keep o.haveLocks1 needLocks1
  let u2 := if anyHeld then unlockOn isManaged o.p2 unlockMask o.haveLocks2 needLocks2
    else .keep o.haveLocks2 needLocks2
  u1.calls ++ u2.calls ++ lockLoop L o.p1 o.p2 u1.needLocks u2.needLocks lockNo ++
    releaseRefs isManaged u1.refc u2.refc o.p1 o.p2

/-- `proc_safelock` once the inter-process order is fixed. -/
def safelockBody (isManaged : Bool) (o : Ordered) : List Effect :=
  let needLocks1 := o.needLocks1 &&& ~~~o.haveLocks1
  let needLocks2 := o.needLocks2 &&& ~~~o.haveLocks2
  let r := unlockRange L needLocks1 needLocks2 0 L.all
  safelockFrom L isManaged o needLocks1 needLocks2 r.1 r.2

/-- `proc_safelock(is_managed, a_proc, a_have_locks, a_need_locks, b_proc, b_have_locks,
b_need_locks)`, by the calls it makes. -/
def procSafelock (isManaged : Bool) (aProc : Option Nat) (aHaveLocks aNeedLocks : ErtsProcLocks)
    (bProc : Nat) (bHaveLocks bNeedLocks : ErtsProcLocks) : List Effect :=
  safelockBody L isManaged (lockOrder aProc aHaveLocks aNeedLocks bProc bHaveLocks bNeedLocks)

variable {L}

/-! ## Masks per process -/

/-- The masks of `p1` and `p2` as one mask per process. -/
def ordMasks (p1 : Nat) (p2 : Option Nat) (m1 m2 : ErtsProcLocks) (q : Nat) : ErtsProcLocks :=
  (if q = p1 then m1 else 0) ||| (if p2 = some q then m2 else 0)

/-- The masks of `a_proc` and `b_proc` as one mask per process: both on a process that is both. -/
def masksOn (aProc : Option Nat) (aLocks : ErtsProcLocks) (bProc : Nat) (bLocks : ErtsProcLocks)
    (q : Nat) : ErtsProcLocks :=
  (if aProc = some q then aLocks else 0) ||| (if q = bProc then bLocks else 0)

/-- The locks a sequence of calls releases on `p`. -/
def releasedLocks (p : Nat) : List Effect → ErtsProcLocks
  | [] => 0
  | .unlock q l :: es => (if q = p then l else 0) ||| releasedLocks p es
  | .lock _ _ :: es | .trylock _ _ :: es | .incRefc _ :: es | .decRefc _ :: es
  | .unmanagedContinue :: es => releasedLocks p es

@[simp] theorem releasedLocks_append (p : Nat) (es es' : List Effect) :
    releasedLocks p (es ++ es') = releasedLocks p es ||| releasedLocks p es' := by
  induction es with
  | nil => simp [releasedLocks]
  | cons e es ih => cases e <;> simp [releasedLocks, ih, BitVec.or_assoc]

theorem ordMasks_p1 {p1 : Nat} {p2 : Option Nat} (hlt : ∀ q, p2 = some q → p1 < q)
    (m1 m2 : ErtsProcLocks) : ordMasks p1 p2 m1 m2 p1 = m1 := by
  have : p2 ≠ some p1 := fun e => by have := hlt p1 e; omega
  simp [ordMasks, this]

theorem ordMasks_p2 {p1 q : Nat} {p2 : Option Nat} (hlt : ∀ q, p2 = some q → p1 < q)
    (hq : p2 = some q) (m1 m2 : ErtsProcLocks) : ordMasks p1 p2 m1 m2 q = m2 := by
  have : q ≠ p1 := fun e => by have := hlt q hq; omega
  simp [ordMasks, this, hq]

theorem ordMasks_other {p1 q : Nat} {p2 : Option Nat} (h : ¬ (q = p1 ∨ p2 = some q))
    (m1 m2 : ErtsProcLocks) : ordMasks p1 p2 m1 m2 q = 0 := by
  rw [not_or] at h
  simp [ordMasks, h.1, h.2]

/-! ## The first lock to take -/

/-- **The first lock to take**: from `lock_no = k0`, `unlockRange` stops at the first lock `k`
either process needs, or past the last lock; it clears from `unlock_mask` the locks from `k0`
below `k`, and `k` itself when only `p2` needs it. -/
theorem unlockRange_spec (n1 n2 : ErtsProcLocks) (k0 : Nat) (hk0 : k0 ≤ L.maxBit + 1)
    (m : ErtsProcLocks) :
    ∃ k, k0 ≤ k ∧ k ≤ L.maxBit + 1 ∧ (unlockRange L n1 n2 k0 m).1 = k ∧
      (∀ i, k0 ≤ i → i < k → n1.getLsbD i = false ∧ n2.getLsbD i = false) ∧
      (k ≤ L.maxBit → n1.getLsbD k ∨ n2.getLsbD k) ∧
      ∀ i, (unlockRange L n1 n2 k0 m).2.getLsbD i ↔
        m.getLsbD i ∧ ¬ (k0 ≤ i ∧ i < k) ∧ (i = k → k ≤ L.maxBit → n1.getLsbD k) := by
  induction k0, m using unlockRange.induct L n1 n2 with
  | case1 k0 m hk lock h1 =>
    -- `p1` needs `k0`: nothing cleared
    rw [unlockRange, dif_pos hk]
    dsimp only
    rw [if_pos h1]
    have hn1 : n1.getLsbD k0 :=
      (lockBit_and_ne_zero (lt_of_le_maxBit hk)).mp (by rwa [BitVec.and_comm] at h1)
    refine ⟨k0, le_rfl, by omega, rfl, fun i h h' => absurd h' (by omega), fun _ => .inl hn1,
      fun i => ⟨fun h => ⟨h, by omega, fun h' _ => h' ▸ hn1⟩, fun h => h.1⟩⟩
  | case2 k0 m hk lock h1 h2 =>
    -- only `p2` needs `k0`: `k0` cleared
    rw [unlockRange, dif_pos hk]
    dsimp only
    rw [if_neg h1, if_pos h2]
    have hk32 := lt_of_le_maxBit hk
    have hn1 := (lockBit_and_eq_zero hk32).mp (by rw [BitVec.and_comm]; exact not_not.mp h1)
    have hn2 : n2.getLsbD k0 := (lockBit_and_ne_zero hk32).mp (by rwa [BitVec.and_comm] at h2)
    refine ⟨k0, le_rfl, by omega, rfl, fun i h h' => absurd h' (by omega), fun _ => .inr hn2,
      fun i => ?_⟩
    rw [getLsbD_and_not, getLsbD_lockBit]
    by_cases hi : i = k0
    · subst hi; simpa [hn1, hk32] using fun _ => hk
    · simp [hi]
  | case3 k0 m hk lock h1 mask h2 ih =>
    -- neither needs `k0`: on to `k0 + 1`
    rw [unlockRange, dif_pos hk]
    dsimp only
    rw [if_neg h1, if_neg h2]
    have hk32 := lt_of_le_maxBit hk
    have hn1 := (lockBit_and_eq_zero hk32).mp (by rw [BitVec.and_comm]; exact not_not.mp h1)
    have hn2 := (lockBit_and_eq_zero hk32).mp (by rw [BitVec.and_comm]; exact not_not.mp h2)
    obtain ⟨k, hkk, hkm, h1', hfree, hfirst, hmask⟩ := ih (by omega)
    refine ⟨k, by omega, hkm, h1', fun i h h' => ?_, hfirst, fun i => ?_⟩
    · rcases Nat.lt_or_eq_of_le h with h | rfl
      · exact hfree i h h'
      · exact ⟨hn1, hn2⟩
    · rw [hmask, getLsbD_and_not, getLsbD_lockBit]
      by_cases hi : i = k0
      · subst hi; simp [hk32]; omega
      · simp only [hi, decide_False, Bool.and_false, Bool.not_false, Bool.and_true]
        exact and_congr_right fun _ => and_congr_left fun _ => by omega
  | case4 k0 m hk =>
    -- past the last lock
    rw [unlockRange, dif_neg hk]
    refine ⟨k0, le_rfl, by omega, rfl, fun i h h' => absurd h' (by omega),
      fun h => absurd h hk, fun i => ?_⟩
    exact ⟨fun h => ⟨h, by omega, fun _ h' => absurd h' hk⟩, fun h => h.1⟩

/-! ## The unlock phase -/

/-- The calls of the unlock phase on `p`: `erts_proc_inc_refc` when it takes a reference, then
`erts_proc_unlock` when there is something to release; none on `NULL`. -/
def unlockCalls (refc : Bool) (p : Option Nat) (unlockLocks : ErtsProcLocks) : List Effect :=
  onProc p fun q =>
    (if refc then [.incRefc q] else []) ++ (if unlockLocks ≠ 0 then [.unlock q unlockLocks] else [])

/-- Whether the unlock phase takes a reference: an unmanaged caller releases locks, and none is
left. -/
def takesRef (isManaged : Bool) (unlockLocks haveLocks : ErtsProcLocks) : Bool :=
  !isManaged && decide (unlockLocks ≠ 0) && decide (haveLocks &&& ~~~unlockLocks = 0)

section UnlockOn

variable {isManaged : Bool} {p : Option Nat} {mask h n : ErtsProcLocks}

theorem ite_unlockOn {P : Prop} [Decidable P] (hP : ¬ P → h = 0) :
    (if P then unlockOn isManaged p mask h n else .keep h n) = unlockOn isManaged p mask h n := by
  split_ifs with hp
  · rfl
  · rw [hP hp]; simp [unlockOn]

/-- `unlockOn` in one form for both of its branches. -/
theorem unlockOn_eq (hp : p = none → h = 0) :
    unlockOn isManaged p mask h n =
      ⟨unlockCalls (takesRef isManaged (mask &&& h) h) p (mask &&& h),
        h &&& ~~~(mask &&& h), n ||| (mask &&& h), takesRef isManaged (mask &&& h) h⟩ := by
  unfold unlockOn unlockCalls takesRef
  by_cases h0 : mask &&& h = 0
  · rw [if_neg (not_not.mpr h0), h0, and_not_zero]
    cases p <;> simp [Unlocked.keep, onProc]
  · rw [if_pos h0]
    cases p with
    | none => exact absurd (by rw [hp rfl]; simp) h0
    | some q => simp [onProc, if_pos h0, show ¬ mask &&& h = 0#32 from h0]

end UnlockOn

section UnlockCalls

variable {R : Bool} {p : Option Nat} {rel : ErtsProcLocks}

theorem run_unlockCalls_held (c : Caller) (q : Nat) :
    (c.run (unlockCalls R p rel)).held q = if p = some q then c.held q &&& ~~~rel else c.held q := by
  cases p with
  | none => simp [unlockCalls, onProc]
  | some p =>
    simp only [unlockCalls, onProc, Option.some.injEq]
    by_cases h0 : rel = 0
    · rw [if_neg (not_not.mpr h0), h0, and_not_zero]
      cases R <;> split_ifs <;> simp_all
    · rw [if_pos h0]
      cases R <;> split_ifs <;> simp_all [eq_comm]

theorem count_unlockCalls_inc (q : Nat) :
    (unlockCalls R p rel).count (.incRefc q) = if R ∧ p = some q then 1 else 0 := by
  cases p with
  | none => simp [unlockCalls, onProc]
  | some p =>
    simp only [unlockCalls, onProc]
    have h2 : (if rel ≠ 0 then [Effect.unlock p rel] else []).count (.incRefc q) = 0 :=
      List.count_eq_zero.mpr (by split_ifs <;> simp)
    rw [List.count_append, h2, Nat.add_zero]
    by_cases hq : p = q <;> cases R <;> simp [hq, List.count_cons]

theorem count_unlockCalls_dec (q : Nat) : (unlockCalls R p rel).count (.decRefc q) = 0 := by
  cases p with
  | none => rfl
  | some p => exact List.count_eq_zero.mpr (by simp only [unlockCalls, onProc]; split_ifs <;> simp)

theorem releasedLocks_unlockCalls (q : Nat) :
    releasedLocks q (unlockCalls R p rel) = if p = some q then rel else 0 := by
  cases p with
  | none => simp [unlockCalls, onProc, releasedLocks]
  | some p =>
    simp only [unlockCalls, onProc, Option.some.injEq]
    by_cases h0 : rel = 0
    · rw [if_neg (not_not.mpr h0), h0]; cases R <;> simp [releasedLocks]
    · rw [if_pos h0]; cases R <;> simp [releasedLocks]

theorem not_mem_unlockCalls : Effect.unmanagedContinue ∉ unlockCalls R p rel := by
  cases p with
  | none => simp [unlockCalls, onProc]
  | some p => simp only [unlockCalls, onProc]; split_ifs <;> simp

theorem lockProc_unlockCalls : ∀ e ∈ unlockCalls R p rel, ∀ q, e.lockProc = some q → p = some q := by
  cases p with
  | none => nofun
  | some p =>
    intro e he q hq
    simp only [unlockCalls, onProc, List.mem_append] at he
    rcases he with he | he <;> split_ifs at he <;>
      simp only [List.mem_singleton, List.not_mem_nil] at he <;> subst he
    · cases hq
    · exact hq

theorem respectsAll_unlockCalls {ps : Nat → Prop} {c : Caller}
    (hrel : ∀ q, p = some q → rel &&& ~~~c.held q = 0) : RespectsAll ps c (unlockCalls R p rel) := by
  cases p with
  | none => trivial
  | some p =>
    simp only [unlockCalls, onProc]
    cases R <;> split_ifs <;> simp [RespectsAll, Respects, Effect.apply, hrel p rfl]

end UnlockCalls

/-! ## `proc_safelock` on the processes in lock order -/

/-- The entry condition of `proc_safelock` on the two processes in lock order: `p1` below `p2`,
nothing on a `NULL` `p2`, `have ⊆ need ⊆ ALL`, and the caller holds the `have` masks. -/
structure OrderedPre (L : Layout) (c : Caller) (o : Ordered) : Prop where
  lt : ∀ q, o.p2 = some q → o.p1 < q
  none2 : o.p2 = none → o.haveLocks2 = 0 ∧ o.needLocks2 = 0
  sub1 : ∀ i, o.haveLocks1.getLsbD i → o.needLocks1.getLsbD i
  sub2 : ∀ i, o.haveLocks2.getLsbD i → o.needLocks2.getLsbD i
  le1 : ∀ i, o.needLocks1.getLsbD i → i ≤ L.maxBit
  le2 : ∀ i, o.needLocks2.getLsbD i → i ≤ L.maxBit
  held1 : c.held o.p1 = o.haveLocks1
  held2 : ∀ q, o.p2 = some q → c.held q = o.haveLocks2

/-- `lock_no = k` and `unlock_mask = mask` as the loop of `unlockRange` leaves them from `0` and
`ERTS_PROC_LOCKS_ALL`, for the locks `n1` and `n2` still to take: `k` is the first lock to take,
and `mask` the locks above it, `k` included when `p1` needs it. -/
structure UnlockPoint (L : Layout) (n1 n2 : ErtsProcLocks) (k : Nat) (mask : ErtsProcLocks) :
    Prop where
  le : k ≤ L.maxBit + 1
  free : ∀ i, i < k → n1.getLsbD i = false ∧ n2.getLsbD i = false
  first : k ≤ L.maxBit → n1.getLsbD k ∨ n2.getLsbD k
  mask : ∀ i, mask.getLsbD i ↔ i ≤ L.maxBit ∧ k ≤ i ∧ (i = k → n1.getLsbD k)

theorem unlockRange_point (n1 n2 : ErtsProcLocks) :
    UnlockPoint L n1 n2 (unlockRange L n1 n2 0 L.all).1 (unlockRange L n1 n2 0 L.all).2 := by
  obtain ⟨k, -, hk, h1, hfree, hfirst, hmask⟩ := unlockRange_spec (L := L) n1 n2 0 (by omega) L.all
  rw [h1]
  refine ⟨hk, fun i hi => hfree i (Nat.zero_le i) hi, hfirst, fun i => ?_⟩
  rw [hmask, Layout.getLsbD_all, decide_eq_true_iff]
  constructor
  · rintro ⟨hi, h2, h3⟩; exact ⟨hi, by omega, fun e => h3 e (by omega)⟩
  · rintro ⟨hi, h2, h3⟩; exact ⟨hi, by omega, fun e _ => h3 e⟩

theorem locks_or_zero (a : ErtsProcLocks) : a ||| 0 = a := BitVec.or_zero

theorem and_not_and_self (a m : ErtsProcLocks) : a &&& ~~~(m &&& a) = a &&& ~~~m := by
  ext i
  rw [getLsbD_and_not, getLsbD_and_not, BitVec.getLsbD_and]
  cases a.getLsbD i <;> cases m.getLsbD i <;> rfl

/-- A lock still to take: still needed, or released to be taken again. -/
theorem getLsbD_needAgain (n h m : ErtsProcLocks) (i : Nat) :
    (n &&& ~~~h ||| m &&& h).getLsbD i = (n.getLsbD i && !h.getLsbD i || m.getLsbD i && h.getLsbD i) := by
  rw [BitVec.getLsbD_or, getLsbD_and_not, BitVec.getLsbD_and]

/-- Released and needed again, the locks held are all needed at the end. -/
theorem held_restore {h nd m : ErtsProcLocks} (hsub : ∀ i, h.getLsbD i → nd.getLsbD i) :
    h &&& ~~~m ||| (nd &&& ~~~h ||| m &&& h) = nd := by
  ext i
  rw [BitVec.getLsbD_or, getLsbD_and_not, getLsbD_needAgain]
  cases hh : h.getLsbD i
  · cases nd.getLsbD i <;> cases m.getLsbD i <;> rfl
  · rw [hsub i hh]; cases m.getLsbD i <;> rfl

/-- What `proc_safelock` leaves, on the processes `ps` it locks, with `haveOn p` held on entry
and `needOn p` asked for on each: it holds what was asked for and has not touched another process;
it has released the locks held on entry that lie above a lock it still had to take; it took a
reference on a process exactly when an unmanaged caller gave up its last lock there, and dropped
each again. -/
structure SafelockPost (isManaged : Bool) (ps : Nat → Prop) (haveOn needOn : Nat → ErtsProcLocks)
    (c : Caller) (es : List Effect) : Prop where
  held : ∀ p, ps p → (c.run es).held p = needOn p
  frame : ∀ p, ¬ ps p → (c.run es).held p = c.held p
  released : ∀ p i, (releasedLocks p es).getLsbD i ↔ (haveOn p).getLsbD i ∧
    ∃ j q, (needOn q &&& ~~~haveOn q).getLsbD j ∧ LockLt j q i p
  inc_refc : ∀ p, es.count (.incRefc p) =
    if isManaged = false ∧ releasedLocks p es ≠ 0 ∧ haveOn p &&& ~~~releasedLocks p es = 0 then 1
    else 0
  dec_refc : ∀ p, es.count (.decRefc p) = es.count (.incRefc p)
  refc : (c.run es).refc = c.refc

/-! ## The calls after the lock loop, and those of the lock loop -/

section Release

variable {isManaged R1 R2 : Bool} {p1 : Nat} {p2 : Option Nat}

@[simp] theorem run_releaseRefs_held (c : Caller) :
    (c.run (releaseRefs isManaged R1 R2 p1 p2)).held = c.held := by
  unfold releaseRefs
  cases isManaged <;> cases R1 <;> cases R2 <;> cases p2 <;> simp [onProc]

theorem respectsAll_releaseRefs (ps : Nat → Prop) (c : Caller) :
    RespectsAll ps c (releaseRefs isManaged R1 R2 p1 p2) := by
  unfold releaseRefs
  cases isManaged <;> cases R1 <;> cases R2 <;> cases p2 <;>
    simp [onProc, RespectsAll, Respects]

theorem lockProc_releaseRefs : ∀ e ∈ releaseRefs isManaged R1 R2 p1 p2, e.lockProc = none := by
  unfold releaseRefs
  cases isManaged <;> cases R1 <;> cases R2 <;> cases p2 <;> simp [onProc, Effect.lockProc]

theorem not_mem_releaseRefs : Effect.unmanagedContinue ∉ releaseRefs isManaged R1 R2 p1 p2 := by
  unfold releaseRefs
  cases isManaged <;> cases R1 <;> cases R2 <;> cases p2 <;> simp [onProc]

@[simp] theorem releasedLocks_releaseRefs (q : Nat) :
    releasedLocks q (releaseRefs isManaged R1 R2 p1 p2) = 0 := by
  unfold releaseRefs
  cases isManaged <;> cases R1 <;> cases R2 <;> cases p2 <;> simp [onProc, releasedLocks]

@[simp] theorem count_releaseRefs_inc (q : Nat) :
    (releaseRefs isManaged R1 R2 p1 p2).count (.incRefc q) = 0 := by
  unfold releaseRefs
  cases isManaged <;> cases R1 <;> cases R2 <;> cases p2 <;> simp [onProc]

theorem count_releaseRefs_dec (q : Nat) :
    (releaseRefs isManaged R1 R2 p1 p2).count (.decRefc q) =
      if isManaged then 0
      else (if R1 ∧ some p1 = some q then 1 else 0) + (if R2 ∧ p2 = some q then 1 else 0) := by
  unfold releaseRefs
  cases isManaged <;> cases R1 <;> cases R2 <;> cases p2 <;>
    simp [onProc, List.count_cons, Nat.add_comm]

end Release

theorem releasedLocks_of_locks {es : List Effect} (h : ∀ e ∈ es, ∃ p l, e = .lock p l) (q : Nat) :
    releasedLocks q es = 0 := by
  induction es with
  | nil => rfl
  | cons e es ih =>
    obtain ⟨p, l, rfl⟩ := h e (.head _)
    exact ih fun e' he' => h e' (.tail _ he')

@[simp] theorem releasedLocks_lockLoop {L : Layout} (p1 : Nat) (p2 : Option Nat)
    (need1 need2 : ErtsProcLocks) (k q : Nat) : releasedLocks q (lockLoop L p1 p2 need1 need2 k) = 0 :=
  releasedLocks_of_locks (fun e he => (lockLoop_isLock p1 p2 need1 need2 k e he).imp
    fun _ ⟨l, h, _⟩ => ⟨l, h⟩) q

theorem count_lockLoop {L : Layout} (p1 : Nat) (p2 : Option Nat) (need1 need2 : ErtsProcLocks)
    (k : Nat) {e : Effect} (he : ∀ p l, e ≠ .lock p l) : (lockLoop L p1 p2 need1 need2 k).count e = 0 :=
  List.count_eq_zero.mpr fun hm => by
    obtain ⟨p, l, rfl, -⟩ := lockLoop_isLock p1 p2 need1 need2 k e hm
    exact he p l rfl

section Ordered

variable {L : Layout} {c : Caller} {o : Ordered} {k : Nat} {mask : ErtsProcLocks}

/-- The calls of `safelockFrom`, the two `unlockOn` in one form. -/
theorem safelockFrom_eq (hnone : o.p2 = none → o.haveLocks2 = 0) (isManaged : Bool)
    (n1 n2 : ErtsProcLocks) :
    safelockFrom L isManaged o n1 n2 k mask =
      unlockCalls (takesRef isManaged (mask &&& o.haveLocks1) o.haveLocks1) (some o.p1)
          (mask &&& o.haveLocks1) ++
        unlockCalls (takesRef isManaged (mask &&& o.haveLocks2) o.haveLocks2) o.p2
          (mask &&& o.haveLocks2) ++
        lockLoop L o.p1 o.p2 (n1 ||| mask &&& o.haveLocks1) (n2 ||| mask &&& o.haveLocks2) k ++
        releaseRefs isManaged (takesRef isManaged (mask &&& o.haveLocks1) o.haveLocks1)
          (takesRef isManaged (mask &&& o.haveLocks2) o.haveLocks2) o.p1 o.p2 := by
  unfold safelockFrom
  dsimp only
  rw [ite_unlockOn fun hn => not_not.mp (not_or.mp hn).1,
    ite_unlockOn fun hn => not_not.mp (not_or.mp hn).2, unlockOn_eq (p := some o.p1) nofun,
    unlockOn_eq hnone]

variable (h : OrderedPre L c o)
include h

theorem OrderedPre.ne {q : Nat} (hq : o.p2 = some q) : q ≠ o.p1 := fun e => by
  have := h.lt q hq; omega

/-- After the unlock phase the caller holds, on each process, what it held outside `mask`. -/
theorem unlock_held (mask : ErtsProcLocks) (R1 R2 : Bool) (q : Nat) :
    (c.run (unlockCalls R1 (some o.p1) (mask &&& o.haveLocks1) ++
      unlockCalls R2 o.p2 (mask &&& o.haveLocks2))).held q =
      if q = o.p1 then o.haveLocks1 &&& ~~~mask
      else if o.p2 = some q then o.haveLocks2 &&& ~~~mask else c.held q := by
  rw [Caller.run_append, run_unlockCalls_held, run_unlockCalls_held]
  by_cases h1 : q = o.p1
  · subst h1
    have : o.p2 ≠ some o.p1 := fun e => h.ne e rfl
    simp [this, h.held1, and_not_and_self]
  · by_cases h2 : o.p2 = some q
    · simp [h1, h2, Ne.symm h1, h.held2 q h2, and_not_and_self]
    · simp [h1, h2, Ne.symm h1]

/-- The locks still to take on a process. -/
theorem toTake_iff (q j : Nat) :
    (ordMasks o.p1 o.p2 o.needLocks1 o.needLocks2 q &&&
        ~~~ordMasks o.p1 o.p2 o.haveLocks1 o.haveLocks2 q).getLsbD j ↔
      (q = o.p1 ∧ (o.needLocks1 &&& ~~~o.haveLocks1).getLsbD j) ∨
        (o.p2 = some q ∧ (o.needLocks2 &&& ~~~o.haveLocks2).getLsbD j) := by
  by_cases h1 : q = o.p1
  · subst h1
    have h2 : o.p2 ≠ some o.p1 := fun e => h.ne e rfl
    rw [ordMasks_p1 h.lt, ordMasks_p1 h.lt]
    simp [h2]
  · by_cases h2 : o.p2 = some q
    · rw [ordMasks_p2 h.lt h2, ordMasks_p2 h.lt h2]; simp [h1, h2]
    · rw [ordMasks_other (not_or.mpr ⟨h1, h2⟩), ordMasks_other (not_or.mpr ⟨h1, h2⟩)]
      simp [h1, h2]

/-- `p2` is there when it has a lock to take. -/
theorem OrderedPre.exists_p2 {j : Nat} (hj : (o.needLocks2 &&& ~~~o.haveLocks2).getLsbD j) :
    ∃ q, o.p2 = some q := by
  cases hp : o.p2 with
  | none => rw [(h.none2 hp).2] at hj; simp at hj
  | some q => exact ⟨q, rfl⟩

variable (hu : UnlockPoint L (o.needLocks1 &&& ~~~o.haveLocks1) (o.needLocks2 &&& ~~~o.haveLocks2)
  k mask)
include hu

/-- The lock loop starts at `lock_no` with its invariant. -/
theorem loopInv_start {c1 : Caller} (hc1 : ∀ q, c1.held q =
      if q = o.p1 then o.haveLocks1 &&& ~~~mask
      else if o.p2 = some q then o.haveLocks2 &&& ~~~mask else c.held q) :
    LoopInv L o.p1 o.p2 c1 (o.needLocks1 &&& ~~~o.haveLocks1 ||| mask &&& o.haveLocks1)
      (o.needLocks2 &&& ~~~o.haveLocks2 ||| mask &&& o.haveLocks2) k := by
  have hc1p1 : c1.held o.p1 = o.haveLocks1 &&& ~~~mask := by rw [hc1, if_pos rfl]
  have hc1p2 : ∀ q, o.p2 = some q → c1.held q = o.haveLocks2 &&& ~~~mask := fun q hq => by
    rw [hc1, if_neg (h.ne hq), if_pos hq]
  have hmask := hu.mask
  refine ⟨fun i hi => ?_, fun i hi => ?_, fun hn => ?_, fun i hi => ?_, fun q hq i hi => ?_,
    fun i hi => ?_, fun q hq i hi => ?_⟩
  · simp only [BitVec.getLsbD_or, BitVec.getLsbD_and, getLsbD_and_not, Bool.or_eq_true,
      Bool.and_eq_true, Bool.not_eq_true'] at hi
    rcases hi with ⟨hn, hh⟩ | ⟨hm, -⟩
    · refine ⟨Nat.le_of_not_lt fun hik => ?_, h.le1 i hn⟩
      have := (hu.free i hik).1
      simp [hn, hh] at this
    · exact ⟨((hmask i).mp hm).2.1, ((hmask i).mp hm).1⟩
  · simp only [BitVec.getLsbD_or, BitVec.getLsbD_and, getLsbD_and_not, Bool.or_eq_true,
      Bool.and_eq_true, Bool.not_eq_true'] at hi
    rcases hi with ⟨hn, hh⟩ | ⟨hm, -⟩
    · refine ⟨Nat.le_of_not_lt fun hik => ?_, h.le2 i hn⟩
      have := (hu.free i hik).2
      simp [hn, hh] at this
    · exact ⟨((hmask i).mp hm).2.1, ((hmask i).mp hm).1⟩
  · obtain ⟨h2, h2'⟩ := h.none2 hn
    rw [h2, h2']; simp
  · rw [hc1p1, getLsbD_and_not]
    simp only [getLsbD_needAgain, Bool.or_eq_true, Bool.and_eq_true, Bool.not_eq_true'] at hi
    rcases hi with ⟨-, hh⟩ | ⟨hm, -⟩ <;> simp [*]
  · rw [hc1p2 q hq, getLsbD_and_not]
    simp only [getLsbD_needAgain, Bool.or_eq_true, Bool.and_eq_true, Bool.not_eq_true'] at hi
    rcases hi with ⟨-, hh⟩ | ⟨hm, -⟩ <;> simp [*]
  · rw [hc1p1, getLsbD_and_not, Bool.and_eq_true, Bool.not_eq_true'] at hi
    obtain ⟨hh, hm⟩ := hi
    have hle := h.le1 i (h.sub1 i hh)
    have : ¬ (k ≤ i ∧ (i = k → (o.needLocks1 &&& ~~~o.haveLocks1).getLsbD k)) := fun h' =>
      by rw [(hmask i).mpr ⟨hle, h'⟩] at hm; cases hm
    by_cases hik : i < k
    · exact .inl hik
    · refine .inr ⟨by omega, ?_⟩
      obtain rfl : i = k := by by_contra hne; exact this ⟨by omega, fun e => absurd e hne⟩
      rw [getLsbD_needAgain, hm, Bool.false_and, Bool.or_false]
      exact Bool.eq_false_iff.mpr fun hn => this ⟨le_rfl, fun _ => by rw [getLsbD_and_not, hn]⟩
  · rw [hc1p2 q hq, getLsbD_and_not, Bool.and_eq_true, Bool.not_eq_true'] at hi
    obtain ⟨hh, hm⟩ := hi
    have hle := h.le2 i (h.sub2 i hh)
    by_contra hik
    have hn1 : (o.needLocks1 &&& ~~~o.haveLocks1).getLsbD k = false := by
      cases hn : (o.needLocks1 &&& ~~~o.haveLocks1).getLsbD k
      · rfl
      · rcases Nat.lt_or_eq_of_le (Nat.le_of_not_lt hik) with hki | rfl
        · rw [(hmask i).mpr ⟨hle, by omega, fun e => absurd e (by omega)⟩] at hm; cases hm
        · rw [(hmask k).mpr ⟨hle, le_rfl, fun _ => hn⟩] at hm; cases hm
    rcases Nat.lt_or_eq_of_le (Nat.le_of_not_lt hik) with hki | rfl
    · rw [(hmask i).mpr ⟨hle, by omega, fun e => absurd e (by omega)⟩] at hm; cases hm
    · have := (hu.first hle).resolve_left (by simp [hn1])
      simp [hh] at this

/-- The locks `mask` releases on a process are those held on entry that lie above a lock still
to take. -/
theorem released_iff (q i : Nat) :
    (ordMasks o.p1 o.p2 (mask &&& o.haveLocks1) (mask &&& o.haveLocks2) q).getLsbD i ↔
      (ordMasks o.p1 o.p2 o.haveLocks1 o.haveLocks2 q).getLsbD i ∧
        ∃ j q', (ordMasks o.p1 o.p2 o.needLocks1 o.needLocks2 q' &&&
          ~~~ordMasks o.p1 o.p2 o.haveLocks1 o.haveLocks2 q').getLsbD j ∧ LockLt j q' i q := by
  have hmask := hu.mask
  -- a lock still to take lies at `k` or above
  have hk_le : ∀ j q', (ordMasks o.p1 o.p2 o.needLocks1 o.needLocks2 q' &&&
      ~~~ordMasks o.p1 o.p2 o.haveLocks1 o.haveLocks2 q').getLsbD j → k ≤ j := fun j q' hj =>
    Nat.le_of_not_lt fun hjk => by
      rcases (toTake_iff h q' j).mp hj with ⟨-, hn⟩ | ⟨-, hn⟩
      · rw [(hu.free j hjk).1] at hn; cases hn
      · rw [(hu.free j hjk).2] at hn; cases hn
  -- above `k`, a lock to take at `k` is below
  have habove : ∀ i q, k < i → i ≤ L.maxBit → ∃ j q', (ordMasks o.p1 o.p2 o.needLocks1
      o.needLocks2 q' &&& ~~~ordMasks o.p1 o.p2 o.haveLocks1 o.haveLocks2 q').getLsbD j ∧
      LockLt j q' i q :=
    fun i q hki hle => by
      rcases hu.first (by omega) with hn | hn
      · exact ⟨k, o.p1, (toTake_iff h _ _).mpr (.inl ⟨rfl, hn⟩), .inl hki⟩
      · obtain ⟨q2, hq2⟩ := h.exists_p2 hn
        exact ⟨k, q2, (toTake_iff h _ _).mpr (.inr ⟨hq2, hn⟩), .inl hki⟩
  by_cases h1 : q = o.p1
  · subst h1
    rw [ordMasks_p1 h.lt, ordMasks_p1 h.lt, BitVec.getLsbD_and, Bool.and_eq_true]
    constructor
    · rintro ⟨hm, hh⟩
      obtain ⟨hle, hki, hik⟩ := (hmask i).mp hm
      refine ⟨hh, habove i _ (Nat.lt_of_le_of_ne hki fun e => ?_) hle⟩
      have := hik e.symm
      rw [getLsbD_and_not, e, hh] at this; simp at this
    · rintro ⟨hh, j, q', hj, hlt⟩
      have hkj := hk_le j q' hj
      rcases hlt with hji | ⟨rfl, hq'⟩
      · exact ⟨(hmask i).mpr ⟨h.le1 i (h.sub1 i hh), by omega, fun e => absurd e (by omega)⟩, hh⟩
      · rcases (toTake_iff h q' j).mp hj with ⟨rfl, -⟩ | ⟨hq2, -⟩
        · exact absurd hq' (lt_irrefl _)
        · exact absurd (h.lt q' hq2) (by omega)
  · by_cases h2 : o.p2 = some q
    · rw [ordMasks_p2 h.lt h2, ordMasks_p2 h.lt h2, BitVec.getLsbD_and, Bool.and_eq_true]
      constructor
      · rintro ⟨hm, hh⟩
        obtain ⟨hle, hki, hik⟩ := (hmask i).mp hm
        refine ⟨hh, ?_⟩
        rcases Nat.lt_or_eq_of_le hki with hki | rfl
        · exact habove i q hki hle
        · exact ⟨k, o.p1, (toTake_iff h _ _).mpr (.inl ⟨rfl, hik rfl⟩), .inr ⟨rfl, h.lt q h2⟩⟩
      · rintro ⟨hh, j, q', hj, hlt⟩
        have hkj := hk_le j q' hj
        have hle := h.le2 i (h.sub2 i hh)
        rcases hlt with hji | ⟨rfl, hq'⟩
        · exact ⟨(hmask i).mpr ⟨hle, by omega, fun e => absurd e (by omega)⟩, hh⟩
        · rcases (toTake_iff h q' j).mp hj with ⟨-, hn⟩ | ⟨hq2, -⟩
          · exact ⟨(hmask j).mpr ⟨hle, hkj, fun e => e ▸ hn⟩, hh⟩
          · rw [h2] at hq2; cases hq2; exact absurd hq' (lt_irrefl _)
    · rw [ordMasks_other (not_or.mpr ⟨h1, h2⟩), ordMasks_other (not_or.mpr ⟨h1, h2⟩)]
      simp

/-- **`proc_safelock` on the processes in lock order**, from `lock_no` and `unlock_mask` on: each
of its calls keeps to the lock order, and it leaves what `SafelockPost` says. -/
theorem safelockFrom_post (isManaged : Bool) :
    RespectsAll (fun q => q = o.p1 ∨ o.p2 = some q) c (safelockFrom L isManaged o
        (o.needLocks1 &&& ~~~o.haveLocks1) (o.needLocks2 &&& ~~~o.haveLocks2) k mask) ∧
      SafelockPost isManaged (fun q => q = o.p1 ∨ o.p2 = some q)
        (ordMasks o.p1 o.p2 o.haveLocks1 o.haveLocks2) (ordMasks o.p1 o.p2 o.needLocks1 o.needLocks2)
        c (safelockFrom L isManaged o (o.needLocks1 &&& ~~~o.haveLocks1)
          (o.needLocks2 &&& ~~~o.haveLocks2) k mask) := by
  rw [safelockFrom_eq fun hn => (h.none2 hn).1]
  generalize hR1 : takesRef isManaged (mask &&& o.haveLocks1) o.haveLocks1 = R1
  generalize hR2 : takesRef isManaged (mask &&& o.haveLocks2) o.haveLocks2 = R2
  have hc1 := unlock_held h mask R1 R2
  obtain ⟨hresp, hheld, hrefc⟩ := lockLoop_run h.lt _ _ _ _ (loopInv_start h hu hc1)
  -- the locks released, and the calls counted
  have hrel : ∀ q, releasedLocks q (unlockCalls R1 (some o.p1) (mask &&& o.haveLocks1) ++
      unlockCalls R2 o.p2 (mask &&& o.haveLocks2) ++
      lockLoop L o.p1 o.p2 (o.needLocks1 &&& ~~~o.haveLocks1 ||| mask &&& o.haveLocks1)
        (o.needLocks2 &&& ~~~o.haveLocks2 ||| mask &&& o.haveLocks2) k ++
      releaseRefs isManaged R1 R2 o.p1 o.p2) =
      ordMasks o.p1 o.p2 (mask &&& o.haveLocks1) (mask &&& o.haveLocks2) q := fun q => by
    simp [releasedLocks_unlockCalls, ordMasks, eq_comm]
  have hinc : ∀ q, (unlockCalls R1 (some o.p1) (mask &&& o.haveLocks1) ++
      unlockCalls R2 o.p2 (mask &&& o.haveLocks2) ++
      lockLoop L o.p1 o.p2 (o.needLocks1 &&& ~~~o.haveLocks1 ||| mask &&& o.haveLocks1)
        (o.needLocks2 &&& ~~~o.haveLocks2 ||| mask &&& o.haveLocks2) k ++
      releaseRefs isManaged R1 R2 o.p1 o.p2).count (.incRefc q) =
      (if R1 ∧ some o.p1 = some q then 1 else 0) + (if R2 ∧ o.p2 = some q then 1 else 0) :=
    fun q => by
      simp only [List.count_append, count_unlockCalls_inc, count_releaseRefs_inc,
        count_lockLoop _ _ _ _ _ (e := .incRefc q) nofun, Nat.add_zero]
  have hdec : ∀ q, (unlockCalls R1 (some o.p1) (mask &&& o.haveLocks1) ++
      unlockCalls R2 o.p2 (mask &&& o.haveLocks2) ++
      lockLoop L o.p1 o.p2 (o.needLocks1 &&& ~~~o.haveLocks1 ||| mask &&& o.haveLocks1)
        (o.needLocks2 &&& ~~~o.haveLocks2 ||| mask &&& o.haveLocks2) k ++
      releaseRefs isManaged R1 R2 o.p1 o.p2).count (.decRefc q) =
      (if R1 ∧ some o.p1 = some q then 1 else 0) + (if R2 ∧ o.p2 = some q then 1 else 0) :=
    fun q => by
      simp only [List.count_append, count_unlockCalls_dec, count_releaseRefs_dec,
        count_lockLoop _ _ _ _ _ (e := .decRefc q) nofun, Nat.zero_add]
      cases isManaged
      · rfl
      · rw [← hR1, ← hR2]; simp [takesRef]
  refine ⟨?_, ⟨fun q hq => ?_, fun q hq => ?_, fun q i => ?_, fun q => ?_, fun q => ?_, ?_⟩⟩
  · -- the order
    simp only [respectsAll_append]
    refine ⟨⟨⟨respectsAll_unlockCalls fun q hq => ?_, respectsAll_unlockCalls fun q hq => ?_⟩,
      hresp⟩, respectsAll_releaseRefs _ _⟩
    · cases hq; rw [h.held1]; ext i; simp
    · rw [run_unlockCalls_held, if_neg fun e => h.ne hq (Option.some.inj e).symm, h.held2 q hq]
      ext i; simp
  · -- what is held on the two processes
    rw [Caller.run_append, run_releaseRefs_held, Caller.run_append, hheld]
    unfold loopPost
    rcases hq with rfl | hq
    · rw [hc1, if_pos rfl, if_pos rfl, if_neg fun e => h.ne e rfl, ordMasks_p1 h.lt,
        locks_or_zero]
      exact held_restore h.sub1
    · rw [hc1, if_neg (h.ne hq), if_pos hq, if_neg (h.ne hq), if_pos hq, ordMasks_p2 h.lt hq,
        locks_or_zero]
      exact held_restore h.sub2
  · -- and on no other
    rw [Caller.run_append, run_releaseRefs_held, Caller.run_append, hheld]
    obtain ⟨h1, h2⟩ := not_or.mp hq
    unfold loopPost
    rw [hc1, if_neg h1, if_neg h2, if_neg h1, if_neg h2, locks_or_zero, locks_or_zero]
  · -- the locks released
    rw [hrel]; exact released_iff h hu q i
  · -- a reference taken when the last lock is given up
    rw [hinc, hrel, ← hR1, ← hR2]
    by_cases h1 : q = o.p1
    · subst h1
      have h2 : o.p2 ≠ some o.p1 := fun e => h.ne e rfl
      rw [ordMasks_p1 h.lt, ordMasks_p1 h.lt]
      simp [takesRef, h2, and_assoc]
    · by_cases h2 : o.p2 = some q
      · rw [ordMasks_p2 h.lt h2, ordMasks_p2 h.lt h2]
        simp [takesRef, h2, Ne.symm h1, and_assoc]
      · rw [ordMasks_other (not_or.mpr ⟨h1, h2⟩), ordMasks_other (not_or.mpr ⟨h1, h2⟩)]
        simp [h2, Ne.symm h1]
  · -- and dropped again
    rw [hinc, hdec]
  · -- so the references are as they were
    funext q
    rw [run_refc, hinc, hdec]; omega

end Ordered

/-- `proc_safelock` once the processes are in lock order. -/
theorem safelockBody_post {L : Layout} {c : Caller} {o : Ordered} (h : OrderedPre L c o)
    (isManaged : Bool) :
    RespectsAll (fun q => q = o.p1 ∨ o.p2 = some q) c (safelockBody L isManaged o) ∧
      SafelockPost isManaged (fun q => q = o.p1 ∨ o.p2 = some q)
        (ordMasks o.p1 o.p2 o.haveLocks1 o.haveLocks2) (ordMasks o.p1 o.p2 o.needLocks1 o.needLocks2)
        c (safelockBody L isManaged o) :=
  safelockFrom_post h (unlockRange_point _ _) isManaged

/-! ## `proc_safelock` -/

/-- The entry condition of `proc_safelock`: `have ⊆ need ⊆ ALL` on both processes, which its lock
checker enforces, and the caller holds the `have` masks. -/
structure SafelockPre (L : Layout) (c : Caller) (aProc : Option Nat)
    (aHaveLocks aNeedLocks : ErtsProcLocks) (bProc : Nat) (bHaveLocks bNeedLocks : ErtsProcLocks) :
    Prop where
  a_have : aHaveLocks &&& ~~~aNeedLocks = 0
  a_need : aNeedLocks &&& ~~~L.all = 0
  b_have : bHaveLocks &&& ~~~bNeedLocks = 0
  b_need : bNeedLocks &&& ~~~L.all = 0
  held : ∀ p, aProc = some p ∨ p = bProc → c.held p = masksOn aProc aHaveLocks bProc bHaveLocks p

theorem getLsbD_of_and_not_eq_zero {a b : ErtsProcLocks} (h : a &&& ~~~b = 0) {i : Nat}
    (hi : a.getLsbD i) : b.getLsbD i := by
  have := eq_zero_iff.mp h i
  rw [getLsbD_and_not, hi, Bool.true_and, Bool.not_eq_false'] at this
  exact this

theorem masksOn_sub (aProc : Option Nat) (bProc : Nat) {a a' b b' : ErtsProcLocks}
    (ha : a &&& ~~~a' = 0) (hb : b &&& ~~~b' = 0) (q i : Nat)
    (hi : (masksOn aProc a bProc b q).getLsbD i) : (masksOn aProc a' bProc b' q).getLsbD i := by
  unfold masksOn at hi ⊢
  rw [BitVec.getLsbD_or, Bool.or_eq_true] at hi ⊢
  rcases hi with hi | hi
  · left; split_ifs at hi ⊢
    · exact getLsbD_of_and_not_eq_zero ha hi
    · simp at hi
  · right; split_ifs at hi ⊢
    · exact getLsbD_of_and_not_eq_zero hb hi
    · simp at hi

theorem lockOrder_lt {a b : Nat} (hab : a < b) (aHaveLocks aNeedLocks bHaveLocks bNeedLocks : ErtsProcLocks) :
    lockOrder (some a) aHaveLocks aNeedLocks b bHaveLocks bNeedLocks =
      ⟨a, aNeedLocks, aHaveLocks, some b, bNeedLocks, bHaveLocks⟩ := if_pos hab

theorem lockOrder_gt {a b : Nat} (hab : b < a) (aHaveLocks aNeedLocks bHaveLocks bNeedLocks : ErtsProcLocks) :
    lockOrder (some a) aHaveLocks aNeedLocks b bHaveLocks bNeedLocks =
      ⟨b, bNeedLocks, bHaveLocks, some a, aNeedLocks, aHaveLocks⟩ := by
  rw [lockOrder, if_neg (by omega), if_pos hab]

theorem lockOrder_self (a : Nat) (aHaveLocks aNeedLocks bHaveLocks bNeedLocks : ErtsProcLocks) :
    lockOrder (some a) aHaveLocks aNeedLocks a bHaveLocks bNeedLocks =
      ⟨a, aNeedLocks ||| bNeedLocks, aHaveLocks ||| bHaveLocks, none, 0, 0⟩ := by
  rw [lockOrder, if_neg (lt_irrefl a), if_neg (lt_irrefl a)]

/-- The processes in lock order are those of `a_proc` and `b_proc`, ... -/
theorem mem_lockOrder (aProc : Option Nat) (aHaveLocks aNeedLocks : ErtsProcLocks) (bProc : Nat)
    (bHaveLocks bNeedLocks : ErtsProcLocks) (q : Nat) :
    (q = (lockOrder aProc aHaveLocks aNeedLocks bProc bHaveLocks bNeedLocks).p1 ∨
      (lockOrder aProc aHaveLocks aNeedLocks bProc bHaveLocks bNeedLocks).p2 = some q) ↔
      (aProc = some q ∨ q = bProc) := by
  cases aProc with
  | none => simp [lockOrder]
  | some a =>
    rcases lt_trichotomy a bProc with hab | rfl | hab
    · rw [lockOrder_lt hab]; simp only [Option.some.injEq]; omega
    · rw [lockOrder_self]; simp [eq_comm]
    · rw [lockOrder_gt hab]; simp only [Option.some.injEq]; omega

/-- ... and the masks per process are those of `a_proc` and `b_proc`. -/
theorem ordMasks_lockOrder (aProc : Option Nat) (aHaveLocks aNeedLocks : ErtsProcLocks)
    (bProc : Nat) (bHaveLocks bNeedLocks : ErtsProcLocks) :
    let o := lockOrder aProc aHaveLocks aNeedLocks bProc bHaveLocks bNeedLocks
    ordMasks o.p1 o.p2 o.haveLocks1 o.haveLocks2 = masksOn aProc aHaveLocks bProc bHaveLocks ∧
      ordMasks o.p1 o.p2 o.needLocks1 o.needLocks2 = masksOn aProc aNeedLocks bProc bNeedLocks := by
  cases aProc with
  | none => constructor <;> funext q <;> simp [lockOrder, ordMasks, masksOn]
  | some a =>
    rcases lt_trichotomy a bProc with hab | rfl | hab
    · rw [lockOrder_lt hab]
      constructor <;> funext q <;> unfold ordMasks masksOn <;> simp only [Option.some.injEq] <;>
        by_cases h1 : q = a <;> by_cases h2 : q = bProc <;> subst_vars <;> simp_all [eq_comm]
    · rw [lockOrder_self]
      constructor <;> funext q <;> unfold ordMasks masksOn <;> simp only [Option.some.injEq] <;>
        by_cases h1 : q = a <;> subst_vars <;> simp_all [eq_comm]
    · rw [lockOrder_gt hab]
      constructor <;> funext q <;> unfold ordMasks masksOn <;> simp only [Option.some.injEq] <;>
        by_cases h1 : q = a <;> by_cases h2 : q = bProc <;> subst_vars <;> simp_all [eq_comm, BitVec.or_comm]

/-- `lockOrder` puts `p1` below `p2`, and nothing on a `NULL` `p2`. -/
theorem lockOrder_lt_p2 (aProc : Option Nat) (aHaveLocks aNeedLocks : ErtsProcLocks) (bProc : Nat)
    (bHaveLocks bNeedLocks : ErtsProcLocks) :
    let o := lockOrder aProc aHaveLocks aNeedLocks bProc bHaveLocks bNeedLocks
    (∀ q, o.p2 = some q → o.p1 < q) ∧ (o.p2 = none → o.haveLocks2 = 0 ∧ o.needLocks2 = 0) := by
  dsimp only
  cases aProc with
  | none => exact ⟨nofun, fun _ => ⟨rfl, rfl⟩⟩
  | some a =>
    rcases lt_trichotomy a bProc with hab | rfl | hab
    · rw [lockOrder_lt hab]; exact ⟨fun q hq => by cases hq; exact hab, nofun⟩
    · rw [lockOrder_self]; exact ⟨nofun, fun _ => ⟨rfl, rfl⟩⟩
    · rw [lockOrder_gt hab]; exact ⟨fun q hq => by cases hq; exact hab, nofun⟩

section Safelock

variable {L : Layout} {c : Caller} {aProc : Option Nat} {aHaveLocks aNeedLocks : ErtsProcLocks}
  {bProc : Nat} {bHaveLocks bNeedLocks : ErtsProcLocks}

/-- The entry condition on the processes in lock order. -/
theorem SafelockPre.ordered
    (h : SafelockPre L c aProc aHaveLocks aNeedLocks bProc bHaveLocks bNeedLocks) :
    OrderedPre L c (lockOrder aProc aHaveLocks aNeedLocks bProc bHaveLocks bNeedLocks) := by
  obtain ⟨hlt, hnone⟩ := lockOrder_lt_p2 aProc aHaveLocks aNeedLocks bProc bHaveLocks bNeedLocks
  obtain ⟨hhave, hneed⟩ := ordMasks_lockOrder aProc aHaveLocks aNeedLocks bProc bHaveLocks bNeedLocks
  have hmem := mem_lockOrder aProc aHaveLocks aNeedLocks bProc bHaveLocks bNeedLocks
  generalize lockOrder aProc aHaveLocks aNeedLocks bProc bHaveLocks bNeedLocks = o at *
  have hsub := masksOn_sub aProc bProc h.a_have h.b_have
  have hle : ∀ q i, (masksOn aProc aNeedLocks bProc bNeedLocks q).getLsbD i → i ≤ L.maxBit :=
    fun q i hi => by
      have := masksOn_sub aProc bProc h.a_need h.b_need q i hi
      unfold masksOn at this
      split_ifs at this <;> simp at this <;> exact this
  refine ⟨hlt, hnone, fun i hi => ?_, fun i hi => ?_, fun i hi => ?_, fun i hi => ?_, ?_,
    fun q hq => ?_⟩
  · have := hsub o.p1 i (by rw [← hhave, ordMasks_p1 hlt]; exact hi)
    rwa [← hneed, ordMasks_p1 hlt] at this
  · cases hp : o.p2 with
    | none => rw [(hnone hp).1] at hi; simp at hi
    | some q =>
      have := hsub q i (by rw [← hhave, ordMasks_p2 hlt hp]; exact hi)
      rwa [← hneed, ordMasks_p2 hlt hp] at this
  · exact hle o.p1 i (by rw [← hneed, ordMasks_p1 hlt]; exact hi)
  · cases hp : o.p2 with
    | none => rw [(hnone hp).2] at hi; simp at hi
    | some q => exact hle q i (by rw [← hneed, ordMasks_p2 hlt hp]; exact hi)
  · rw [h.held o.p1 ((hmem _).mp (.inl rfl)), ← hhave, ordMasks_p1 hlt]
  · rw [h.held q ((hmem _).mp (.inr hq)), ← hhave, ordMasks_p2 hlt hq]

/-- `proc_safelock` on `a_proc` and `b_proc`: each call keeps to the lock order, and it leaves what
`SafelockPost` says. -/
theorem procSafelock_spec
    (h : SafelockPre L c aProc aHaveLocks aNeedLocks bProc bHaveLocks bNeedLocks) (isManaged : Bool) :
    RespectsAll (fun p => aProc = some p ∨ p = bProc) c
        (procSafelock L isManaged aProc aHaveLocks aNeedLocks bProc bHaveLocks bNeedLocks) ∧
      SafelockPost isManaged (fun p => aProc = some p ∨ p = bProc)
        (masksOn aProc aHaveLocks bProc bHaveLocks) (masksOn aProc aNeedLocks bProc bNeedLocks) c
        (procSafelock L isManaged aProc aHaveLocks aNeedLocks bProc bHaveLocks bNeedLocks) := by
  obtain ⟨hhave, hneed⟩ := ordMasks_lockOrder aProc aHaveLocks aNeedLocks bProc bHaveLocks bNeedLocks
  have := safelockBody_post h.ordered isManaged
  rwa [funext fun q => propext (mem_lockOrder aProc aHaveLocks aNeedLocks bProc bHaveLocks
    bNeedLocks q), hhave, hneed] at this

/-- **The postcondition of `proc_safelock`**: it ends holding exactly `a_need_locks` on `a_proc`
and `b_need_locks` on `b_proc` (both on a process that is both), touching no other process; the
locks it releases on the way are exactly those held on entry that lie above a lock it still had
to take, in the order by lock, then by process id; and an unmanaged caller takes a reference on a
process exactly when it gives up its last lock there, and drops it again before it returns. -/
theorem safelock_post (h : SafelockPre L c aProc aHaveLocks aNeedLocks bProc bHaveLocks bNeedLocks)
    (isManaged : Bool) :
    SafelockPost isManaged (fun p => aProc = some p ∨ p = bProc)
      (masksOn aProc aHaveLocks bProc bHaveLocks) (masksOn aProc aNeedLocks bProc bNeedLocks) c
      (procSafelock L isManaged aProc aHaveLocks aNeedLocks bProc bHaveLocks bNeedLocks) :=
  (procSafelock_spec h isManaged).2

/-- `proc_safelock` makes no `erts_thr_progress_unmanaged_continue` call. -/
theorem not_mem_procSafelock (isManaged : Bool) :
    Effect.unmanagedContinue ∉
      procSafelock L isManaged aProc aHaveLocks aNeedLocks bProc bHaveLocks bNeedLocks := by
  unfold procSafelock safelockBody
  rw [safelockFrom_eq fun hn => ((lockOrder_lt_p2 aProc aHaveLocks aNeedLocks bProc bHaveLocks
    bNeedLocks).2 hn).1]
  simp only [List.mem_append, not_or]
  refine ⟨⟨⟨not_mem_unlockCalls, not_mem_unlockCalls⟩, fun hm => ?_⟩, not_mem_releaseRefs⟩
  obtain ⟨p, l, h, -⟩ := lockLoop_isLock _ _ _ _ _ _ hm
  cases h

/-- `proc_safelock` takes and releases locks only on `a_proc` and `b_proc`. -/
theorem lockProc_procSafelock (isManaged : Bool) :
    ∀ e ∈ procSafelock L isManaged aProc aHaveLocks aNeedLocks bProc bHaveLocks bNeedLocks,
      ∀ q, e.lockProc = some q → aProc = some q ∨ q = bProc := by
  unfold procSafelock safelockBody
  rw [safelockFrom_eq fun hn => ((lockOrder_lt_p2 aProc aHaveLocks aNeedLocks bProc bHaveLocks
    bNeedLocks).2 hn).1]
  intro e he q hq
  rw [← mem_lockOrder aProc aHaveLocks aNeedLocks bProc bHaveLocks bNeedLocks q]
  simp only [List.mem_append] at he
  rcases he with ((he | he) | he) | he
  · exact .inl (Option.some.inj (lockProc_unlockCalls e he q hq)).symm
  · exact .inr (lockProc_unlockCalls e he q hq)
  · obtain ⟨p, l, rfl, hp⟩ := lockLoop_isLock _ _ _ _ _ e he
    cases hq
    exact hp
  · rw [lockProc_releaseRefs e he] at hq; cases hq

/-- Two inputs of an unmanaged caller. In the first, `proc_safelock` takes locks `1` and `2` of
process `2` and releases nothing. In the second, the caller holds lock `2` of process `1` and needs
`0` and `1` below it there and lock `0` of process `2`: it pins process `1`, releases lock `2`,
takes the locks in the order, and drops the pin (the calls `incRefc 1`, `unlock 1 4`, `lock 1 1`,
`lock 2 1`, `lock 1 6`, `decRefc 1`). -/
theorem safelock_post_two :
    (SafelockPre fiveLocks ⟨masksOn (some 2) 1 1 3, fun _ => 0⟩ (some 2) 1 7 1 3 3 ∧
      SafelockPost false (fun p => some 2 = some p ∨ p = 1) (masksOn (some 2) 1 1 3)
        (masksOn (some 2) 7 1 3) ⟨masksOn (some 2) 1 1 3, fun _ => 0⟩
        (procSafelock fiveLocks false (some 2) 1 7 1 3 3)) ∧
    (SafelockPre fiveLocks ⟨masksOn (some 1) 4 2 0, fun _ => 0⟩ (some 1) 4 7 2 0 1 ∧
      SafelockPost false (fun p => some 1 = some p ∨ p = 2) (masksOn (some 1) 4 2 0)
        (masksOn (some 1) 7 2 1) ⟨masksOn (some 1) 4 2 0, fun _ => 0⟩
        (procSafelock fiveLocks false (some 1) 4 7 2 0 1)) :=
  have hpre : SafelockPre fiveLocks ⟨masksOn (some 2) 1 1 3, fun _ => 0⟩ (some 2) 1 7 1 3 3 :=
    ⟨by decide, by decide, by decide, by decide, fun _ _ => rfl⟩
  have hpre' : SafelockPre fiveLocks ⟨masksOn (some 1) 4 2 0, fun _ => 0⟩ (some 1) 4 7 2 0 1 :=
    ⟨by decide, by decide, by decide, by decide, fun _ _ => rfl⟩
  ⟨⟨hpre, safelock_post hpre false⟩, hpre', safelock_post hpre' false⟩

/-- **`proc_safelock` keeps to the lock order**: each `erts_proc_lock` call asks for locks the
caller does not hold on that process, above every lock it then holds on either process, in the
order by lock, then by process id; each `erts_proc_unlock` call releases locks it holds. -/
theorem safelock_order (h : SafelockPre L c aProc aHaveLocks aNeedLocks bProc bHaveLocks bNeedLocks)
    (isManaged : Bool) :
    RespectsAll (fun p => aProc = some p ∨ p = bProc) c
      (procSafelock L isManaged aProc aHaveLocks aNeedLocks bProc bHaveLocks bNeedLocks) :=
  (procSafelock_spec h isManaged).1

/-- The two inputs of `safelock_post_two`; in the second, the locks taken after lock `2` of
process `1` is released lie below it. -/
theorem safelock_order_two :
    (SafelockPre fiveLocks ⟨masksOn (some 2) 1 1 3, fun _ => 0⟩ (some 2) 1 7 1 3 3 ∧
      RespectsAll (fun p => some 2 = some p ∨ p = 1) ⟨masksOn (some 2) 1 1 3, fun _ => 0⟩
        (procSafelock fiveLocks false (some 2) 1 7 1 3 3)) ∧
    (SafelockPre fiveLocks ⟨masksOn (some 1) 4 2 0, fun _ => 0⟩ (some 1) 4 7 2 0 1 ∧
      RespectsAll (fun p => some 1 = some p ∨ p = 2) ⟨masksOn (some 1) 4 2 0, fun _ => 0⟩
        (procSafelock fiveLocks false (some 1) 4 7 2 0 1)) :=
  have hpre : SafelockPre fiveLocks ⟨masksOn (some 2) 1 1 3, fun _ => 0⟩ (some 2) 1 7 1 3 3 :=
    ⟨by decide, by decide, by decide, by decide, fun _ _ => rfl⟩
  have hpre' : SafelockPre fiveLocks ⟨masksOn (some 1) 4 2 0, fun _ => 0⟩ (some 1) 4 7 2 0 1 :=
    ⟨by decide, by decide, by decide, by decide, fun _ _ => rfl⟩
  ⟨⟨hpre, safelock_order hpre false⟩, hpre', safelock_order hpre' false⟩

end Safelock

end ProcLock.Safelock
