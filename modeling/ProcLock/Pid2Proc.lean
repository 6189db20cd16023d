import ProcLock.Safelock

/-! # `erts_pid2proc_opt`

`erts_pid2proc_opt` looks a pid up in the process table and takes `pid_need_locks` on the process
it finds: by a trylock, and when that finds a lock busy (and `ERTS_P2P_FLG_TRY_LOCK` is not set)
by `proc_safelock`, which may release the locks of the calling process `c_p` on the way. Holding
the locks it checks again that the process is not exiting, or with `ERTS_P2P_FLG_ALLOW_OTHER_X`
that it is still the table entry of the pid.

What other threads do shows only in what the reads of the code return: the delay handle, whether
a process is exiting, the table entry of the pid's index before and after the locking, and the
outcome of the trylock (`P2PEnv`). Every interleaving gives some value of these, so a statement
for all of them holds on every interleaving.

* `pid2proc_locks`: a process it returns is the one of `pid`, locked with `pid_need_locks` on top
  of what the caller held, and it passed the check made with the locks held; on `NULL` and
  `ERTS_PROC_LOCK_BUSY` the caller holds what it held;
* `pid2proc_refc`: the reference count of a process goes up by one when it is returned with
  `ERTS_P2P_FLG_INC_REFC`, and also when an unmanaged caller with `ERTS_P2P_FLG_INC_REFC` went
  through `proc_safelock` and then found the process exiting or replaced;
* `pid2proc_leak`: that path, which returns `NULL` with the count one up;
* `pid2proc_continue`: the delay handle is taken on every path that gets past the checks on `c_p`,
  and continued exactly once when it is unmanaged;
* `lookup_inc_refc_agrees`: `erts_proc_lookup_raw_inc_refc` does what `erts_pid2proc_opt` does
  with no caller and no lock to take, and `erts_proc_lookup_inc_refc` differs from it only on an
  exiting process. -/

namespace ProcLock.Pid2Proc

open Function ProcLock.Bits ProcLock.LockLoop ProcLock.Safelock

/-! ## The code -/

/-- The flags of `erts_pid2proc_opt`. -/
structure P2PFlags where
  /-- `ERTS_P2P_FLG_INC_REFC` -/
  incRefc : Bool
  /-- `ERTS_P2P_FLG_TRY_LOCK` -/
  tryLock : Bool
  /-- `ERTS_P2P_FLG_ALLOW_OTHER_X` -/
  allowOtherX : Bool
  deriving DecidableEq, Repr

/-- What `erts_pid2proc_opt` returns: `NULL`, `ERTS_PROC_LOCK_BUSY`, or a process, by its id. -/
inductive P2PResult where
  | null
  | busy
  | proc (id : Nat)
  deriving DecidableEq, Repr

/-- What the reads of `erts_pid2proc_opt` return, which other threads decide. A process is named by
its id: two processes in the table at one index have different ids. -/
structure P2PEnv where
  /-- `erts_thr_progress_unmanaged_delay()` returned `ERTS_THR_PRGR_DHANDLE_MANAGED` -/
  managed : Bool
  /-- `ERTS_PROC_IS_EXITING(c_p)` -/
  cPExiting : Bool
  /-- the process at the pid's index, `erts_ptab_pix2intptr_ddrb` -/
  entry : Option Nat
  /-- `erts_proc_raw_trylock__` found a lock busy -/
  busy : Bool
  /-- `ERTS_PROC_IS_EXITING(proc)` with the locks held -/
  exiting : Bool
  /-- the process at the pid's index with the locks held, `erts_ptab_pix2intptr_nob` -/
  entryAfter : Option Nat
  deriving DecidableEq, Repr

/-- The locals of `erts_pid2proc_opt` after the lookup: the calls made, `proc`, `dec_refc_proc`,
and whether `dhndl` is a handle still to continue. -/
structure Looked where
  calls : List Effect
  proc : P2PResult
  decRefcProc : Option Nat
  unmanaged : Bool

variable (L : Layout)

/-- The lookup and locking of `erts_pid2proc_opt`, from `erts_thr_progress_unmanaged_delay()` on,
for the process of id `pid` and the locks `need_locks` still to take. When the trylock is busy, an
unmanaged caller takes a reference to keep the process while it waits in `proc_safelock`, and
continues its handle there. -/
def lookupLock (env : P2PEnv) (cP : Option Nat) (cPHaveLocks : ErtsProcLocks) (pid : Nat)
    (needLocks : ErtsProcLocks) (flags : P2PFlags) : Looked :=
  let incRefc := if flags.incRefc then [Effect.incRefc pid] else []
  match env.entry with
  | none => ⟨[], .null, none, !env.managed⟩
  | some id =>
    if id ≠ pid then ⟨[], .null, none, !env.managed⟩
    else if needLocks = 0 then ⟨incRefc, .proc pid, none, !env.managed⟩
    else if env.busy = false then ⟨.trylock pid needLocks :: incRefc, .proc pid, none, !env.managed⟩
    else if flags.tryLock then ⟨[], .busy, none, !env.managed⟩
    else
      let pin := if env.managed then [] else [Effect.incRefc pid, .unmanagedContinue]
      ⟨incRefc ++ pin ++ procSafelock L env.managed cP cPHaveLocks cPHaveLocks pid 0 needLocks,
        .proc pid, if env.managed then none else some pid, false⟩

/-- The end of `erts_pid2proc_opt`: the handle continued if it still is one, the check made with
the locks held (which gives up the process and its locks when it fails), and the reference
`dec_refc_proc` dropped. -/
def finishLookup (env : P2PEnv) (needLocks : ErtsProcLocks) (flags : P2PFlags) (l : Looked) :
    List Effect × P2PResult :=
  let calls := l.calls ++ if l.unmanaged then [.unmanagedContinue] else []
  match l.proc with
  | .proc p =>
    if needLocks ≠ 0 ∧
        (if flags.allowOtherX then env.entryAfter ≠ some p else env.exiting = true) then
      (calls ++ .unlock p needLocks ::
        onProc (if flags.incRefc then some p else l.decRefcProc) fun q => [.decRefc q], .null)
    else (calls ++ onProc l.decRefcProc fun q => [.decRefc q], .proc p)
  | r => (calls ++ onProc l.decRefcProc fun q => [.decRefc q], r)

/-- `erts_pid2proc_opt(c_p, c_p_have_locks, pid, pid_need_locks, flags)`: the calls it makes and
what it returns. `pid` is the id of an internal pid, `none` for another term. -/
def ertsPid2procOpt (env : P2PEnv) (cP : Option Nat) (cPHaveLocks : ErtsProcLocks)
    (pid : Option Nat) (pidNeedLocks : ErtsProcLocks) (flags : P2PFlags) :
    List Effect × P2PResult :=
  match pid with
  | none => ([], .null)
  | some pid =>
    if cP = some pid ∧ flags.allowOtherX = false ∧ env.cPExiting = true then ([], .null)
    else
      let needLocks := if cP = some pid then pidNeedLocks &&& ~~~cPHaveLocks else pidNeedLocks
      if cP = some pid ∧ needLocks = 0 then
        (if flags.incRefc then [.incRefc pid] else [], .proc pid)
      else finishLookup env needLocks flags (lookupLock L env cP cPHaveLocks pid needLocks flags)

variable {L}

/-- What the lookup can do: find no process of `pid`; find it with no lock to take; take the locks
by the trylock; give up on a busy trylock under `ERTS_P2P_FLG_TRY_LOCK`; or wait for the locks in
`proc_safelock`. -/
theorem lookupLock_cases (env : P2PEnv) (cP : Option Nat) (cPHaveLocks : ErtsProcLocks)
    (pid : Nat) (needLocks : ErtsProcLocks) (flags : P2PFlags) :
    (env.entry ≠ some pid ∧
        lookupLock L env cP cPHaveLocks pid needLocks flags = ⟨[], .null, none, !env.managed⟩) ∨
      (env.entry = some pid ∧ needLocks = 0 ∧ lookupLock L env cP cPHaveLocks pid needLocks flags =
        ⟨if flags.incRefc then [.incRefc pid] else [], .proc pid, none, !env.managed⟩) ∨
      (env.entry = some pid ∧ needLocks ≠ 0 ∧ env.busy = false ∧
        lookupLock L env cP cPHaveLocks pid needLocks flags =
          ⟨.trylock pid needLocks :: if flags.incRefc then [.incRefc pid] else [], .proc pid, none,
            !env.managed⟩) ∨
      (env.entry = some pid ∧ needLocks ≠ 0 ∧ env.busy = true ∧ flags.tryLock = true ∧
        lookupLock L env cP cPHaveLocks pid needLocks flags = ⟨[], .busy, none, !env.managed⟩) ∨
      (env.entry = some pid ∧ needLocks ≠ 0 ∧ env.busy = true ∧ flags.tryLock = false ∧
        lookupLock L env cP cPHaveLocks pid needLocks flags =
          ⟨(if flags.incRefc then [.incRefc pid] else []) ++
              (if env.managed then [] else [.incRefc pid, .unmanagedContinue]) ++
              procSafelock L env.managed cP cPHaveLocks cPHaveLocks pid 0 needLocks,
            .proc pid, if env.managed then none else some pid, false⟩) := by
  unfold lookupLock
  rcases env.entry with _ | id
  · exact .inl ⟨nofun, rfl⟩
  by_cases hid : id ≠ pid
  · exact .inl ⟨fun e => hid (Option.some.inj e), if_pos hid⟩
  obtain rfl : id = pid := Decidable.of_not_not hid
  by_cases h0 : needLocks = 0
  · exact .inr (.inl ⟨rfl, h0, by simp only [if_neg hid, if_pos h0]⟩)
  simp only [if_neg hid, if_neg h0]
  cases env.busy
  · exact .inr (.inr (.inl ⟨trivial, h0, rfl, rfl⟩))
  cases flags.tryLock
  · exact .inr (.inr (.inr (.inr ⟨trivial, h0, rfl, rfl, rfl⟩)))
  · exact .inr (.inr (.inr (.inl ⟨trivial, h0, rfl, rfl, rfl⟩)))

/-! ## The lock contract -/

/-- The entry condition of `erts_pid2proc_opt`: `c_p_have_locks` and `pid_need_locks` are locks of
a process, and the caller holds `c_p_have_locks` on `c_p` and nothing on another process it looks
up. -/
structure P2PPre (L : Layout) (c : Caller) (cP : Option Nat) (cPHaveLocks : ErtsProcLocks)
    (pid : Option Nat) (pidNeedLocks : ErtsProcLocks) : Prop where
  have_all : cPHaveLocks &&& ~~~L.all = 0
  need_all : pidNeedLocks &&& ~~~L.all = 0
  held_cP : ∀ p, cP = some p → c.held p = cPHaveLocks
  held_pid : ∀ p, pid = some p → cP ≠ some p → c.held p = 0

/-- What `erts_pid2proc_opt` guarantees on locks, for the calls `es` it makes and its result `r`:
a process it returns is the one of `pid`, on which the caller then holds `pid_need_locks` on top
of what it held; when it had locks to take, the check made with them held passed; on `NULL` and
`ERTS_PROC_LOCK_BUSY` the caller holds what it held. -/
structure LockContract (env : P2PEnv) (c : Caller) (pid : Option Nat) (pidNeedLocks : ErtsProcLocks)
    (flags : P2PFlags) (es : List Effect) (r : P2PResult) : Prop where
  proc_pid : ∀ p, r = .proc p → pid = some p
  proc_held : ∀ p, r = .proc p →
    ∀ q, (c.run es).held q = c.held q ||| (if q = p then pidNeedLocks else 0)
  proc_checked : ∀ p, r = .proc p → pidNeedLocks &&& ~~~c.held p ≠ 0 →
    if flags.allowOtherX then env.entryAfter = some p else env.exiting = false
  fail_held : r = .null ∨ r = .busy → (c.run es).held = c.held

theorem or_and_not_self (x n : ErtsProcLocks) : x ||| n &&& ~~~x = x ||| n := by
  ext i
  rw [BitVec.getLsbD_or, getLsbD_and_not, BitVec.getLsbD_or]
  cases x.getLsbD i <;> simp

theorem or_and_not_cancel (x n : ErtsProcLocks) : (x ||| n &&& ~~~x) &&& ~~~(n &&& ~~~x) = x := by
  ext i
  rw [getLsbD_and_not, BitVec.getLsbD_or, getLsbD_and_not]
  cases x.getLsbD i <;> simp

theorem and_not_self_eq_zero (x : ErtsProcLocks) : x &&& ~~~x = 0 :=
  eq_zero_iff.mpr fun i => by rw [getLsbD_and_not]; cases x.getLsbD i <;> rfl

section Contract

variable {c : Caller} {cP : Option Nat} {cPHaveLocks pidNeedLocks : ErtsProcLocks} {pid : Nat}

/-- The locks still to take on the process of `pid` are those of `pid_need_locks` the caller does
not hold. -/
theorem P2PPre.needLocks_eq (h : P2PPre L c cP cPHaveLocks (some pid) pidNeedLocks) :
    (if cP = some pid then pidNeedLocks &&& ~~~cPHaveLocks else pidNeedLocks) =
      pidNeedLocks &&& ~~~c.held pid := by
  split_ifs with hc
  · rw [h.held_cP pid hc]
  · rw [h.held_pid pid rfl hc, and_not_zero]

/-- The entry condition of the `proc_safelock` call. -/
theorem P2PPre.safelockPre (h : P2PPre L c cP cPHaveLocks (some pid) pidNeedLocks) (c' : Caller)
    (hc' : c'.held = c.held) :
    SafelockPre L c' cP cPHaveLocks cPHaveLocks pid 0 (pidNeedLocks &&& ~~~c.held pid) := by
  refine ⟨and_not_self_eq_zero _, h.have_all, eq_zero_iff.mpr fun i => by rw [getLsbD_and_not]; simp,
    eq_zero_iff.mpr fun i => ?_, fun p hp => ?_⟩
  · have := eq_zero_iff.mp h.need_all i
    rw [getLsbD_and_not] at this
    rw [getLsbD_and_not, getLsbD_and_not]
    cases hn : pidNeedLocks.getLsbD i <;> simp_all
  · rw [hc']
    unfold masksOn
    by_cases hc : cP = some p
    · simp [hc, h.held_cP p hc]
    · have hpid : p = pid := hp.resolve_left hc
      subst hpid
      simp [hc, h.held_pid p rfl hc]

/-- What the lookup leaves: a process found is the one of `pid`, with the locks still to take added;
otherwise the caller holds what it held. -/
theorem lookupLock_held (h : P2PPre L c cP cPHaveLocks (some pid) pidNeedLocks) (env : P2PEnv)
    (flags : P2PFlags) :
    (∀ p, (lookupLock L env cP cPHaveLocks pid (pidNeedLocks &&& ~~~c.held pid) flags).proc =
        .proc p → p = pid ∧ ∀ q, (c.run (lookupLock L env cP cPHaveLocks pid
          (pidNeedLocks &&& ~~~c.held pid) flags).calls).held q =
          c.held q ||| if q = pid then pidNeedLocks &&& ~~~c.held pid else 0) ∧
      ((∀ p, (lookupLock L env cP cPHaveLocks pid (pidNeedLocks &&& ~~~c.held pid) flags).proc ≠
        .proc p) → (c.run (lookupLock L env cP cPHaveLocks pid (pidNeedLocks &&& ~~~c.held pid)
          flags).calls).held = c.held) := by
  generalize hE : pidNeedLocks &&& ~~~c.held pid = E
  have hinc : ∀ c' : Caller,
      (c'.run (if flags.incRefc then [Effect.incRefc pid] else [])).held = c'.held := fun c' => by
    cases flags.incRefc <;> simp
  have hpin : ∀ c' : Caller,
      (c'.run (if env.managed then [] else [Effect.incRefc pid, .unmanagedContinue])).held =
        c'.held := fun c' => by
    cases env.managed <;> simp
  rcases lookupLock_cases (L := L) env cP cPHaveLocks pid E flags with
    ⟨-, hl⟩ | ⟨-, h0, hl⟩ | ⟨-, -, -, hl⟩ | ⟨-, -, -, -, hl⟩ | ⟨-, -, -, -, hl⟩ <;> rw [hl]
  · exact ⟨nofun, fun _ => rfl⟩
  · -- nothing to take
    refine ⟨fun p hp => ⟨(P2PResult.proc.inj hp).symm, fun q => ?_⟩, fun hn => absurd rfl (hn pid)⟩
    rw [hinc, h0]
    split_ifs <;> exact (locks_or_zero _).symm
  · -- the trylock gets the locks
    refine ⟨fun p hp => ⟨(P2PResult.proc.inj hp).symm, fun q => ?_⟩, fun hn => absurd rfl (hn pid)⟩
    rw [Caller.run_cons, hinc, apply_trylock, apply_lock_held]
    split_ifs with hq
    · subst hq; rfl
    · exact (locks_or_zero _).symm
  · exact ⟨nofun, fun _ => rfl⟩
  · -- `proc_safelock`
    refine ⟨fun p hp => ⟨(P2PResult.proc.inj hp).symm, fun q => ?_⟩, fun hn => absurd rfl (hn pid)⟩
    generalize (if flags.incRefc then [Effect.incRefc pid] else []) = I at hinc ⊢
    generalize (if env.managed then [] else [Effect.incRefc pid, .unmanagedContinue]) = pin at hpin ⊢
    have hpin' : (c.run (I ++ pin)).held = c.held := by rw [Caller.run_append, hpin, hinc]
    have hpost := (procSafelock_spec (h.safelockPre _ hpin') env.managed).2
    rw [hE] at hpost
    rw [Caller.run_append]
    by_cases hq : cP = some q ∨ q = pid
    · rw [hpost.held q hq]
      unfold masksOn
      by_cases hc : cP = some q
      · simp [hc, h.held_cP q hc]
      · obtain rfl : q = pid := hq.resolve_left hc
        simp [hc, h.held_pid q rfl hc]
    · rw [hpost.frame q hq, hpin', if_neg fun e => hq (.inr e), locks_or_zero]

theorem run_continue_held (c : Caller) (u : Bool) :
    (c.run (if u then [Effect.unmanagedContinue] else [])).held = c.held := by
  cases u <;> simp

theorem run_decRefc_held (c : Caller) (o : Option Nat) :
    (c.run (onProc o fun q => [Effect.decRefc q])).held = c.held := by
  cases o <;> simp [onProc]

/-- With nothing to take, the locks asked for are held already. -/
theorem or_eq_of_and_not {x n : ErtsProcLocks} (h : n &&& ~~~x = 0) : x ||| n = x := by
  rw [← or_and_not_self, h, locks_or_zero]

/-- The end of `erts_pid2proc_opt`, after a lookup that leaves what `lookupLock_held` says, keeps
the lock contract. -/
theorem finishLookup_contract {E : ErtsProcLocks} (hE : E = pidNeedLocks &&& ~~~c.held pid)
    {l : Looked} (hproc : ∀ p, l.proc = .proc p →
      p = pid ∧ ∀ q, (c.run l.calls).held q = c.held q ||| if q = pid then E else 0)
    (hfail : (∀ p, l.proc ≠ .proc p) → (c.run l.calls).held = c.held) (env : P2PEnv)
    (flags : P2PFlags) :
    LockContract env c (some pid) pidNeedLocks flags (finishLookup env E flags l).1
      (finishLookup env E flags l).2 := by
  have hlocked : ∀ q, (c.held q ||| if q = pid then E else 0) =
      c.held q ||| if q = pid then pidNeedLocks else 0 := fun q => by
    by_cases hq : q = pid
    · rw [if_pos hq, if_pos hq, hq, hE, or_and_not_self]
    · rw [if_neg hq, if_neg hq]
  unfold finishLookup
  dsimp only
  generalize hcont : (if l.unmanaged then [Effect.unmanagedContinue] else []) = cont
  have hcont' : ∀ c' : Caller, (c'.run cont).held = c'.held := fun c' => hcont ▸ run_continue_held c' _
  split
  · rename_i p hp
    obtain ⟨rfl, hheld⟩ := hproc p hp
    by_cases hchk : E ≠ 0 ∧
        (if flags.allowOtherX then env.entryAfter ≠ some p else env.exiting = true)
    · -- the check fails: the locks are released and `NULL` returned
      rw [if_pos hchk]
      refine ⟨nofun, nofun, nofun, fun _ => funext fun q => ?_⟩
      rw [Caller.run_append, Caller.run_cons, run_decRefc_held, apply_unlock_held,
        Caller.run_append, hcont', hheld, hheld]
      by_cases hq : q = p
      · subst hq; rw [if_pos rfl, if_pos rfl, hE, or_and_not_cancel]
      · rw [if_neg hq, if_neg hq, locks_or_zero]
    · -- the check passes: the process is returned
      rw [if_neg hchk]
      refine ⟨fun p hp => by cases hp; rfl, fun p hp q => ?_, fun p hp hn => ?_, ?_⟩
      · cases hp
        rw [Caller.run_append, run_decRefc_held, Caller.run_append, hcont', hheld, hlocked]
      · cases hp
        rw [← hE] at hn
        have := not_and.mp hchk hn
        split_ifs at this ⊢ <;> simp_all
      · rintro (h | h) <;> cases h
  · rename_i r hr
    have hheld := hfail fun p hp => hr p hp
    refine ⟨fun p hp => absurd hp (hr p), fun p hp => absurd hp (hr p),
      fun p hp => absurd hp (hr p), fun _ => ?_⟩
    rw [Caller.run_append, run_decRefc_held, Caller.run_append, hcont', hheld]

/-- **The lock contract of `erts_pid2proc_opt`**: a process it returns is the one of `pid`, and the
caller holds `pid_need_locks` on it on top of what it held (`c_p_have_locks` on `c_p`); when it had
locks to take, the check it made holding them found the process not exiting, or with
`ERTS_P2P_FLG_ALLOW_OTHER_X` still the table entry of the pid; on `NULL` and
`ERTS_PROC_LOCK_BUSY` the caller holds what it held. -/
theorem pid2proc_locks {pid : Option Nat} (h : P2PPre L c cP cPHaveLocks pid pidNeedLocks)
    (env : P2PEnv) (flags : P2PFlags) :
    LockContract env c pid pidNeedLocks flags
      (ertsPid2procOpt L env cP cPHaveLocks pid pidNeedLocks flags).1
      (ertsPid2procOpt L env cP cPHaveLocks pid pidNeedLocks flags).2 := by
  cases pid with
  | none => exact ⟨nofun, nofun, nofun, fun _ => rfl⟩
  | some pid =>
    unfold ertsPid2procOpt
    dsimp only
    rw [h.needLocks_eq]
    have hinc : ∀ q, (c.run (if flags.incRefc then [Effect.incRefc pid] else [])).held q =
        c.held q := fun q => by cases flags.incRefc <;> rfl
    generalize (if flags.incRefc then [Effect.incRefc pid] else []) = I at hinc
    split_ifs with hx hself
    · exact ⟨nofun, nofun, nofun, fun _ => rfl⟩
    · -- `c_p` itself, holding all that is asked for
      refine ⟨fun p hp => by cases hp; rfl, fun p hp q => ?_, fun p hp hn => ?_, nofun⟩
      · cases hp
        rw [hinc]
        split_ifs with hq
        · subst hq; exact (or_eq_of_and_not hself.2).symm
        · exact (locks_or_zero _).symm
      · cases hp; exact absurd hself.2 hn
    · exact finishLookup_contract rfl (lookupLock_held h env flags).1 (lookupLock_held h env flags).2
        env flags

theorem pid2proc_locks_busy :
    P2PPre fiveLocks ⟨fun q => if q = 0 then 3 else 0, fun _ => 0⟩ (some 0) 3 (some 1) 3 ∧
      LockContract ⟨false, false, some 1, true, false, some 1⟩
        ⟨fun q => if q = 0 then 3 else 0, fun _ => 0⟩ (some 1) 3 ⟨true, false, false⟩
        (ertsPid2procOpt fiveLocks ⟨false, false, some 1, true, false, some 1⟩ (some 0) 3 (some 1) 3
          ⟨true, false, false⟩).1
        (ertsPid2procOpt fiveLocks ⟨false, false, some 1, true, false, some 1⟩ (some 0) 3 (some 1) 3
          ⟨true, false, false⟩).2 :=
  have hpre : P2PPre fiveLocks ⟨fun q => if q = 0 then 3 else 0, fun _ => 0⟩ (some 0) 3 (some 1) 3 :=
    ⟨by decide, by decide, by rintro p ⟨⟩; rfl, by rintro p ⟨⟩ _; rfl⟩
  ⟨hpre, pid2proc_locks hpre _ _⟩

end Contract

/-! ## References and the delay handle -/

/-- The path of `erts_pid2proc_opt` that, with locks to take, finds the trylock of the process `q`
of `pid` busy and waits in `proc_safelock`. -/
def SafelockPath (env : P2PEnv) (cP pid : Option Nat) (flags : P2PFlags) (q : Nat) : Prop :=
  pid = some q ∧ ¬ (cP = some q ∧ flags.allowOtherX = false ∧ env.cPExiting = true) ∧
    env.entry = some q ∧ env.busy = true ∧ flags.tryLock = false

instance (env : P2PEnv) (cP pid : Option Nat) (flags : P2PFlags) (q : Nat) :
    Decidable (SafelockPath env cP pid flags q) := by
  unfold SafelockPath; infer_instance

/-- The paths of `erts_pid2proc_opt` that get to `erts_thr_progress_unmanaged_delay()`: those for an
internal pid, unless it is the pid of `c_p` and `c_p` is exiting (without
`ERTS_P2P_FLG_ALLOW_OTHER_X`) or holds all of `pid_need_locks` already. -/
def DelayPath (env : P2PEnv) (cP : Option Nat) (cPHaveLocks pidNeedLocks : ErtsProcLocks)
    (flags : P2PFlags) : Option Nat → Prop
  | none => False
  | some p => ¬ (cP = some p ∧ flags.allowOtherX = false ∧ env.cPExiting = true) ∧
      ¬ (cP = some p ∧ pidNeedLocks &&& ~~~cPHaveLocks = 0)

instance (env : P2PEnv) (cP : Option Nat) (cPHaveLocks pidNeedLocks : ErtsProcLocks)
    (flags : P2PFlags) : (pid : Option Nat) →
      Decidable (DelayPath env cP cPHaveLocks pidNeedLocks flags pid)
  | none => isFalse id
  | some _ => inferInstanceAs (Decidable (¬ _ ∧ ¬ _))

@[simp] theorem apply_incRefc_refc (c : Caller) (p q : Nat) :
    ((Effect.incRefc p).apply c).refc q = c.refc q + if q = p then 1 else 0 := by
  by_cases hq : q = p
  · subst hq; simp [Effect.apply]
  · simp [Effect.apply, update_apply, hq]

@[simp] theorem apply_decRefc_refc (c : Caller) (p q : Nat) :
    ((Effect.decRefc p).apply c).refc q = c.refc q - if q = p then 1 else 0 := by
  by_cases hq : q = p
  · subst hq; simp [Effect.apply]
  · simp [Effect.apply, update_apply, hq]

section Refc

variable {c : Caller} {cP : Option Nat} {cPHaveLocks pidNeedLocks : ErtsProcLocks} {pid : Nat}

theorem run_decRefc_refc (c : Caller) (o : Option Nat) (q : Nat) :
    (c.run (onProc o fun p => [Effect.decRefc p])).refc q = c.refc q - if o = some q then 1 else 0 := by
  cases o with
  | none => simp [onProc]
  | some p => simp [onProc, eq_comm]

theorem run_continue_refc (c : Caller) (u : Bool) :
    (c.run (if u then [Effect.unmanagedContinue] else [])).refc = c.refc := by
  cases u <;> simp

/-- The references the lookup takes on `q`: one with `ERTS_P2P_FLG_INC_REFC` on a process it found,
and one more that it is to drop at the end (`dec_refc_proc`). -/
theorem lookupLock_refc (h : P2PPre L c cP cPHaveLocks (some pid) pidNeedLocks) (env : P2PEnv)
    (flags : P2PFlags) (q : Nat) :
    (c.run (lookupLock L env cP cPHaveLocks pid (pidNeedLocks &&& ~~~c.held pid) flags).calls).refc q =
      c.refc q + (if (lookupLock L env cP cPHaveLocks pid (pidNeedLocks &&& ~~~c.held pid)
          flags).proc = .proc q ∧ flags.incRefc = true then 1 else 0) +
        if (lookupLock L env cP cPHaveLocks pid (pidNeedLocks &&& ~~~c.held pid) flags).decRefcProc =
          some q then 1 else 0 := by
  have hI : ∀ c' : Caller, (c'.run (if flags.incRefc then [Effect.incRefc pid] else [])).refc q =
      c'.refc q + if pid = q ∧ flags.incRefc = true then 1 else 0 := fun c' => by
    cases flags.incRefc <;> simp [eq_comm]
  have hIh : ∀ c' : Caller,
      (c'.run (if flags.incRefc then [Effect.incRefc pid] else [])).held = c'.held := fun c' => by
    cases flags.incRefc <;> simp
  have hpin : ∀ c' : Caller, (c'.run (if env.managed then [] else
      [Effect.incRefc pid, .unmanagedContinue])).refc q =
      c'.refc q + if pid = q ∧ env.managed = false then 1 else 0 := fun c' => by
    cases env.managed <;> simp [eq_comm]
  have hpinh : ∀ c' : Caller, (c'.run (if env.managed then [] else
      [Effect.incRefc pid, .unmanagedContinue])).held = c'.held := fun c' => by
    cases env.managed <;> simp
  have hdec : (if env.managed then none else some pid) = some q ↔ pid = q ∧ env.managed = false := by
    cases env.managed <;> simp
  rcases lookupLock_cases (L := L) env cP cPHaveLocks pid (pidNeedLocks &&& ~~~c.held pid) flags
    with ⟨-, hl⟩ | ⟨-, -, hl⟩ | ⟨-, -, -, hl⟩ | ⟨-, -, -, -, hl⟩ | ⟨-, -, -, -, hl⟩ <;> rw [hl]
  · simp
  · rw [hI]; simp
  · rw [Caller.run_cons, hI]; simp
  · simp
  · -- `proc_safelock` leaves the references as they were
    generalize (if flags.incRefc then [Effect.incRefc pid] else []) = I at hI hIh ⊢
    generalize (if env.managed then [] else [Effect.incRefc pid, .unmanagedContinue]) = pin
      at hpin hpinh ⊢
    have hpre := h.safelockPre (c.run (I ++ pin)) (by rw [Caller.run_append, hpinh, hIh])
    rw [Caller.run_append, (procSafelock_spec hpre env.managed).2.refc, Caller.run_append, hpin, hI]
    simp only [hdec, P2PResult.proc.injEq]

/-- The lookup leaves a reference to drop (`dec_refc_proc`) only on the process of `pid`, and only
when an unmanaged caller waits for it in `proc_safelock`. -/
theorem lookupLock_decRefcProc (env : P2PEnv) (cP : Option Nat) (cPHaveLocks : ErtsProcLocks)
    (pid : Nat) (needLocks : ErtsProcLocks) (flags : P2PFlags) (q : Nat) :
    (lookupLock L env cP cPHaveLocks pid needLocks flags).decRefcProc = some q ↔
      pid = q ∧ env.entry = some pid ∧ needLocks ≠ 0 ∧ env.busy = true ∧ flags.tryLock = false ∧
        env.managed = false := by
  rcases lookupLock_cases (L := L) env cP cPHaveLocks pid needLocks flags with
    ⟨he, hl⟩ | ⟨he, h0, hl⟩ | ⟨he, h0, hb, hl⟩ | ⟨he, h0, hb, ht, hl⟩ | ⟨he, h0, hb, ht, hl⟩ <;>
    rw [hl]
  · simp [he]
  · simp [h0]
  · simp [hb]
  · simp [ht]
  · simp only [he, hb, ht, h0, ne_eq, not_false_eq_true, true_and, and_true]
    cases env.managed <;> simp [eq_comm]

/-- When the table entry is the process of `pid`, the lookup finds it unless the trylock is busy and
`ERTS_P2P_FLG_TRY_LOCK` is set. -/
theorem lookupLock_proc_of_entry (env : P2PEnv) (cP : Option Nat) (cPHaveLocks : ErtsProcLocks)
    (pid : Nat) (needLocks : ErtsProcLocks) (flags : P2PFlags) (he : env.entry = some pid)
    (ht : flags.tryLock = false) :
    (lookupLock L env cP cPHaveLocks pid needLocks flags).proc = .proc pid := by
  rcases lookupLock_cases (L := L) env cP cPHaveLocks pid needLocks flags with
    ⟨he', -⟩ | ⟨-, -, hl⟩ | ⟨-, -, -, hl⟩ | ⟨-, -, -, ht', -⟩ | ⟨-, -, -, -, hl⟩
  · exact absurd he he'
  · rw [hl]
  · rw [hl]
  · exact absurd (ht.symm.trans ht') Bool.false_ne_true
  · rw [hl]

/-- **The references of `erts_pid2proc_opt`**: the count of a process `q` goes up by one when `q`
is returned with `ERTS_P2P_FLG_INC_REFC`, and by one when `NULL` is returned after an unmanaged
caller with `ERTS_P2P_FLG_INC_REFC` waited for `q` in `proc_safelock`; on every other path it is
unchanged. -/
theorem pid2proc_refc {pid : Option Nat} (h : P2PPre L c cP cPHaveLocks pid pidNeedLocks)
    (env : P2PEnv) (flags : P2PFlags) (q : Nat) :
    (c.run (ertsPid2procOpt L env cP cPHaveLocks pid pidNeedLocks flags).1).refc q =
      c.refc q +
        (if (ertsPid2procOpt L env cP cPHaveLocks pid pidNeedLocks flags).2 = .proc q ∧
          flags.incRefc = true then 1 else 0) +
        if (ertsPid2procOpt L env cP cPHaveLocks pid pidNeedLocks flags).2 = .null ∧
          SafelockPath env cP pid flags q ∧ flags.incRefc = true ∧ env.managed = false
        then 1 else 0 := by
  cases pid with
  | none => simp [ertsPid2procOpt, SafelockPath]
  | some pid =>
    unfold ertsPid2procOpt
    dsimp only
    rw [h.needLocks_eq]
    by_cases hx : cP = some pid ∧ flags.allowOtherX = false ∧ env.cPExiting = true
    · -- `c_p` is exiting
      have hns : ¬ SafelockPath env cP (some pid) flags q := fun ⟨hq, hn, _⟩ =>
        hn (by cases hq; exact hx)
      rw [if_pos hx]
      simp [hns]
    rw [if_neg hx]
    by_cases hself : cP = some pid ∧ pidNeedLocks &&& ~~~c.held pid = 0
    · rw [if_pos hself]
      cases flags.incRefc <;> simp [@eq_comm _ pid]
    rw [if_neg hself]
    have hrefc := lookupLock_refc h env flags q
    have hpid := fun p hp => ((lookupLock_held h env flags).1 p hp).1
    generalize pidNeedLocks &&& ~~~c.held pid = E at hrefc hpid hself ⊢
    have hdec := lookupLock_decRefcProc (L := L) env cP cPHaveLocks pid E flags q
    have hentry := lookupLock_proc_of_entry (L := L) env cP cPHaveLocks pid E flags
    generalize lookupLock L env cP cPHaveLocks pid E flags = l at hrefc hpid hdec hentry
    unfold finishLookup
    dsimp only
    split
    · rename_i p hp
      obtain rfl := hpid p hp
      by_cases hchk : E ≠ 0 ∧
          (if flags.allowOtherX then env.entryAfter ≠ some p else env.exiting = true)
      · -- the check fails: the process is unlocked and `NULL` returned
        have hsafe : l.decRefcProc = some q ↔
            SafelockPath env cP (some p) flags q ∧ env.managed = false := by
          rw [hdec, SafelockPath, Option.some.injEq]
          constructor
          · rintro ⟨rfl, he, -, hb, ht, hm⟩; exact ⟨⟨rfl, hx, he, hb, ht⟩, hm⟩
          · rintro ⟨⟨rfl, -, he, hb, ht⟩, hm⟩; exact ⟨rfl, he, hchk.1, hb, ht, hm⟩
        simp only [if_pos hchk]
        rw [Caller.run_append, Caller.run_cons, run_decRefc_refc, apply_unlock_refc,
          Caller.run_append, run_continue_refc, hrefc, hp]
        cases flags.incRefc <;> simp [hsafe]
        rw [Int.add_right_comm, Int.add_sub_cancel]
      · -- the check passes: the process is returned
        simp only [if_neg hchk]
        rw [Caller.run_append, run_decRefc_refc, Caller.run_append, run_continue_refc, hrefc, hp]
        simp
    · -- `NULL` or `ERTS_PROC_LOCK_BUSY` from the lookup, which left no reference to drop
      rename_i hnp
      have hnd : l.decRefcProc ≠ some q := fun hd => by
        obtain ⟨rfl, he, -, -, ht, -⟩ := hdec.mp hd
        exact hnp _ (hentry he ht)
      have hns : ¬ SafelockPath env cP (some pid) flags q := fun ⟨hq, _, he, _, ht⟩ => by
        cases hq; exact hnp _ (hentry he ht)
      rw [Caller.run_append, run_decRefc_refc, Caller.run_append, run_continue_refc, hrefc]
      simp [hnd, hns]

theorem pid2proc_refc_unmanaged :
    P2PPre fiveLocks ⟨fun _ => 0, fun _ => 0⟩ none 0 (some 1) 1 ∧
      ((⟨fun _ => 0, fun _ => 0⟩ : Caller).run (ertsPid2procOpt fiveLocks
        ⟨false, false, some 1, true, true, some 1⟩ none 0 (some 1) 1 ⟨true, false, false⟩).1).refc 1 =
        0 + (if (ertsPid2procOpt fiveLocks ⟨false, false, some 1, true, true, some 1⟩ none 0 (some 1) 1
            ⟨true, false, false⟩).2 = .proc 1 ∧ true = true then 1 else 0) +
          if (ertsPid2procOpt fiveLocks ⟨false, false, some 1, true, true, some 1⟩ none 0 (some 1) 1
            ⟨true, false, false⟩).2 = .null ∧
            SafelockPath ⟨false, false, some 1, true, true, some 1⟩ none (some 1) ⟨true, false, false⟩ 1 ∧
            true = true ∧ false = false then 1 else 0 :=
  have hpre : P2PPre fiveLocks ⟨fun _ => 0, fun _ => 0⟩ none 0 (some 1) 1 :=
    ⟨by decide, by decide, nofun, fun _ _ _ => rfl⟩
  ⟨hpre, pid2proc_refc hpre _ _ 1⟩

end Refc

/-- The end of `erts_pid2proc_opt` continues the handle once if the lookup left one. -/
theorem count_finishLookup (env : P2PEnv) (needLocks : ErtsProcLocks) (flags : P2PFlags)
    (l : Looked) :
    (finishLookup env needLocks flags l).1.count .unmanagedContinue =
      l.calls.count .unmanagedContinue + if l.unmanaged then 1 else 0 := by
  have hdec : ∀ o : Option Nat,
      (onProc o fun q => [Effect.decRefc q]).count .unmanagedContinue = 0 := fun o => by
    cases o <;> simp [onProc]
  unfold finishLookup
  dsimp only
  split
  · split_ifs <;> cases l.unmanaged <;> simp [hdec]
  · cases l.unmanaged <;> simp [hdec]

/-- An unmanaged handle is continued once by the lookup or left to continue, never both: in
`proc_safelock`'s branch `dhndl` is set to `ERTS_THR_PRGR_DHANDLE_MANAGED` once it is continued. -/
theorem count_lookupLock (env : P2PEnv) (cP : Option Nat) (cPHaveLocks : ErtsProcLocks)
    (pid : Nat) (needLocks : ErtsProcLocks) (flags : P2PFlags) :
    (lookupLock L env cP cPHaveLocks pid needLocks flags).calls.count .unmanagedContinue +
        (if (lookupLock L env cP cPHaveLocks pid needLocks flags).unmanaged then 1 else 0) =
      if env.managed then 0 else 1 := by
  have hI : (if flags.incRefc then [Effect.incRefc pid] else []).count .unmanagedContinue = 0 := by
    cases flags.incRefc <;> simp
  have hpin : (if env.managed then [] else [Effect.incRefc pid, .unmanagedContinue]).count
      .unmanagedContinue = if env.managed then 0 else 1 := by
    cases env.managed <;> rfl
  rcases lookupLock_cases (L := L) env cP cPHaveLocks pid needLocks flags with
    ⟨-, hl⟩ | ⟨-, -, hl⟩ | ⟨-, -, -, hl⟩ | ⟨-, -, -, -, hl⟩ | ⟨-, -, -, -, hl⟩ <;> rw [hl]
  · cases env.managed <;> rfl
  · rw [hI]; cases env.managed <;> rfl
  · rw [List.count_cons, hI]; cases env.managed <;> rfl
  · cases env.managed <;> rfl
  · rw [List.count_append, List.count_append, hI, hpin,
      List.count_eq_zero_of_not_mem (not_mem_procSafelock _)]
    cases env.managed <;> rfl

/-- **The delay handle of `erts_pid2proc_opt`**: on the paths that take it, an unmanaged handle is
continued exactly once, and no other path continues one. -/
theorem pid2proc_continue (env : P2PEnv) (cP : Option Nat) (cPHaveLocks : ErtsProcLocks)
    (pid : Option Nat) (pidNeedLocks : ErtsProcLocks) (flags : P2PFlags) :
    (ertsPid2procOpt L env cP cPHaveLocks pid pidNeedLocks flags).1.count .unmanagedContinue =
      if DelayPath env cP cPHaveLocks pidNeedLocks flags pid ∧ env.managed = false then 1 else 0 := by
  cases pid with
  | none => simp [ertsPid2procOpt, DelayPath]
  | some pid =>
    unfold ertsPid2procOpt
    dsimp only
    by_cases hx : cP = some pid ∧ flags.allowOtherX = false ∧ env.cPExiting = true
    · simp [hx, DelayPath]
    rw [if_neg hx]
    by_cases hself : cP = some pid ∧
        (if cP = some pid then pidNeedLocks &&& ~~~cPHaveLocks else pidNeedLocks) = 0
    · -- `c_p` itself, holding all that is asked for: no handle is taken
      have hn : ¬ DelayPath env cP cPHaveLocks pidNeedLocks flags (some pid) :=
        fun hd => hd.2 ⟨hself.1, by rw [← hself.2, if_pos hself.1]⟩
      rw [if_pos hself]
      cases flags.incRefc <;> simp [hn]
    · have hd : DelayPath env cP cPHaveLocks pidNeedLocks flags (some pid) :=
        ⟨hx, fun hc => hself ⟨hc.1, by rw [if_pos hc.1, hc.2]⟩⟩
      rw [if_neg hself, count_finishLookup, count_lookupLock]
      cases env.managed <;> simp [hd]

/-- **A reference kept on `NULL`**: an unmanaged caller with `ERTS_P2P_FLG_INC_REFC` that finds the
trylock of process `1` busy takes two references on it, the one asked for and the one that keeps the
process while it waits in `proc_safelock`; holding the lock it finds the process exiting, unlocks
it and returns `NULL`, but drops only one of the two: the count stays one up. -/
theorem pid2proc_leak :
    (ertsPid2procOpt fiveLocks ⟨false, false, some 1, true, true, some 1⟩ none 0 (some 1) 1
        ⟨true, false, false⟩).2 = .null ∧
      ((⟨fun _ => 0, fun _ => 0⟩ : Caller).run (ertsPid2procOpt fiveLocks
        ⟨false, false, some 1, true, true, some 1⟩ none 0 (some 1) 1 ⟨true, false, false⟩).1).refc 1 =
        1 := by
  refine ⟨by decide, ?_⟩
  have hcalls : (ertsPid2procOpt fiveLocks ⟨false, false, some 1, true, true, some 1⟩ none 0
      (some 1) 1 ⟨true, false, false⟩).1 = [.incRefc 1] ++ [.incRefc 1, .unmanagedContinue] ++
        procSafelock fiveLocks false none 0 0 1 0 1 ++ [] ++ .unlock 1 1 :: [.decRefc 1] := rfl
  have hpre : SafelockPre fiveLocks ((⟨fun _ => 0, fun _ => 0⟩ : Caller).run
      ([.incRefc 1] ++ [.incRefc 1, .unmanagedContinue])) none 0 0 1 0 1 :=
    ⟨by decide, by decide, by decide, by decide, fun p _ => by simp [masksOn]⟩
  rw [hcalls, Caller.run_append, Caller.run_append, Caller.run_append, Caller.run_nil,
    run_refc _ [_, _], (procSafelock_spec hpre false).2.refc]
  simp

/-! ## The lookups with a reference -/

/-- What the reads of `proc_lookup_inc_refc` return, which other threads decide. -/
structure LookupEnv where
  /-- the process at the pid's index -/
  entry : Option Nat
  /-- `ERTS_PROC_IS_EXITING(proc)` -/
  exiting : Bool
  deriving DecidableEq, Repr

/-- `proc_lookup_inc_refc(pid, allow_exit)`: the calls it makes and the process it returns, `none`
for `NULL`. `erts_proc_lookup_raw` (`erl_process.h`) gives the process at the pid's index when it
is the one of `pid`, and `NULL` for a term that is not an internal pid; `dhndl` is continued on
every path. -/
def procLookupIncRefc (env : LookupEnv) (pid : Option Nat) (allowExit : Bool) :
    List Effect × Option Nat :=
  match pid with
  | some pid =>
    if env.entry = some pid then
      if !allowExit && env.exiting then ([.unmanagedContinue], none)
      else ([.incRefc pid, .unmanagedContinue], some pid)
    else ([.unmanagedContinue], none)
  | none => ([.unmanagedContinue], none)

/-- `erts_proc_lookup_inc_refc(pid)` -/
def ertsProcLookupIncRefc (env : LookupEnv) (pid : Option Nat) : List Effect × Option Nat :=
  procLookupIncRefc env pid false

/-- `erts_proc_lookup_raw_inc_refc(pid)` -/
def ertsProcLookupRawIncRefc (env : LookupEnv) (pid : Option Nat) : List Effect × Option Nat :=
  procLookupIncRefc env pid true

/-- **The lookups with a reference against `erts_pid2proc_opt`**: whatever the table holds and
whoever calls, `erts_proc_lookup_raw_inc_refc(pid)` returns the process that
`erts_pid2proc_opt(NULL, 0, pid, 0, ERTS_P2P_FLG_INC_REFC)` returns, or `NULL` where it does, and
makes the same calls on locks and references: none on a lock, one reference on the process it
returns. `erts_proc_lookup_inc_refc(pid)` does the same, except on an exiting process, where it
returns `NULL` and takes no reference. -/
theorem lookup_inc_refc_agrees (env : P2PEnv) (exiting : Bool) (pid : Option Nat) (c : Caller) :
    c.run (ertsProcLookupRawIncRefc ⟨env.entry, exiting⟩ pid).1 =
        c.run (ertsPid2procOpt L env none 0 pid 0 ⟨true, false, false⟩).1 ∧
      (ertsProcLookupRawIncRefc ⟨env.entry, exiting⟩ pid).2.elim .null .proc =
        (ertsPid2procOpt L env none 0 pid 0 ⟨true, false, false⟩).2 ∧
      ertsProcLookupIncRefc ⟨env.entry, exiting⟩ pid =
        if exiting then ([.unmanagedContinue], none)
        else ertsProcLookupRawIncRefc ⟨env.entry, exiting⟩ pid := by
  cases pid with
  | none => cases exiting <;> simp [ertsProcLookupRawIncRefc, ertsProcLookupIncRefc,
      procLookupIncRefc, ertsPid2procOpt, Effect.apply]
  | some pid =>
    have hl : lookupLock L env none 0 pid 0 ⟨true, false, false⟩ =
        if env.entry = some pid then ⟨[.incRefc pid], .proc pid, none, !env.managed⟩
        else ⟨[], .null, none, !env.managed⟩ := by
      cases he : env.entry with
      | none => simp [lookupLock, he]
      | some id => by_cases h : id = pid <;> simp [lookupLock, he, h]
    simp only [ertsPid2procOpt, reduceCtorEq, false_and, if_false, hl]
    by_cases he : env.entry = some pid <;> cases exiting <;> cases env.managed <;>
      simp [he, finishLookup, onProc, ertsProcLookupRawIncRefc, ertsProcLookupIncRefc,
        procLookupIncRefc, Effect.apply]

end ProcLock.Pid2Proc
