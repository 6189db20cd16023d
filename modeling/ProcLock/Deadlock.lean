import ProcLock.Threads
import ProcLock.Pid2Proc

/-! # Deadlock freedom by lock order

The locks of many processes, `g p` the lock of process `p` as `Machine` models it, and the threads
taking their actions on them. A thread runs one call at a time: it calls a fast path only outside
the lock code of every process. It calls `erts_proc_lock` only on locks above every lock it holds,
on any process, in the lock order `LockLt`: by lock number, then by process id (`Guard`).

A thread waits for lock `b` of `p` when it is on the queue of `b`, or spins in
`erts_proc_lock_failed` finding nothing to take, `b` the lowest lock it needs (`WaitsOn`); it waits
for the owner of that lock (`WaitsFor`).

* `sysInv_reachable`: in every reachable state a thread is in the lock code of one process at most,
  and a thread in `erts_proc_lock` holds, outside the locks it asks for, only locks below them:
  the threads gain only locks they need (`gains_step`), and keep asking for the same locks
  (`moves_step`);
* `lockLt_of_waitsOn`: a thread owning a lock and waiting for another waits for a higher one;
* `safelock_inOrder`, `pid2proc_inOrder`: each `erts_proc_lock` call of `proc_safelock` and of
  `erts_pid2proc_opt` asks for locks above every lock the caller holds, when the caller holds
  locks only on the processes it passes in;
* `deadlock_free`: the waits-for relation has no cycle, and `proc_safelock` and
  `erts_pid2proc_opt` keep to the order of the system. -/

namespace ProcLock.Deadlock

open Function ProcLock.Bits ProcLock.Machine ProcLock.Invariant ProcLock.Step ProcLock.Fifo
open ProcLock.Threads ProcLock.LockLoop ProcLock.Safelock ProcLock.Pid2Proc

/-! ## The system -/

/-- Thread `t` is outside the lock code of every process. -/
def Idle (g : Nat → St) (t : Nat) : Prop := ∀ q, (g q).pc t = .idle

/-- The locks of `held`, on every process, lie below every lock of `locks` of process `p`. -/
def Below (held : Nat → ErtsProcLocks) (p : Nat) (locks : ErtsProcLocks) : Prop :=
  ∀ q i, (held q).getLsbD i → ∀ j, locks.getLsbD j → LockLt i q j p

/-- What a thread may do on the lock of process `p`: call a fast path only outside the lock code
of every process, and `erts_proc_lock` only on locks above all it holds. -/
def Guard (g : Nat → St) (p : Nat) : Act → Prop
  | .lock t locks => Idle g t ∧ Below (fun q => (g q).held t) p locks
  | .trylock t _ => Idle g t
  | .unlock t _ => Idle g t
  | .run _ => True

/-- A step of the system: a step of the lock of one process, by a thread keeping to `Guard`. -/
def SysStep (L : Layout) (c : Nat → Int) (g g' : Nat → St) : Prop :=
  ∃ p a s', Guard g p a ∧ step L c (g p) a = some s' ∧ g' = update g p s'

/-- The states reachable from `erts_proc_lock_init` of every process, `creator p` the thread that
creates `p`. -/
def SysReachable (L : Layout) (c : Nat → Int) (creator : Nat → Nat) (g : Nat → St) : Prop :=
  Relation.ReflTransGen (SysStep L c) (fun p => ertsProcLockInit L (creator p)) g

/-- Thread `t` waits for lock `b` of process `p`: it is on the queue of `b`, or it spins in
`erts_proc_lock_failed` finding nothing it can take, `b` the lowest lock it still needs. -/
def WaitsOn (g : Nat → St) (t p b : Nat) : Prop :=
  (∃ l, (g p).wq.Lists b l ∧ t ∈ l) ∨
    ∃ locks need o k k', (g p).pc t = .lockFailed locks need o k k' ∧
      inOrderLocks (g p).flags need = 0 ∧ IsLowest need b

/-- Thread `t` waits for thread `u`: `u` owns a lock `t` waits for. -/
def WaitsFor (g : Nat → St) (t u : Nat) : Prop :=
  ∃ p b, WaitsOn g t p b ∧ ((g p).held u).getLsbD b

/-- No thread waits for itself through a chain of waits. -/
def Acyclic (g : Nat → St) : Prop := ∀ t, ¬ Relation.TransGen (WaitsFor g) t t

/-! ## The invariant -/

/-- The invariant of the system: each lock satisfies `Inv`, a thread is in the lock code of one
process at most, and a thread in `erts_proc_lock` holds, outside the locks it asks for, only
locks below them. -/
structure SysInv (L : Layout) (g : Nat → St) : Prop where
  inv : ∀ p, ∃ qs, Inv L (g p) qs
  one : ∀ t p q, (g p).pc t ≠ .idle → (g q).pc t ≠ .idle → p = q
  ord : ∀ t p locks, ((g p).pc t).asking = some locks → ∀ q i, ((g q).held t).getLsbD i →
    ¬ (q = p ∧ locks.getLsbD i) → ∀ j, locks.getLsbD j → LockLt i q j p

theorem sysInv_init (L : Layout) (creator : Nat → Nat) :
    SysInv L fun p => ertsProcLockInit L (creator p) where
  inv p := ⟨_, inv_init L (creator p)⟩
  one _ _ _ h := absurd rfl h
  ord _ _ _ h := nomatch h

theorem ne_idle_of_asking {p : Pc} {locks : ErtsProcLocks} (h : p.asking = some locks) :
    p ≠ .idle := by
  rintro rfl; cases h

section Step

variable {L : Layout} {c : Nat → Int} {g : Nat → St} {p₀ : Nat} {a : Act} {s' : St}
variable (hgd : Guard g p₀ a) (hst : step L c (g p₀) a = some s')
include hgd hst

/-- A thread outside the lock code of `p₀` acting there takes a fast path, and is outside the lock
code of every process. -/
theorem idle_of_guard (h0 : (g p₀).pc a.thread = .idle) : Idle g a.thread := by
  cases a with
  | lock t locks => exact hgd.1
  | trylock t locks => exact hgd
  | unlock t locks => exact hgd
  | run t => exact absurd h0 (run_not_idle hst)

/-- A thread in the lock code of `p` after the step was there before, or enters the lock code of
`p = p₀` from outside the lock code of every process. -/
theorem ne_idle_step {t p : Nat} (h : (update g p₀ s' p).pc t ≠ .idle) :
    (g p).pc t ≠ .idle ∨ (p = p₀ ∧ Idle g t) := by
  by_cases hp : p = p₀
  · subst hp
    rw [update_same] at h
    by_cases h0 : (g p).pc t = .idle
    · have ht : t = a.thread := by
        by_contra hne; exact h (by rw [(moves_step hst).1 t hne, h0])
      subst ht
      exact .inr ⟨rfl, idle_of_guard hgd hst h0⟩
    · exact .inl h0
  · rw [update_noteq hp] at h; exact .inl h

/-- A thread asking for locks after the step asked for them before, or has just called
`erts_proc_lock` for them on `p₀`, with its locks as they were. -/
theorem asking_step {t p : Nat} {locks : ErtsProcLocks}
    (h : ((update g p₀ s' p).pc t).asking = some locks) :
    ((g p).pc t).asking = some locks ∨ (p = p₀ ∧ a = .lock t locks ∧ s'.held t = (g p₀).held t) := by
  by_cases hp : p = p₀
  · subst hp
    rw [update_same] at h
    by_cases ht : t = a.thread
    · subst ht
      rcases (moves_step hst).2 locks h with h' | ⟨ha, hh⟩
      · exact .inl h'
      · exact .inr ⟨rfl, ha, hh⟩
    · rw [(moves_step hst).1 t ht] at h; exact .inl h
  · rw [update_noteq hp] at h; exact .inl h

/-- **The step lemma**: every step of the system keeps `SysInv`. -/
theorem sysInv_step (hs : SysInv L g) : SysInv L (update g p₀ s') := by
  obtain ⟨qs, hi⟩ := hs.inv p₀
  refine ⟨fun p => ?_, fun t p q hp hq => ?_, fun t p locks ha q i hq hnot j hj => ?_⟩
  · by_cases hp : p = p₀
    · subst hp
      obtain ⟨qs', hi', -⟩ := inv_step hi hst
      exact ⟨qs', by rw [update_same]; exact hi'⟩
    · rw [update_noteq hp]; exact hs.inv p
  · rcases ne_idle_step hgd hst hp with hp' | ⟨rfl, hidle⟩ <;>
      rcases ne_idle_step hgd hst hq with hq' | ⟨rfl, hidle'⟩
    · exact hs.one t p q hp' hq'
    · exact absurd (hidle' p) hp'
    · exact absurd (hidle q) hq'
    · rfl
  · rcases asking_step hgd hst ha with hold | ⟨rfl, rfl, hh⟩
    · -- the same request: a lock gained since is one it needs, so one it asks for
      by_cases hq0 : q = p₀
      · subst hq0
        rw [update_same] at hq
        cases hqi : ((g q).held t).getLsbD i
        · rcases gains_step hi hst hq hqi with ⟨locks', need, hreq, hn⟩ | ⟨rfl, h0, -⟩
          · have hpq := hs.one t q p (ne_idle_of_asking (asking_of_request hreq))
              (ne_idle_of_asking hold)
            subst hpq
            have hl : locks' = locks := Option.some.inj ((asking_of_request hreq).symm.trans hold)
            subst hl
            exact absurd ⟨rfl, (hi.acquiring t locks' need hreq).2.sub i hn⟩ hnot
          · exact absurd hold (by rw [idle_of_guard hgd hst h0 p]; nofun)
        · exact hs.ord t p locks hold q i hqi hnot j hj
      · rw [update_noteq hq0] at hq
        exact hs.ord t p locks hold q i hq hnot j hj
    · -- a new call of `erts_proc_lock`, above all the caller holds
      have hq' : ((g q).held t).getLsbD i := by
        by_cases hq0 : q = p
        · subst hq0; rwa [update_same, hh] at hq
        · rwa [update_noteq hq0] at hq
      exact hgd.2 q i hq' j hj

end Step

/-- **Every reachable state of the system satisfies `SysInv`.** -/
theorem sysInv_reachable {L : Layout} {c : Nat → Int} {creator : Nat → Nat} {g : Nat → St}
    (h : SysReachable L c creator g) : SysInv L g := by
  induction h with
  | refl => exact sysInv_init L creator
  | tail _ hst ih =>
    obtain ⟨p, a, s', hgd, hs, rfl⟩ := hst
    exact sysInv_step hgd hs ih

/-! ## No cycle of waits -/

section Waits

variable {L : Layout} {g : Nat → St}

/-- A waiting thread is in `erts_proc_lock`, needing the lock it waits for. -/
theorem request_of_waitsOn {qs : Nat → List Nat} {t p b : Nat} (hi : Inv L (g p) qs)
    (hw : WaitsOn g t p b) :
    ∃ locks need, request (g p) t = some (locks, need) ∧ need.getLsbD b := by
  rcases hw with ⟨l, hl, ht⟩ | ⟨locks, need, o, k, k', hpc, -, hlow⟩
  · obtain rfl := lists_eq hi hl
    obtain ⟨locks, hreq, hlow⟩ := request_of_queued hi ht
    exact ⟨locks, _, hreq, hlow.1⟩
  · exact ⟨locks, need, by simp only [request, hpc], hlow.1⟩

/-- A thread owning lock `b` of `p` and waiting for lock `b₂` of `p₂` waits for a higher lock:
within one call the locks come in order (`Acquiring.upper`), and what it held before the call
lies below what it asks for (`SysInv.ord`). -/
theorem lockLt_of_waitsOn (hs : SysInv L g) {u p b p₂ b₂ : Nat} (hh : ((g p).held u).getLsbD b)
    (hw : WaitsOn g u p₂ b₂) : LockLt b p b₂ p₂ := by
  obtain ⟨qs, hi⟩ := hs.inv p₂
  obtain ⟨locks, need, hreq, hn⟩ := request_of_waitsOn hi hw
  have hacq := (hi.acquiring u locks need hreq).2
  by_cases hin : p = p₂ ∧ locks.getLsbD b
  · obtain ⟨rfl, hl⟩ := hin
    have hnb : need.getLsbD b = false :=
      Bool.eq_false_iff.mpr fun h => by rw [hacq.disj b h] at hh; cases hh
    exact .inl (hacq.upper b b₂ hl hnb hn)
  · exact hs.ord u p₂ locks (asking_of_request hreq) p b hh hin b₂ (hacq.sub b₂ hn)

/-- Along a chain of waits from `t` to `u`, a lock `t` waits for lies at or below a lock `u`
owns. -/
theorem chain_le (hs : SysInv L g) {t u : Nat} (h : Relation.TransGen (WaitsFor g) t u) :
    ∃ p b p' b', WaitsOn g t p b ∧ ((g p').held u).getLsbD b' ∧
      (LockLt b p b' p' ∨ b = b' ∧ p = p') := by
  induction h with
  | single h =>
    obtain ⟨p, b, hw, hh⟩ := h
    exact ⟨p, b, p, b, hw, hh, .inr ⟨rfl, rfl⟩⟩
  | tail _ huv ih =>
    obtain ⟨p, b, p', b', hw, hh, hle⟩ := ih
    obtain ⟨p₂, b₂, hw₂, hh₂⟩ := huv
    have hlt := lockLt_of_waitsOn hs hh hw₂
    refine ⟨p, b, p₂, b₂, hw, hh₂, .inl ?_⟩
    unfold LockLt at *; omega

/-- The waits-for relation of a state satisfying `SysInv` has no cycle. -/
theorem acyclic (hs : SysInv L g) : Acyclic g := fun t ht => by
  obtain ⟨p, b, p', b', hw, hh, hle⟩ := chain_le hs ht
  have := lockLt_of_waitsOn hs hh hw
  unfold LockLt at *; omega

end Waits

/-! ## `proc_safelock` and `erts_pid2proc_opt` in the system

A caller's locks (`Caller.held`) are those the thread holds on each process of the system, so a
sequence of calls keeps to `Guard` when each `erts_proc_lock` call in it asks for locks above
every lock the caller holds then. -/

/-- Each `erts_proc_lock` call of a sequence asks for locks above every lock the caller holds
then, on any process. -/
def LocksInOrder : Caller → List Effect → Prop
  | _, [] => True
  | c, e :: es => (∀ p locks, e = .lock p locks → Below c.held p locks) ∧
      LocksInOrder (e.apply c) es

@[simp] theorem locksInOrder_append {c : Caller} {es es' : List Effect} :
    LocksInOrder c (es ++ es') ↔ LocksInOrder c es ∧ LocksInOrder (c.run es) es' := by
  induction es generalizing c with
  | nil => simp [LocksInOrder]
  | cons e es ih => simp [LocksInOrder, ih, and_assoc]

/-- Calls other than `erts_proc_lock` keep to the order. -/
theorem locksInOrder_of_not_lock {c : Caller} {es : List Effect}
    (h : ∀ e ∈ es, ∀ p locks, e ≠ .lock p locks) : LocksInOrder c es := by
  induction es generalizing c with
  | nil => trivial
  | cons e es ih =>
    exact ⟨fun p locks he => absurd he (h e (.head _) p locks), ih fun e' he' => h e' (.tail _ he')⟩

/-- Calls keeping to the lock order on the processes `ps` (`RespectsAll`), on the locks of those
processes only, by a caller holding locks only there, keep to the order on every process. -/
theorem locksInOrder_of_respects {ps : Nat → Prop} {c : Caller} {es : List Effect}
    (h : RespectsAll ps c es) (hon : ∀ e ∈ es, ∀ q, e.lockProc = some q → ps q)
    (hc : ∀ q, ¬ ps q → c.held q = 0) : LocksInOrder c es := by
  induction es generalizing c with
  | nil => trivial
  | cons e es ih =>
    obtain ⟨hr, hrs⟩ := h
    refine ⟨fun p locks he q i hi j hj => ?_, ih hrs (fun e' he' => hon e' (.tail _ he')) fun q hq => ?_⟩
    · subst he
      obtain ⟨-, -, hlow⟩ := hr
      by_cases hq : ps q
      · obtain ⟨j₀, hj₀⟩ := exists_isLowest (ne_zero_iff.mpr ⟨j, hj⟩)
        have hle : j₀ ≤ j := Nat.not_lt.mp fun hlt => by rw [hj₀.2 j hlt] at hj; cases hj
        have := hlow q hq i hi j₀ hj₀
        unfold LockLt at *; omega
      · rw [hc q hq] at hi; simp at hi
    · show (c.run [e]).held q = 0
      rw [run_held_of_lockProc fun e' he' he'' => hq (hon e (.head _) q
        (by rwa [List.mem_singleton.mp he'] at he''))]
      exact hc q hq

/-- `proc_safelock`, called holding locks only on the processes it is passed, calls
`erts_proc_lock` only above every lock its caller holds. -/
def SafelockInOrder (L : Layout) : Prop :=
  ∀ c aProc aHaveLocks aNeedLocks bProc bHaveLocks bNeedLocks isManaged,
    SafelockPre L c aProc aHaveLocks aNeedLocks bProc bHaveLocks bNeedLocks →
    (∀ q, ¬ (aProc = some q ∨ q = bProc) → c.held q = 0) →
    LocksInOrder c (procSafelock L isManaged aProc aHaveLocks aNeedLocks bProc bHaveLocks bNeedLocks)

theorem safelock_inOrder {L : Layout} : SafelockInOrder L := fun _ _ _ _ _ _ _ isManaged h hc =>
  locksInOrder_of_respects (procSafelock_spec h isManaged).1 (lockProc_procSafelock isManaged) hc

/-- `erts_pid2proc_opt`, called holding locks only on `c_p`, calls `erts_proc_lock` only above
every lock its caller holds. -/
def Pid2ProcInOrder (L : Layout) : Prop :=
  ∀ env c cP cPHaveLocks pid pidNeedLocks flags, P2PPre L c cP cPHaveLocks pid pidNeedLocks →
    (∀ q, cP ≠ some q → c.held q = 0) →
    LocksInOrder c (ertsPid2procOpt L env cP cPHaveLocks pid pidNeedLocks flags).1

section Pid2Proc

variable {L : Layout} {c : Caller} {cP : Option Nat} {cPHaveLocks pidNeedLocks : ErtsProcLocks}
  {pid : Nat}

/-- The lookup calls `erts_proc_lock` only in `proc_safelock`. -/
theorem locksInOrder_lookupLock (h : P2PPre L c cP cPHaveLocks (some pid) pidNeedLocks)
    (hc : ∀ q, cP ≠ some q → c.held q = 0) (env : P2PEnv) (flags : P2PFlags) :
    LocksInOrder c (lookupLock L env cP cPHaveLocks pid (pidNeedLocks &&& ~~~c.held pid) flags).calls := by
  have hinc : ∀ c' : Caller,
      (c'.run (if flags.incRefc then [Effect.incRefc pid] else [])).held = c'.held ∧
        LocksInOrder c' (if flags.incRefc then [Effect.incRefc pid] else []) := fun c' => by
    cases flags.incRefc <;> simp [LocksInOrder]
  have hpin : ∀ c' : Caller,
      (c'.run (if env.managed then [] else [Effect.incRefc pid, .unmanagedContinue])).held =
        c'.held ∧ LocksInOrder c' (if env.managed then [] else [Effect.incRefc pid, .unmanagedContinue]) :=
    fun c' => by cases env.managed <;> simp [LocksInOrder]
  rcases lookupLock_cases (L := L) env cP cPHaveLocks pid (pidNeedLocks &&& ~~~c.held pid) flags
    with ⟨-, hl⟩ | ⟨-, -, hl⟩ | ⟨-, -, -, hl⟩ | ⟨-, -, -, -, hl⟩ | ⟨-, -, -, -, hl⟩ <;> rw [hl]
  · trivial
  · exact (hinc c).2
  · exact ⟨nofun, (hinc _).2⟩
  · trivial
  · -- `proc_safelock`, from a caller holding what it held
    generalize (if flags.incRefc then [Effect.incRefc pid] else []) = I at hinc ⊢
    generalize (if env.managed then [] else [Effect.incRefc pid, .unmanagedContinue]) = pin at hpin ⊢
    have hc' : (c.run (I ++ pin)).held = c.held := by
      rw [Caller.run_append, (hpin _).1, (hinc _).1]
    rw [locksInOrder_append, locksInOrder_append]
    refine ⟨⟨(hinc c).2, (hpin _).2⟩, safelock_inOrder _ _ _ _ _ _ _ _ (h.safelockPre _ hc')
      fun q hq => ?_⟩
    rw [hc']; exact hc q fun e => hq (.inl e)

/-- The end of `erts_pid2proc_opt` calls no `erts_proc_lock`. -/
theorem locksInOrder_finishLookup {env : P2PEnv} {needLocks : ErtsProcLocks} {flags : P2PFlags}
    {l : Looked} (h : LocksInOrder c l.calls) :
    LocksInOrder c (finishLookup env needLocks flags l).1 := by
  have hdec : ∀ x : Option Nat, ∀ e ∈ onProc x (fun q => [Effect.decRefc q]), ∀ p locks,
      e ≠ .lock p locks := fun x => by cases x <;> simp [onProc]
  have hcont : ∀ e ∈ (if l.unmanaged then [Effect.unmanagedContinue] else []), ∀ p locks,
      e ≠ .lock p locks := by
    split <;> simp
  unfold finishLookup
  generalize (if l.unmanaged then [Effect.unmanagedContinue] else []) = K at hcont ⊢
  dsimp only
  split <;> (try split_ifs) <;>
  · rw [List.append_assoc, locksInOrder_append]
    refine ⟨h, locksInOrder_of_not_lock fun e he p locks hl => ?_⟩
    subst hl
    simp only [List.mem_append, List.mem_cons, reduceCtorEq, false_or] at he
    rcases he with he | he
    · exact hcont _ he p locks rfl
    · exact hdec _ _ he p locks rfl

theorem pid2proc_inOrder : Pid2ProcInOrder L := by
  intro env c cP cPHaveLocks pid pidNeedLocks flags h hc
  cases pid with
  | none => trivial
  | some pid =>
    unfold ertsPid2procOpt
    dsimp only
    rw [h.needLocks_eq]
    split_ifs
    · trivial
    · exact locksInOrder_of_not_lock (by simp)
    · trivial
    · exact locksInOrder_finishLookup (locksInOrder_lookupLock h hc env flags)

end Pid2Proc

/-- **Deadlock freedom by lock order**: in every reachable state of the system the waits-for
relation has no cycle; and `proc_safelock` and `erts_pid2proc_opt`, called holding locks only on
the processes they are passed, call `erts_proc_lock` only as `Guard` allows. -/
theorem deadlock_free {L : Layout} {c : Nat → Int} {creator : Nat → Nat} {g : Nat → St}
    (h : SysReachable L c creator g) : Acyclic g ∧ SafelockInOrder L ∧ Pid2ProcInOrder L :=
  ⟨acyclic (sysInv_reachable h), safelock_inOrder, pid2proc_inOrder⟩

/-- Thread `1` asks for lock `0` of process `0`, which its creator, thread `0`, holds: it sleeps
on the queue of the lock and waits for thread `0`. -/
theorem deadlock_free_waiting :
    ∃ g, SysReachable fiveLocks (fun _ => 0) (fun _ => 0) g ∧ WaitsFor g 1 0 ∧
      Acyclic g ∧ SafelockInOrder fiveLocks ∧ Pid2ProcInOrder fiveLocks := by
  have h : SysReachable fiveLocks (fun _ => 0) (fun _ => 0) _ :=
    .tail (.tail (.tail (.single ⟨0, .lock 1 1, _,
      ⟨fun _ => rfl, fun _ i h => by simp [ertsProcLockInit] at h⟩, rfl, rfl⟩)
      ⟨0, .run 1, _, trivial, rfl, rfl⟩) ⟨0, .run 1, _, trivial, rfl, rfl⟩)
      ⟨0, .run 1, _, trivial, rfl, rfl⟩
  exact ⟨_, h, ⟨0, 0, .inl ⟨[1], by decide, List.mem_singleton_self 1⟩, by decide⟩, deadlock_free h⟩

end ProcLock.Deadlock
