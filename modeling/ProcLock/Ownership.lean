import ProcLock.Step

/-! # The table of owners the lock of a process implements

What the lock of a process is for, said without the lock word, the queues or the pix lock: a table
of the owners of the locks `0 .. ERTS_PROC_LOCK_MAX_BIT` of the process, each lock owned by one
thread at most (`Owners`, which carries it). Three moves change the table (`Move`), each labelled
with the action of a step and the program counter of the thread taking it: a step that `Acquires`
takes locks no thread owns, for its caller on the fast paths and in the spin loop, for the waiter
it runs for in `try_aquire`; `erts_proc_unlock` releases locks its caller owns among those it
unlocks; `transfer_locks` hands a lock of the thread running it to another thread.

* `Move.keeps`: a move labelled with an action of one thread takes no lock from any other thread;
* `move_step`: each step of the machine from a state satisfying the invariant is a move of the
  table of its owners, labelled with its action and the program counter of its thread: the fast
  paths of `erts_proc_lock` and `erts_proc_raw_trylock__`, the compare-and-exchange of the spin
  loop and the `bor` of `try_aquire` acquire locks whose lock flag was clear; the unlock fast path
  releases the locks of its caller whose wait flag is clear; `transfer_locks` hands a lock of the
  thread running it to the head of the lock's queue; every other step leaves the table alone;
* `owners_refine`: along every sequence of actions from `erts_proc_lock_init`, the owners move as
  the table allows, each step by a move labelled with it (`runLabels`);
* `keeps_locks`: so over any run, a thread that takes no step keeps every lock it owns. -/

namespace ProcLock.Ownership

open Function ProcLock.Bits ProcLock.Queue ProcLock.Machine ProcLock.Invariant ProcLock.Frame
open ProcLock.Transfer ProcLock.Step

/-! ## The table -/

/-- The owners of the locks of a process: the locks each thread owns, all of them locks of the
process, each owned by one thread at most. -/
@[ext]
structure Owners (L : Layout) where
  held : Nat → ErtsProcLocks
  held_all : ∀ t, InAll L (held t)
  unique : ∀ b t u, (held t).getLsbD b → (held u).getLsbD b → t = u

variable {L : Layout}

/-- Bit `b` of the locks of `u` once those of `t` are `x`. -/
theorem getLsbD_update {held : Nat → ErtsProcLocks} {t u : Nat} {x : ErtsProcLocks} {b : Nat} :
    (update held t x u).getLsbD b = if u = t then x.getLsbD b else (held u).getLsbD b := by
  by_cases h : u = t
  · subst h; simp
  · simp [h]

/-- Taking locks away from threads keeps one owner per lock. -/
theorem unique_of_le {held held' : Nat → ErtsProcLocks}
    (hu : ∀ b t u, (held t).getLsbD b → (held u).getLsbD b → t = u)
    (hle : ∀ t b, (held' t).getLsbD b → (held t).getLsbD b) :
    ∀ b t u, (held' t).getLsbD b → (held' u).getLsbD b → t = u :=
  fun b t u ht hu' => hu b t u (hle t b ht) (hle u b hu')

namespace Owners

/-- The table of `erts_proc_lock_init`: `creator` owns every lock. -/
def init (L : Layout) (creator : Nat) : Owners L where
  held t := if t = creator then L.all else 0
  held_all t := by
    show InAll L (if t = creator then L.all else 0)
    split_ifs
    · exact inAll_all
    · intro i hi; simp at hi
  unique b t u ht hu := by
    change (if t = creator then L.all else 0).getLsbD b at ht
    change (if u = creator then L.all else 0).getLsbD b at hu
    split_ifs at ht hu <;> simp_all

/-- Locks no thread owns. -/
def Free (o : Owners L) (m : ErtsProcLocks) : Prop :=
  ∀ u b, m.getLsbD b → (o.held u).getLsbD b = false

/-- `t` acquires the locks `m` of the process, which no thread owns. -/
def acquire (o : Owners L) (t : Nat) (m : ErtsProcLocks) (hm : InAll L m) (hfree : o.Free m) :
    Owners L where
  held := update o.held t (o.held t ||| m)
  held_all u i hi := by
    rw [getLsbD_update] at hi
    split_ifs at hi with hu
    · rw [BitVec.getLsbD_or, Bool.or_eq_true] at hi
      exact hi.elim (o.held_all t i) (hm i)
    · exact o.held_all u i hi
  unique b u v hu hv := by
    -- a lock `t` acquires was owned by no thread
    have hgain : ∀ x y, (update o.held t (o.held t ||| m) x).getLsbD b → x = t →
        (o.held y).getLsbD b → y = t := fun x y hx hxt hy => by
      rw [hxt, update_same, BitVec.getLsbD_or, Bool.or_eq_true] at hx
      rcases hx with hx | hx
      · exact o.unique b y t hy hx
      · rw [hfree y b hx] at hy; cases hy
    by_cases hut : u = t <;> by_cases hvt : v = t
    · rw [hut, hvt]
    · rw [update_noteq hvt] at hv; exact absurd (hgain u v hu hut hv) hvt
    · rw [update_noteq hut] at hu; exact absurd (hgain v u hv hvt hu) hut
    · rw [update_noteq hut] at hu; rw [update_noteq hvt] at hv; exact o.unique b u v hu hv

/-- `t` releases the locks `m`. -/
def release (o : Owners L) (t : Nat) (m : ErtsProcLocks) : Owners L where
  held := update o.held t (o.held t &&& ~~~m)
  held_all u i hi := by
    rw [getLsbD_update] at hi
    split_ifs at hi with hu
    · exact o.held_all t i (by simp_all)
    · exact o.held_all u i hi
  unique := unique_of_le o.unique fun u b h => by
    rw [getLsbD_update] at h
    split_ifs at h with hu
    · subst hu; simp_all
    · exact h

/-- `t` hands its lock `b` to `w`. -/
def handOver (o : Owners L) (t w b : Nat) (hb : (o.held t).getLsbD b) (hw : w ≠ t) : Owners L where
  held := update (update o.held t (o.held t &&& ~~~lockBit b)) w (o.held w ||| lockBit b)
  held_all u i hi := by
    have hb32 : b < 32 := lt_of_le_maxBit (o.held_all t b hb)
    rcases (getLsbD_handOver o.held hb32 hw u i).mp hi with ⟨hi, -⟩ | ⟨-, rfl⟩
    · exact o.held_all u i hi
    · exact o.held_all t i hb
  unique i u v hu hv := by
    have hb32 : b < 32 := lt_of_le_maxBit (o.held_all t b hb)
    rw [getLsbD_handOver o.held hb32 hw] at hu hv
    rcases hu with ⟨hu, hut⟩ | ⟨rfl, rfl⟩ <;> rcases hv with ⟨hv, hvt⟩ | ⟨rfl, hvb⟩
    · exact o.unique i u v hu hv
    · -- `u` owned `b` with `t`: it is `t`, which gave it away
      obtain rfl := o.unique i u t hu (hvb ▸ hb)
      exact absurd ⟨rfl, hvb⟩ hut
    · obtain rfl := o.unique i v t hv hb
      exact absurd ⟨rfl, rfl⟩ hvt
    · rfl

end Owners

/-! ## The moves -/

/-- Which steps acquire locks, and for whom, told by the action and the program counter of the
thread taking it: the fast paths of `erts_proc_lock` and `erts_proc_raw_trylock__`, called outside
the lock code, take the locks asked for, for their caller; the compare-and-exchange of the spin
loop takes locks its thread still needs; the `bor` of `try_aquire` at `lock_no` takes that lock for
the waiter it runs for, the thread itself in `wait_for_locks`, the woken waiter in
`transfer_locks`. -/
inductive Acquires : Act → Pc → Nat → ErtsProcLocks → Prop
  | lock (t : Nat) (locks : ErtsProcLocks) : Acquires (.lock t locks) .idle t locks
  | trylock (t : Nat) (locks : ErtsProcLocks) : Acquires (.trylock t locks) .idle t locks
  | spin (t : Nat) (locks need o : ErtsProcLocks) (k k' : Int) (m : ErtsProcLocks)
      (hm : ∀ b, m.getLsbD b → need.getLsbD b) :
      Acquires (.run t) (.lockFailed locks need o k k') t m
  | tryAquire (r : Nat) (ret : Ret) (wtr : Nat) (got : ErtsProcLocks) (n : Nat) :
      Acquires (.run r) (.tryAquire ret wtr got n) wtr (lockBit n)

/-- The moves of the table a step makes, labelled with its action and the program counter of the
thread taking it. -/
inductive Move (L : Layout) : Act × Pc → Owners L → Owners L → Prop
  /-- Nothing changes hands. -/
  | stay (l : Act × Pc) (o : Owners L) : Move L l o o
  /-- A step that `Acquires` takes locks no thread owns. -/
  | acquire (a : Act) (p : Pc) (o : Owners L) (t : Nat) (m : ErtsProcLocks) (hm : InAll L m)
      (hfree : o.Free m) (ha : Acquires a p t m) : Move L (a, p) o (o.acquire t m hm hfree)
  /-- `erts_proc_unlock(t, locks)`, called outside the lock code, releases locks of `t` among
  `locks`. -/
  | release (t : Nat) (locks m : ErtsProcLocks) (o : Owners L)
      (hm : ∀ b, m.getLsbD b → locks.getLsbD b ∧ (o.held t).getLsbD b) :
      Move L (.unlock t locks, .idle) o (o.release t m)
  /-- `transfer_locks` of `t` at `lock_no = b` hands its lock `b` to another thread `w`. -/
  | handOver (t w b : Nat) (tr U : ErtsProcLocks) (wake : List Nat) (o : Owners L)
      (hb : (o.held t).getLsbD b) (hw : w ≠ t) :
      Move L (.run t, .transferLocks tr b U wake) o (o.handOver t w b hb hw)

/-- The moves of the table along a sequence of labelled steps, one for each. -/
inductive Moves (L : Layout) : List (Act × Pc) → Owners L → Owners L → Prop
  | nil (o : Owners L) : Moves L [] o o
  | cons {l : Act × Pc} {ls : List (Act × Pc)} {o o₁ o' : Owners L} :
      Move L l o o₁ → Moves L ls o₁ o' → Moves L (l :: ls) o o'

variable {l : Act × Pc} {o o' : Owners L} {u b : Nat}

/-- Where `transfer_locks` hands over a lock, it owns the lock, and the head of the lock's queue
is another thread. -/
theorem transfer_dequeue {s : St} {qs : Nat → List Nat} (hi : Inv L s qs) {t n : Nat}
    {tr U : ErtsProcLocks} {wake : List Nat} (hpc : s.pc t = .transferLocks tr n U wake)
    (hbit : tr.getLsbD n) {wq : WaitQueues} {w : Nat} (hdq : s.wq.dequeueWaiter n = some (wq, w)) :
    (s.held t).getLsbD n ∧ w ≠ t := by
  obtain ⟨-, htr⟩ : ThreadInv L s qs t (.transferLocks tr n U wake) := hpc ▸ hi.threads t
  obtain ⟨hown, -, hne⟩ := htr.ahead n hbit le_rfl
  obtain ⟨w', l, hqn⟩ := List.exists_cons_of_ne_nil hne
  obtain ⟨wq', hdq', -, -⟩ := queueInv_dequeue hi.queues hqn
  obtain ⟨-, rfl⟩ := Prod.mk.inj (Option.some.inj (hdq'.symm.trans hdq))
  refine ⟨hown, fun e => ?_⟩
  -- the head of a queue sleeps, and `t` runs `transfer_locks`
  have := (hi.places.placed w' (.inl ⟨n, hqn ▸ List.mem_cons_self w' l⟩)).1
  rw [e, hpc] at this; exact this

/-- The table of the owners of a state of the machine. -/
def ownersOf (s : St) (h : OwnInv L s.flags s.held) : Owners L := ⟨s.held, h.held_all, h.held_unique⟩

section Steps

variable {c : Nat → Int} {s s' : St} {qs : Nat → List Nat}
variable (h : OwnInv L s.flags s.held)
include h

/-- Locks whose lock flag is clear are free. -/
theorem free_of_flags {m : ErtsProcLocks} (hm : ∀ b, m.getLsbD b → s.flags.getLsbD b = false) :
    (ownersOf s h).Free m := by
  intro u b hb
  by_cases hle : b ≤ L.maxBit
  · exact Bool.eq_false_iff.mpr fun hu => by
      have := (h.flag_iff b hle).mpr ⟨u, hu⟩
      rw [hm b hb] at this; cases this
  · exact getLsbD_of_inAll (h.held_all u) (by omega)

variable (h' : OwnInv L s'.flags s'.held)
include h'

/-- A step that moves no lock. -/
theorem move_stay (hheld : s'.held = s.held) : Move L l (ownersOf s h) (ownersOf s' h') := by
  rw [show ownersOf s' h' = ownersOf s h from Owners.ext hheld]
  exact .stay l _

/-- A step that `Acquires` for `t` locks whose lock flag was clear. -/
theorem move_acquire {a : Act} {p : Pc} {t : Nat} {m : ErtsProcLocks} (ha : Acquires a p t m)
    (hheld : s'.held = update s.held t (s.held t ||| m))
    (hm : ∀ b, m.getLsbD b → s.flags.getLsbD b = false) :
    Move L (a, p) (ownersOf s h) (ownersOf s' h') := by
  have hall : InAll L m := fun i hi => h'.held_all t i (by simp [hheld, hi])
  rw [show ownersOf s' h' = (ownersOf s h).acquire t m hall (free_of_flags h hm) from
    Owners.ext hheld]
  exact .acquire a p _ t m hall _ ha

/-- An iteration of the spin loop grabs locks whose lock flag it read clear, or moves none. -/
theorem move_lockFailedStep {t : Nat} {locks need o : ErtsProcLocks} {k k' : Int}
    (hs' : s' = lockFailedStep s t locks need o k k') :
    Move L (.run t, .lockFailed locks need o k k') (ownersOf s h) (ownersOf s' h') := by
  subst hs'
  rcases @lockFailedStep_cases s t locks need o k k' with
    ⟨-, hs⟩ | ⟨-, -, -, hs⟩ | ⟨-, -, -, hs⟩ | ⟨-, -, hcas, hs⟩ | ⟨-, -, -, hs⟩
  iterate 3 exact move_stay h h' (by rw [hs])
  · -- the compare-and-exchange succeeded: it grabbed needed locks, clear in the word it replaced
    refine move_acquire h h' (.spin t locks need o k k' _ fun b hb => ?_) (by rw [hs]) fun b hb => ?_
    all_goals rw [getLsbD_inOrderLocks, Bool.and_eq_true, decide_eq_true_eq] at hb
    · exact hb.1
    · exact Bool.eq_false_iff.mpr fun hf => hb.2 b le_rfl ⟨hcas ▸ hf, hb.1⟩
  · exact move_stay h h' (by rw [hs])

/-- An iteration of `try_aquire` takes a lock whose lock flag is clear for `wtr`, or moves none. -/
theorem move_tryAquireStep {t wtr n : Nat} {ret : Ret} {got : ErtsProcLocks}
    (hs' : s' = tryAquireStep L s t ret wtr got n) :
    Move L (.run t, .tryAquire ret wtr got n) (ownersOf s h) (ownersOf s' h') := by
  subst hs'
  by_cases hmax : L.maxBit < n
  · exact move_stay h h' (by rw [tryAquireStep_of_lt hmax, tryAquireDone_held])
  rcases @tryAquireStep_cases L s t wtr ret got n (Nat.le_of_not_lt hmax) with
    ⟨-, hs⟩ | ⟨-, -, hs⟩ | ⟨-, -, -, hs⟩ | ⟨-, -, hfl, hs⟩
  · exact move_stay h h' (by rw [hs])
  · exact move_stay h h' (by rw [hs, tryAquireDone_held])
  · exact move_stay h h' (by rw [hs, tryAquireDone_held])
  · -- the `bor` found lock `n` free
    refine move_acquire h h' (.tryAquire t ret wtr got n) (by rw [hs]) fun b hb => ?_
    obtain rfl : b = n := (by simpa using hb : b < 32 ∧ b = n).2
    exact hfl

/-- `transfer_locks` hands a lock of the thread running it to the head of the lock's queue, or
moves none. -/
theorem move_transferLocksStep (hi : Inv L s qs) {t n : Nat} {tr U : ErtsProcLocks}
    {wake : List Nat} (hpc : s.pc t = .transferLocks tr n U wake)
    (hst : transferLocksStep L s t tr n U wake = some s') :
    Move L (.run t, .transferLocks tr n U wake) (ownersOf s h) (ownersOf s' h') := by
  rcases @transferLocksStep_cases L s t n tr U wake with
    ⟨-, hs⟩ | ⟨-, -, hs⟩ | ⟨-, -, -, hs⟩ | ⟨-, hbit, wq, w, hdq, hs⟩ <;> rw [hs] at hst <;>
    cases hst
  · exact move_stay h h' rfl
  · exact move_stay h h' rfl
  -- the lock goes from `t`, which owns it, to the head `w` of its queue
  obtain ⟨hown, hwt⟩ := transfer_dequeue hi hpc hbit hdq
  rw [show ownersOf _ h' = (ownersOf s h).handOver t w n hown hwt from Owners.ext rfl]
  exact .handOver t w n tr U wake _ hown hwt

/-- The next action of the slow path of `t` is a move of the table. -/
theorem move_run (hi : Inv L s qs) {t : Nat} (hst : run L s t (s.pc t) = some s') :
    Move L (.run t, s.pc t) (ownersOf s h) (ownersOf s' h') := by
  cases hpc : s.pc t with
  | idle => rw [hpc] at hst; cases hst
  | lockFailed locks need o k k' =>
    rw [hpc] at hst; exact move_lockFailedStep h h' (Option.some.inj hst).symm
  | waitForLocks locks =>
    rw [hpc] at hst; simp only [run] at hst
    split_ifs at hst
    cases hst; exact move_stay h h' rfl
  | tryAquire ret wtr got n =>
    rw [hpc] at hst; exact move_tryAquireStep h h' (Option.some.inj hst).symm
  | tryAquireBand ret wtr got n =>
    rw [hpc] at hst; cases hst
    rcases @tryAquireBandStep_cases L s t wtr ret got n with ⟨-, hs⟩ | ⟨-, hs⟩
    · exact move_stay h h' (by rw [hs, tryAquireDone_held])
    · exact move_stay h h' (by rw [hs])
  | sleep locks phase =>
    rw [hpc] at hst; cases hst; exact move_stay h h' (sleepStep_wq_held s t locks phase).2
  | unlockFailed T =>
    rw [hpc] at hst; simp only [run] at hst
    split_ifs at hst
    cases hst; exact move_stay h h' rfl
  | transferLocks tr n U wake => rw [hpc] at hst; exact move_transferLocksStep h h' hi hpc hst
  | wakeClear wake =>
    cases wake with
    | nil => rw [hpc] at hst; cases hst
    | cons w wake => rw [hpc] at hst; cases hst; exact move_stay h h' rfl
  | wakeSet w wake => rw [hpc] at hst; cases hst; exact move_stay h h' rfl

end Steps

section Runs

variable {c : Nat → Int} {s s' : St} {qs : Nat → List Nat} {a : Act}

/-- **Each step is a move of the table** of its owners, labelled with its action and the program
counter of the thread taking it. -/
theorem move_step (hi : Inv L s qs) (hst : step L c s a = some s') (h' : OwnInv L s'.flags s'.held) :
    Move L (a, s.pc a.thread) (ownersOf s hi.own) (ownersOf s' h') := by
  have h := hi.own
  cases a with
  | lock t locks =>
    simp only [step] at hst
    split_ifs at hst with hg
    cases hst
    show Move L (.lock t locks, s.pc t) _ _
    rw [hg.1]
    by_cases h0 : s.flags = 0
    · exact move_acquire h h' (.lock t locks) (by simp only [ertsProcLock, if_pos h0])
        fun b _ => by simp [h0]
    · exact move_stay h h' (by simp only [ertsProcLock, if_neg h0])
  | trylock t locks =>
    simp only [step] at hst
    split_ifs at hst with hg
    cases hst
    show Move L (.trylock t locks, s.pc t) _ _
    rw [hg.1]
    by_cases h0 : s.flags &&& locks = 0
    · refine move_acquire h h' (.trylock t locks)
        (by simp only [ertsProcRawTrylock, if_pos h0]) fun b hb => ?_
      simpa [hb] using congrArg (·.getLsbD b) h0
    · exact move_stay h h' (by simp only [ertsProcRawTrylock, if_neg h0])
  | unlock t locks =>
    simp only [step] at hst
    split_ifs at hst with hg
    cases hst
    show Move L (.unlock t locks, s.pc t) _ _
    rw [hg.1]
    -- the locks it unlocks are its own; those with a wait flag stay with it for `transfer_locks`
    have hown : ∀ b, locks.getLsbD b → (s.held t).getLsbD b := fun b hb => by
      simpa [hb, BitVec.lt_of_getLsbD hb] using congrArg (·.getLsbD b) hg.2
    rw [show ownersOf _ h' = (ownersOf s h).release t
      (locks &&& ~~~((s.flags >>> L.waiterShift) &&& locks)) from Owners.ext rfl]
    exact .release t locks _ _ fun b hb => by
      rw [getLsbD_and_not, Bool.and_eq_true] at hb
      exact ⟨hb.1, hown b hb.1⟩
  | run t => exact move_run h h' hi hst

variable (L c) in
/-- The labels of the steps of a run: each action, with the program counter of its thread before
the step. -/
def runLabels : St → List Act → List (Act × Pc)
  | _, [] => []
  | s, a :: as => (a, s.pc a.thread) :: match step L c s a with
    | some s' => runLabels s' as
    | none => []

/-- Along a sequence of actions from a state satisfying the invariant, the owners move as the
table allows, each step by a move labelled with it. -/
theorem moves_runActs {as : List Act} (hi : Inv L s qs) (hrun : runActs L c s as = some s') :
    ∃ o', Moves L (runLabels L c s as) (ownersOf s hi.own) o' ∧ o'.held = s'.held := by
  induction as generalizing s qs with
  | nil => cases hrun; exact ⟨_, .nil _, rfl⟩
  | cons a as ih =>
    simp only [runActs, Option.bind_eq_some] at hrun
    obtain ⟨s₁, h₁, h₂⟩ := hrun
    obtain ⟨qs₁, hi₁, -⟩ := inv_step hi h₁
    obtain ⟨o', hm, ho'⟩ := ih hi₁ h₂
    refine ⟨o', ?_, ho'⟩
    rw [runLabels, h₁]
    exact .cons (move_step hi h₁ hi₁.own) hm

/-- **The lock of a process implements the table of its owners**: along every sequence of actions
from `erts_proc_lock_init`, the locks the threads own move as the table allows, each step by a
move labelled with its action and the program counter of its thread: an acquisition of locks no
thread owns by a fast path, the spin loop or `try_aquire`, a release by `erts_proc_unlock` of
locks its caller owns, a hand-over of a lock by `transfer_locks` of its owner, or nothing. -/
theorem owners_refine {creator : Nat} {as : List Act}
    (hrun : runActs L c (ertsProcLockInit L creator) as = some s) :
    ∃ o, Moves L (runLabels L c (ertsProcLockInit L creator) as) (Owners.init L creator) o ∧
      o.held = s.held := by
  obtain ⟨o, hm, ho⟩ := moves_runActs (inv_init L creator) hrun
  exact ⟨o, (show ownersOf _ (inv_init L creator).own = Owners.init L creator from
    Owners.ext rfl) ▸ hm, ho⟩

theorem owners_refine_handOver :
    ∃ s, runActs fiveLocks (fun _ => 0) (ertsProcLockInit fiveLocks 0)
        [.lock 1 3, .run 1, .run 1, .run 1, .unlock 0 1, .run 0, .run 0] = some s ∧
      ∃ o, Moves fiveLocks (runLabels fiveLocks (fun _ => 0) (ertsProcLockInit fiveLocks 0)
          [.lock 1 3, .run 1, .run 1, .run 1, .unlock 0 1, .run 0, .run 0])
        (Owners.init fiveLocks 0) o ∧ o.held = s.held :=
  ⟨_, rfl, owners_refine (c := fun _ => 0) rfl⟩

end Runs

end ProcLock.Ownership
