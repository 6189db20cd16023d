import Mathlib.Data.List.Chain
import Mathlib.Data.List.Nodup

/-! # Wait queues

The waiters on a lock are queued "in a circular double linked list; where `lck->queue[lock_ix]`
is the first waiter in queue, and `lck->queue[lock_ix]->prev` is the last". A waiter is the
thread-sleep event (`erts_tse_t`) of a thread; a thread waits on its own event, so events are
named by thread numbers, and `WaitQueues` holds the queue heads of one process with the `next` and
`prev` links of all events.

`Ring next prev hd l` says that `l` is the queue headed by `hd` as `check_queue` walks it: from
the head along `next`, each event once, back to the head, with `prev` undoing `next`. On such
rings `enqueue_waiter` appends (`lists_enqueueWaiter`) and `dequeue_waiter` removes the head
(`dequeueWaiter_eq`); both leave every ring that does not contain the events they relink as it
was (`Ring.frame`).

* `queues_refine_fifo`: the queues of a process, each a ring and no event on two of them,
  implement one FIFO queue per lock: `enqueue_waiter` of an event on no queue appends it, and
  `dequeue_waiter` of a non-empty queue returns its head and leaves the rest, `NULL` exactly when
  that was the only event; both relink no event outside the queue they work on. -/

namespace ProcLock.Queue

open Function

/-- The queue heads of one process and the links of the events. -/
structure WaitQueues where
  /-- `lck->queue[ix]`, `none` for `NULL`. -/
  queue : Nat → Option Nat
  /-- `tse->next` -/
  next : Nat → Nat
  /-- `tse->prev` -/
  prev : Nat → Nat

namespace WaitQueues

/-- `enqueue_waiter`: link `wtr` at the tail of queue `ix`. -/
def enqueueWaiter (q : WaitQueues) (ix wtr : Nat) : WaitQueues :=
  match q.queue ix with
  | none =>
    { queue := update q.queue ix (some wtr), next := update q.next wtr wtr,
      prev := update q.prev wtr wtr }
  | some hd =>
    let next1 := update q.next wtr hd
    let prev1 := update q.prev wtr (q.prev hd)
    { q with next := update next1 (prev1 wtr) wtr, prev := update prev1 hd wtr }

/-- `dequeue_waiter`: unlink the head of queue `ix` and return it; `none` on an empty queue, where
the code dereferences `NULL`. -/
def dequeueWaiter (q : WaitQueues) (ix : Nat) : Option (WaitQueues × Nat) :=
  match q.queue ix with
  | none => none
  | some wtr =>
    if q.next wtr = wtr then some ({ q with queue := update q.queue ix none }, wtr)
    else
      let prev1 := update q.prev (q.next wtr) (q.prev wtr)
      let next1 := update q.next (prev1 wtr) (q.next wtr)
      some ({ queue := update q.queue ix (some (q.next wtr)), next := next1, prev := prev1 }, wtr)

end WaitQueues

/-! ## Rings -/

/-- `b` follows `a`: `a->next == b` and `b->prev == a`. -/
def Linked (next prev : Nat → Nat) (a b : Nat) : Prop := next a = b ∧ prev b = a

instance (next prev : Nat → Nat) : DecidableRel (Linked next prev) := fun a b =>
  inferInstanceAs (Decidable (next a = b ∧ prev b = a))

/-- A chain of links, decided pair by pair (so that `decide` evaluates it). -/
instance decidableChainLinked (next prev : Nat → Nat) :
    ∀ l, Decidable (List.Chain' (Linked next prev) l)
  | [] => isTrue List.chain'_nil
  | [_] => isTrue (List.chain'_singleton _)
  | _ :: b :: l =>
    haveI := decidableChainLinked next prev (b :: l)
    decidable_of_iff _ List.chain'_cons.symm

/-- `l` is the ring headed by `hd`: `NULL` heads the empty queue, and otherwise `next` leads from
the head through `l`, each event once, back to the head. -/
def Ring (next prev : Nat → Nat) : Option Nat → List Nat → Prop
  | none, l => l = []
  | some hd, l => l.head? = some hd ∧ l.Nodup ∧ List.Chain' (Linked next prev) (l ++ [hd])

instance (next prev : Nat → Nat) : ∀ hd l, Decidable (Ring next prev hd l)
  | none, l => inferInstanceAs (Decidable (l = []))
  | some hd, l => inferInstanceAs
    (Decidable (l.head? = some hd ∧ l.Nodup ∧ List.Chain' (Linked next prev) (l ++ [hd])))

/-- Queue `ix` of `q` lists the events `l`. -/
def WaitQueues.Lists (q : WaitQueues) (ix : Nat) (l : List Nat) : Prop :=
  Ring q.next q.prev (q.queue ix) l

instance (q : WaitQueues) (ix : Nat) (l : List Nat) : Decidable (q.Lists ix l) :=
  inferInstanceAs (Decidable (Ring q.next q.prev (q.queue ix) l))

theorem chain'_frame {next prev next' prev' : Nat → Nat} :
    ∀ {l : List Nat}, List.Chain' (Linked next prev) l → (∀ a ∈ l.dropLast, next' a = next a) →
      (∀ b ∈ l.tail, prev' b = prev b) → List.Chain' (Linked next' prev') l
  | [], _, _, _ => List.chain'_nil
  | [a], _, _, _ => List.chain'_singleton a
  | a :: b :: l, h, hn, hp => by
    rw [List.chain'_cons] at h ⊢
    refine ⟨⟨(hn a (by simp)).trans h.1.1, (hp b (by simp)).trans h.1.2⟩,
      chain'_frame h.2 (fun x hx => hn x ?_) (fun x hx => hp x (List.mem_cons_of_mem _ hx))⟩
    rw [List.dropLast_cons₂]
    exact List.mem_cons_of_mem _ hx

/-- **Frame**: a ring is kept by any relinking of events outside it. -/
theorem Ring.frame {next prev next' prev' : Nat → Nat} {hd : Option Nat} {l : List Nat}
    (h : Ring next prev hd l) (hf : ∀ a ∈ l, next' a = next a ∧ prev' a = prev a) :
    Ring next' prev' hd l := by
  cases hd with
  | none => exact h
  | some hd =>
    obtain ⟨hh, hnd, hc⟩ := h
    have hmem : hd ∈ l := List.mem_of_mem_head? hh
    refine ⟨hh, hnd, chain'_frame hc (fun a ha => (hf a ?_).1) (fun b hb => (hf b ?_).2)⟩
    · simpa using ha
    · have := List.mem_of_mem_tail hb
      simp only [List.mem_append, List.mem_singleton] at this
      rcases this with h' | rfl
      · exact h'
      · exact hmem

theorem Ring.eq_nil_iff {next prev : Nat → Nat} {hd : Option Nat} {l : List Nat}
    (h : Ring next prev hd l) : l = [] ↔ hd = none := by
  cases hd with
  | none => simpa using h
  | some hd => simp only [reduceCtorEq, iff_false]; rintro rfl; simp [Ring] at h


theorem Ring.last_linked {next prev : Nat → Nat} {hd : Nat} {l : List Nat}
    (h : Ring next prev (some hd) l) : ∀ z ∈ l.getLast?, Linked next prev z hd :=
  fun z hz => (List.chain'_append.mp h.2.2).2.2 z hz hd rfl

theorem Ring.head_mem {next prev : Nat → Nat} {hd : Nat} {l : List Nat}
    (h : Ring next prev (some hd) l) : hd ∈ l := List.mem_of_mem_head? h.1

theorem Ring.nodup {next prev : Nat → Nat} {hd : Option Nat} {l : List Nat}
    (h : Ring next prev hd l) : l.Nodup := by
  cases hd with
  | none => rw [show l = [] from h]; exact List.nodup_nil
  | some hd => exact h.2.1

namespace WaitQueues

variable {q : WaitQueues} {ix wtr : Nat} {l : List Nat}

theorem enqueueWaiter_queue_of_ne {ix' : Nat} (h : ix' ≠ ix) :
    (q.enqueueWaiter ix wtr).queue ix' = q.queue ix' := by
  unfold enqueueWaiter; split <;> simp [update_noteq h]

/-- `enqueue_waiter` relinks only `wtr` and events already on the queue. -/
theorem enqueueWaiter_links (h : q.Lists ix l) :
    ∀ a, a ∉ wtr :: l → (q.enqueueWaiter ix wtr).next a = q.next a ∧
      (q.enqueueWaiter ix wtr).prev a = q.prev a := by
  intro a ha
  simp only [List.mem_cons, not_or] at ha
  unfold enqueueWaiter
  split
  · simp [update_noteq ha.1]
  · rename_i hd hq
    rw [Lists, hq] at h
    obtain ⟨z, hz⟩ : ∃ z, l.getLast? = some z := by
      cases hl : l.getLast? with
      | none => simp [List.getLast?_eq_none_iff.mp hl] at h; exact absurd h.1 (by simp)
      | some z => exact ⟨z, rfl⟩
    have hpz : q.prev hd = z := (h.last_linked z hz).2
    have hza : a ≠ z := fun e => ha.2 (e ▸ List.mem_of_getLast?_eq_some hz)
    have hha : a ≠ hd := fun e => ha.2 (e ▸ h.head_mem)
    simp [update_apply, ha.1, hpz, hza, hha]

/-- **`enqueue_waiter` appends** `wtr` to the queue it is linked on. -/
theorem lists_enqueueWaiter (h : q.Lists ix l) (hw : wtr ∉ l) :
    (q.enqueueWaiter ix wtr).Lists ix (l ++ [wtr]) := by
  unfold Lists enqueueWaiter
  split
  · rename_i hq
    rw [Lists, hq] at h
    simp only [Ring] at h
    subst h
    simp [Ring, Linked]
  · rename_i hd hq
    rw [Lists, hq] at h
    obtain ⟨hh, hnd, hc⟩ := h
    obtain ⟨z, hz⟩ : ∃ z, l.getLast? = some z := by
      cases hl : l.getLast? with
      | none => simp [List.getLast?_eq_none_iff.mp hl] at hh
      | some z => exact ⟨z, rfl⟩
    have hl : l = l.dropLast ++ [z] := (List.dropLast_append_getLast? z hz).symm
    have hpz : q.prev hd = z := (List.chain'_append.mp hc).2.2 z hz hd rfl |>.2
    have hzw : z ≠ wtr := fun e => hw (e ▸ List.mem_of_getLast?_eq_some hz)
    have hhw : hd ≠ wtr := fun e => hw (e ▸ List.mem_of_mem_head? hh)
    simp only [hq, Ring]
    refine ⟨by cases l with | nil => simp at hh | cons x t => simpa using hh, List.nodup_append.mpr ⟨hnd, by simp, by simpa using hw⟩, ?_⟩
    rw [List.append_assoc, List.singleton_append, List.chain'_append]
    refine ⟨chain'_frame (List.chain'_append.mp hc).1 (fun a ha => ?_) (fun b hb => ?_), ?_, ?_⟩
    · have hza : a ≠ z := by
        intro e; subst e; rw [hl] at hnd
        exact (List.nodup_append.mp hnd).2.2 ha (List.mem_singleton_self _)
      have hwa : a ≠ wtr := fun e => hw (e ▸ List.dropLast_subset l ha)
      simp [update_apply, hpz, hza, hwa]
    · have hhb : b ≠ hd := by
        intro e; subst e; cases l with
        | nil => simp at hb
        | cons x t => simp at hh; subst hh; exact (List.nodup_cons.mp hnd).1 hb
      have hwb : b ≠ wtr := fun e => hw (e ▸ List.mem_of_mem_tail hb)
      simp [update_apply, hhb, hwb]
    · simp [Linked, update_apply, hpz, hzw.symm, hhw.symm]
    · intro x hx y hy
      rw [hz] at hx; cases hx; cases hy
      simp [Linked, update_apply, hpz, hzw, hhw.symm]

theorem dequeueWaiter_eq_none : q.dequeueWaiter ix = none ↔ q.queue ix = none := by
  unfold dequeueWaiter; split
  · simpa
  · rename_i hq; simp only [hq, reduceCtorEq, iff_false]; split <;> simp

/-- **`dequeue_waiter` removes the head** of a non-empty queue, relinking only events on it. -/
theorem dequeueWaiter_eq {w : Nat} (h : q.Lists ix (w :: l)) :
    ∃ q', q.dequeueWaiter ix = some (q', w) ∧ q'.Lists ix l ∧
      (∀ ix', ix' ≠ ix → q'.queue ix' = q.queue ix') ∧
      (∀ a, a ∉ w :: l → q'.next a = q.next a ∧ q'.prev a = q.prev a) := by
  unfold Lists at h
  obtain ⟨hd, hq⟩ : ∃ hd, q.queue ix = some hd := by
    cases hq : q.queue ix with
    | none => rw [hq] at h; simp [Ring] at h
    | some hd => exact ⟨hd, rfl⟩
  rw [hq] at h
  obtain ⟨hh, hnd, hc⟩ := h
  simp only [List.head?_cons, Option.some.injEq] at hh
  subst hh
  unfold dequeueWaiter
  rw [hq]
  dsimp only
  cases l with
  | nil =>
    have hn : q.next w = w := (by simpa [Linked] using hc : _ ∧ _).1
    refine ⟨{ q with queue := update q.queue ix none }, by rw [if_pos hn], by simp [Lists, Ring],
      fun ix' h' => by simp [update_noteq h'], fun a _ => ⟨rfl, rfl⟩⟩
  | cons b r =>
    rw [List.cons_append, List.chain'_cons'] at hc
    obtain ⟨hwb', hc⟩ := hc
    obtain ⟨hwb, hbw⟩ : Linked q.next q.prev w b := hwb' b (by simp)
    obtain ⟨hnw, hnd⟩ := List.nodup_cons.mp hnd
    have hbne : b ≠ w := fun e => hnw (e ▸ List.mem_cons_self b r)
    obtain ⟨z, hz⟩ : ∃ z, (b :: r).getLast? = some z := ⟨_, List.getLast?_eq_getLast _ (by simp)⟩
    have hzmem : z ∈ b :: r := List.mem_of_getLast?_eq_some hz
    have hzw : Linked q.next q.prev z w := (List.chain'_append.mp hc).2.2 z hz w rfl
    have hzne : z ≠ w := fun e => hnw (e ▸ hzmem)
    rw [if_neg (by rw [hwb]; exact hbne)]
    simp only [hwb]
    refine ⟨_, rfl, ?_, fun ix' h' => by simp [update_noteq h'], fun a ha => ?_⟩
    · simp only [Lists, update_same, Ring, List.head?_cons, true_and]
      refine ⟨hnd, ?_⟩
      rw [List.chain'_append]
      refine ⟨chain'_frame (List.chain'_append.mp hc).1 (fun a ha => ?_) (fun c hc' => ?_),
        List.chain'_singleton _, fun x hx y hy => ?_⟩
      · have hl : b :: r = (b :: r).dropLast ++ [z] := (List.dropLast_append_getLast? z hz).symm
        have haz : a ≠ z := by
          intro e; subst e; rw [hl] at hnd
          exact (List.nodup_append.mp hnd).2.2 ha (List.mem_singleton_self _)
        simp [update_apply, hwb, hzw.2, hbne.symm, haz]
      · have hcb : c ≠ b := fun e => (List.nodup_cons.mp hnd).1 (e ▸ hc')
        simp [update_apply, hwb, hcb]
      · rw [hz] at hx; cases hx; cases hy
        simp [Linked, update_apply, hwb, hzw.2, hbne.symm]
    · have haz : a ≠ z := fun e => ha (e ▸ List.mem_cons_of_mem w hzmem)
      simp only [List.mem_cons, not_or] at ha
      simp [update_apply, hzw.2, hbne.symm, haz, ha.2.1]

end WaitQueues

/-- **A queue lists one ring**: the head and `next` determine it. -/
theorem Ring.unique {next prev : Nat → Nat} {hd : Option Nat} {l l' : List Nat}
    (h : Ring next prev hd l) (h' : Ring next prev hd l') : l = l' := by
  cases hd with
  | none => exact h.trans h'.symm
  | some hd =>
    obtain ⟨hh, hnd, hc⟩ := h
    obtain ⟨hh', hnd', hc'⟩ := h'
    cases l with
    | nil => simp at hh
    | cons x t =>
      cases l' with
      | nil => simp at hh'
      | cons x' t' =>
        simp only [List.head?_cons, Option.some.injEq] at hh hh'
        subst hh hh'
        congr 1
        exact chain_next_unique (List.nodup_cons.mp hnd).1 (List.nodup_cons.mp hnd').1
          (by simpa using hc) (by simpa using hc')
where
  chain_next_unique {e : Nat} : ∀ {x : Nat} {t t' : List Nat}, e ∉ t → e ∉ t' →
      List.Chain (Linked next prev) x (t ++ [e]) → List.Chain (Linked next prev) x (t' ++ [e]) →
      t = t'
    | _, [], [], _, _, _, _ => rfl
    | _, [], y :: _, _, he', hc, hc' => by
      simp only [List.nil_append, List.chain_cons, List.cons_append] at hc hc'
      exact absurd (hc.1.1.symm.trans hc'.1.1 ▸ List.mem_cons_self y _) he'
    | _, y :: _, [], he, _, hc, hc' => by
      simp only [List.nil_append, List.chain_cons, List.cons_append] at hc hc'
      exact absurd (hc'.1.1.symm.trans hc.1.1 ▸ List.mem_cons_self y _) he
    | _, y :: t, y' :: t', he, he', hc, hc' => by
      simp only [List.chain_cons, List.cons_append] at hc hc'
      have hy : y = y' := hc.1.1.symm.trans hc'.1.1
      subst hy
      rw [chain_next_unique (fun h => he (List.mem_cons_of_mem _ h))
        (fun h => he' (List.mem_cons_of_mem _ h)) hc.2 hc'.2]

/-! ## The queues as FIFO queues -/

/-- `enqueue_waiter` on the FIFO queues it implements: `wtr` joins the tail of queue `ix`. -/
def fifoEnqueue (qs : Nat → List Nat) (ix wtr : Nat) : Nat → List Nat :=
  update qs ix (qs ix ++ [wtr])

/-- `dequeue_waiter` on the FIFO queues: the head of queue `ix` leaves it; `none` on an empty
queue. -/
def fifoDequeue (qs : Nat → List Nat) (ix : Nat) : Option ((Nat → List Nat) × Nat) :=
  match qs ix with
  | [] => none
  | w :: l => some (update qs ix l, w)

/-- The wait queues `q` implement the FIFO queues `qs`: queue `ix` is the ring listing `qs ix`,
and no event is on two queues. -/
structure Abstracts (q : WaitQueues) (qs : Nat → List Nat) : Prop where
  lists : ∀ ix, q.Lists ix (qs ix)
  disj : ∀ ix ix' w, w ∈ qs ix → w ∈ qs ix' → ix = ix'

theorem mem_update_append {qs : Nat → List Nat} {n w a x : Nat} :
    a ∈ update qs n (qs n ++ [w]) x ↔ a ∈ qs x ∨ (x = n ∧ a = w) := by
  by_cases hx : x = n
  · subst hx; simp
  · simp [update_noteq hx, hx]

section Fifo

variable {q : WaitQueues} {qs : Nat → List Nat} {ix wtr : Nat}

/-- `enqueue_waiter` of an event on no queue simulates `fifoEnqueue`. -/
theorem abstracts_enqueue (h : Abstracts q qs) (hw : ∀ ix', wtr ∉ qs ix') :
    Abstracts (q.enqueueWaiter ix wtr) (fifoEnqueue qs ix wtr) where
  lists b := by
    by_cases hb : b = ix
    · subst hb; simpa [fifoEnqueue] using WaitQueues.lists_enqueueWaiter (h.lists b) (hw b)
    · rw [fifoEnqueue, update_noteq hb]
      unfold WaitQueues.Lists
      rw [WaitQueues.enqueueWaiter_queue_of_ne hb]
      refine (h.lists b).frame fun a ha => WaitQueues.enqueueWaiter_links (h.lists ix) a ?_
      simp only [List.mem_cons, not_or]
      exact ⟨fun e => hw b (e ▸ ha), fun ha' => hb (h.disj b ix a ha ha')⟩
  disj b c a hb hc := by
    rw [fifoEnqueue, mem_update_append] at hb hc
    rcases hb with hb | ⟨rfl, rfl⟩ <;> rcases hc with hc | ⟨hc, ha⟩
    · exact h.disj b c a hb hc
    · exact absurd (ha ▸ hb) (hw b)
    · exact absurd hc (hw c)
    · exact hc.symm

/-- `dequeue_waiter` of a non-empty queue simulates `fifoDequeue`, relinking only events of that
queue. -/
theorem abstracts_dequeue {w : Nat} {l : List Nat} (h : Abstracts q qs) (hq : qs ix = w :: l) :
    ∃ q', q.dequeueWaiter ix = some (q', w) ∧ Abstracts q' (update qs ix l) ∧
      ∀ a, a ∉ qs ix → q'.next a = q.next a ∧ q'.prev a = q.prev a := by
  obtain ⟨q', hd, hl, hqo, hlk⟩ := WaitQueues.dequeueWaiter_eq (hq ▸ h.lists ix)
  have hsub : ∀ b a, a ∈ update qs ix l b → a ∈ qs b := fun b a ha => by
    by_cases hb : b = ix
    · subst hb; rw [update_same] at ha; rw [hq]; exact List.mem_cons_of_mem w ha
    · rwa [update_noteq hb] at ha
  refine ⟨q', hd, ⟨fun b => ?_, fun b c a hb hc => h.disj b c a (hsub b a hb) (hsub c a hc)⟩,
    fun a ha => hlk a (hq ▸ ha)⟩
  by_cases hb : b = ix
  · subst hb; rw [update_same]; exact hl
  · rw [update_noteq hb]
    unfold WaitQueues.Lists
    rw [hqo b hb]
    refine (h.lists b).frame fun a ha => hlk a ?_
    rw [← hq]; exact fun ha' => hb (h.disj b ix a ha ha')

/-- **The wait queues refine FIFO queues**: on queues that implement the FIFO queues `qs`,
`enqueue_waiter` of an event on no queue appends it, relinking only it and the events of its queue;
`dequeue_waiter` fails exactly on an empty queue, and otherwise returns the head and leaves the rest
of its queue, `NULL` exactly when the head was alone, relinking only events of that queue. The
other queues keep their events and their links. -/
theorem queues_refine_fifo (h : Abstracts q qs) :
    (∀ ix wtr, (∀ ix', wtr ∉ qs ix') →
      Abstracts (q.enqueueWaiter ix wtr) (fifoEnqueue qs ix wtr) ∧
        ∀ a, a ∉ wtr :: qs ix → (q.enqueueWaiter ix wtr).next a = q.next a ∧
          (q.enqueueWaiter ix wtr).prev a = q.prev a) ∧
    (∀ ix, q.dequeueWaiter ix = none ↔ fifoDequeue qs ix = none) ∧
    ∀ ix qs' w, fifoDequeue qs ix = some (qs', w) →
      ∃ q', q.dequeueWaiter ix = some (q', w) ∧ Abstracts q' qs' ∧
        (q'.queue ix = none ↔ qs ix = [w]) ∧
        ∀ a, a ∉ qs ix → q'.next a = q.next a ∧ q'.prev a = q.prev a := by
  refine ⟨fun ix wtr hw => ⟨abstracts_enqueue h hw, WaitQueues.enqueueWaiter_links (h.lists ix)⟩,
    fun ix => ?_, fun ix qs' w hd => ?_⟩
  · rw [WaitQueues.dequeueWaiter_eq_none, ← (h.lists ix).eq_nil_iff, fifoDequeue]
    cases qs ix <;> simp
  · unfold fifoDequeue at hd
    split at hd
    · cases hd
    · rename_i l hq
      obtain ⟨rfl, rfl⟩ := Prod.mk.inj (Option.some.inj hd)
      obtain ⟨q', hq', ha, hlk⟩ := abstracts_dequeue h hq
      refine ⟨q', hq', ha, ?_, hlk⟩
      rw [← (ha.lists ix).eq_nil_iff, update_same, hq]
      simp

/-- Two waiters on queue `0`: the second is appended at the tail of the first's ring, and
`dequeue_waiter` returns the first and leaves the second at the head. -/
theorem queues_refine_fifo_two :
    Abstracts ((WaitQueues.enqueueWaiter ⟨fun _ => none, id, id⟩ 0 1).enqueueWaiter 0 2)
        (fifoEnqueue (fifoEnqueue (fun _ => []) 0 1) 0 2) ∧
      ∃ q', ((WaitQueues.enqueueWaiter ⟨fun _ => none, id, id⟩ 0 1).enqueueWaiter 0 2).dequeueWaiter 0
          = some (q', 1) ∧
        Abstracts q' (update (fifoEnqueue (fifoEnqueue (fun _ => []) 0 1) 0 2) 0 [2]) ∧
        q'.queue 0 ≠ none := by
  have h0 : Abstracts ⟨fun _ => none, id, id⟩ (fun _ => []) :=
    ⟨fun _ => rfl, fun _ _ _ h => absurd h (List.not_mem_nil _)⟩
  have h1 := ((queues_refine_fifo h0).1 0 1 fun _ h => absurd h (List.not_mem_nil _)).1
  have h2 := ((queues_refine_fifo h1).1 0 2 fun _ h => by
    rw [fifoEnqueue, mem_update_append] at h; simp at h).1
  obtain ⟨q', hd, ha, hn, -⟩ := (queues_refine_fifo h2).2.2 0 _ 1 rfl
  exact ⟨h2, q', hd, ha, fun h => absurd (hn.mp h) (by decide)⟩

end Fifo

end ProcLock.Queue
