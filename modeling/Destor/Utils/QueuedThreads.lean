/- digest: A row of threads over blocking queues, with their sleep on condition variables, follows the
   row of threads that wait for nothing but items and room. -/

import Destor.Library.RelatedLists
import Destor.Library.ThreadChain
import Destor.Utils.SyncQueue

set_option autoImplicit false
set_option relaxedAutoImplicit false

namespace Destor

open Library.Outcome Library.Transition Library.ThreadChain Library.RelatedLists

variable {σ α : Type}

/-- A thread with the queue that it pops from, in which it is thread 1 and the thread in front of it,
which pushes to it, thread 0. A thread that waits is asleep until there is a broadcast: `popAsleep` on
`min_work`, `pushAsleep` on `max_work`. -/
structure QueuedThread (σ α : Type) where
  state : σ
  ended : Bool
  input : SyncState α
  popAsleep : Bool
  pushAsleep : Bool

/-- The threads from the first one on, and what the last one has pushed. -/
structure ThreadRow (σ α : Type) where
  threads : List (QueuedThread σ α)
  results : List α

/-- The thread at a place goes on up to the end of its critical section, `node` being where an element is
allocated, or it wakes without a broadcast. -/
inductive RowAction where
  | move (i node : Nat)
  | wakeUp (i : Nat)
deriving DecidableEq, Repr

/-- A thread failed, or followed a null pointer. -/
inductive RowFault where
  | stopped

namespace SyncState

/-- The next critical section of a thread in a call: the entry, or what follows a wait. -/
def resume (st : SyncState α) (thread : Nat) (entry : SyncAction α) (node : Nat) :
    Option (SyncState α) :=
  st.criticalSection (if (st.blocked thread).isSome then .wake thread node else entry)

/-- What the call of a thread did that has returned from it. -/
def outcome (st : SyncState α) (thread : Nat) : Option (SyncEvent α) :=
  if (st.blocked thread).isSome then none else st.history.getLast?

end SyncState

namespace QueuedThread

/-- `sync_queue_pop`; it broadcasts on `max_work` where it took an item. -/
def pop (t : QueuedThread σ α) (next : Option α → σ) : Option (QueuedThread σ α) := do
  let input ← t.input.resume 1 (.pop 1) 0
  return match input.outcome 1 with
    | some (.popped result) =>
        { t with
          state := next result
          input := input
          pushAsleep := t.pushAsleep && result.isNone }
    | _ => { t with input := input, popAsleep := true }

/-- `sync_queue_push` to the queue of a thread, and whether the call returned; it broadcasts on
`min_work` where it put the item. -/
def receive (t : QueuedThread σ α) (item : α) (node : Nat) : Option (Bool × QueuedThread σ α) := do
  let input ← t.input.resume 0 (.push 0 item node) node
  return match input.outcome 0 with
    | some (.pushed _) => (true, { t with input := input, popAsleep := false })
    | some _ => (true, { t with input := input })
    | none => (false, { t with input := input, pushAsleep := true })

/-- `sync_queue_term` of the queue of a thread; it broadcasts on `min_work`. -/
def terminate (t : QueuedThread σ α) : QueuedThread σ α :=
  { t with input := t.input.syncQueueTerm 0, popAsleep := false }

def sleepers (t : QueuedThread σ α) : Nat := t.popAsleep.toNat + t.pushAsleep.toNat

end QueuedThread

namespace ThreadRow

section Steps

variable (act : σ → Act σ α)

def terminateNext : List (QueuedThread σ α) → List (QueuedThread σ α)
  | [] => []
  | u :: threads => u.terminate :: threads

def carryOut (t : QueuedThread σ α) (threads : List (QueuedThread σ α)) (results : List α)
    (node : Nat) : Act σ α → Option (List (QueuedThread σ α) × List α)
  | .work next => some ({ t with state := next } :: threads, results)
  | .pop next => (t.pop next).map fun t => (t :: threads, results)
  | .push item next =>
      match threads with
      | [] => some ([{ t with state := next }], results ++ [item])
      | u :: threads => (u.receive item node).map fun r =>
          ((if r.1 then { t with state := next } else t) :: r.2 :: threads, results)
  | .halt => some ({ t with ended := true } :: terminateNext threads, results)
  | .fail => none

def move : Nat → List (QueuedThread σ α) → List α → Nat →
    Option (List (QueuedThread σ α) × List α)
  | _, [], _, _ => none
  | 0, t :: threads, results, node => carryOut t threads results node (act t.state)
  | i + 1, t :: threads, results, node =>
      (move i threads results node).map fun r => (t :: r.1, r.2)

def rouseFront : List (QueuedThread σ α) → List (QueuedThread σ α)
  | [] => []
  | u :: threads => { u with pushAsleep := false } :: threads

/-- The wait of a thread ends, whichever of its two queues it waits at. -/
def rouse : Nat → List (QueuedThread σ α) → List (QueuedThread σ α)
  | _, [] => []
  | 0, t :: threads => { t with popAsleep := false } :: rouseFront threads
  | i + 1, t :: threads => t :: rouse i threads

def step (row : ThreadRow σ α) : RowAction → Except RowFault (ThreadRow σ α)
  | .move i node =>
      match move act i row.threads row.results node with
      | some (threads, results) => .ok { threads := threads, results := results }
      | none => .error .stopped
  | .wakeUp i => .ok { row with threads := rouse i row.threads }

/-- A thread goes on that has not ended and is awake, and memory is allocated where none is in use. -/
def Admissible (row : ThreadRow σ α) : RowAction → Prop
  | .move i node => (∃ t ∈ row.threads[i]?, t.ended = false ∧ t.popAsleep = false) ∧
      ∀ u ∈ row.threads[i + 1]?, u.pushAsleep = false ∧ u.input.sq.queue.heap node = none
  | .wakeUp _ => True

def asleep : List (QueuedThread σ α) → Nat
  | [] => 0
  | t :: threads => t.sleepers + asleep threads

@[simp] theorem asleep_cons (t : QueuedThread σ α) (threads : List (QueuedThread σ α)) :
    asleep (t :: threads) = t.sleepers + asleep threads := rfl

end Steps

end ThreadRow

section Sections

variable {st : SyncState α} {items : List α} {thread : Nat}

/-- A thread that is in no call, or waits to pop, pops next. -/
theorem resume_pop (hblocked : ∀ b, st.blocked thread = some b → b = .pop) (node : Nat) :
    st.resume thread (.pop thread) node = st.syncQueuePop thread := by
  rw [SyncState.resume]
  cases hcall : st.blocked thread with
  | none => rfl
  | some b =>
      obtain rfl := hblocked b hcall
      rw [Option.isSome_some, if_pos rfl, SyncState.criticalSection, hcall]

/-- A thread that is in no call, or waits to push the item, pushes it next. -/
theorem resume_push {item : α} (hterm : st.sq.term = false)
    (hblocked : ∀ b, st.blocked thread = some b → b = .push item) (node : Nat) :
    st.resume thread (.push thread item node) node = st.pushLoop thread item node := by
  rw [SyncState.resume]
  cases hcall : st.blocked thread with
  | none =>
      rw [Option.isSome_none, if_neg Bool.false_ne_true, SyncState.criticalSection,
        SyncState.syncQueuePush, if_neg (by rw [hterm]; exact Bool.false_ne_true)]
  | some b =>
      obtain rfl := hblocked b hcall
      rw [Option.isSome_some, if_pos rfl, SyncState.criticalSection, hcall]

section Calls

variable (st : SyncState α) (thread : Nat) (queue : Queue α) (e : SyncEvent α) (call : Blocked α)

@[simp] theorem outcome_leave : (st.leave thread queue e).outcome thread = some e := by
  simp [SyncState.outcome, SyncState.leave]

@[simp] theorem outcome_wait : (st.wait thread call).outcome thread = none := by
  simp [SyncState.outcome, SyncState.wait]

@[simp] theorem blocked_leave : (st.leave thread queue e).blocked thread = none :=
  Function.update_self _ _ _

@[simp] theorem blocked_wait : (st.wait thread call).blocked thread = some call :=
  Function.update_self _ _ _

variable {thread} {other : Nat} (hne : other ≠ thread)

include hne

theorem blocked_leave_of_ne : (st.leave thread queue e).blocked other = st.blocked other :=
  Function.update_of_ne hne _ _

theorem blocked_wait_of_ne : (st.wait thread call).blocked other = st.blocked other :=
  Function.update_of_ne hne _ _

end Calls

theorem syncQueuePop_item {x : α} (h : st.sq.queue.Holds (x :: items)) (thread : Nat) :
    ∃ queue, queue.Holds items ∧
      st.syncQueuePop thread = some (st.leave thread queue (.popped (some x))) := by
  obtain ⟨queue, hpop, hholds⟩ := queuePop_holds h
  have hne : ¬ st.sq.queue.elemNum = 0 := by
    rw [h.size_eq]
    exact Nat.succ_ne_zero _
  exact ⟨queue, hholds, by rw [SyncState.syncQueuePop, if_neg hne, hpop]; rfl⟩

theorem syncQueuePop_nil (h : st.sq.queue.Holds []) (thread : Nat) :
    st.syncQueuePop thread = some (if st.sq.term then st.leave thread st.sq.queue (.popped none)
      else st.wait thread .pop) := by
  have hzero : st.sq.queue.elemNum = 0 := h.size_eq
  rw [SyncState.syncQueuePop, if_pos hzero]
  split <;> rfl

theorem pushLoop_full (h : st.sq.queue.Holds items) (hpos : 0 < st.sq.maxSize)
    (hfull : st.sq.maxSize ≤ items.length) (thread : Nat) (item : α) (node : Nat) :
    st.pushLoop thread item node = some (st.wait thread (.push item)) := by
  rw [SyncState.pushLoop, if_pos ⟨hpos, by rw [h.size_eq]; exact hfull⟩]

theorem pushLoop_room (h : st.sq.queue.Holds items) (hroom : (items.length : Int) < st.sq.maxSize)
    (thread : Nat) (item : α) {node : Nat} (hnode : st.sq.queue.heap node = none) :
    ∃ queue, queue.Holds (items ++ [item]) ∧
      st.pushLoop thread item node = some (st.leave thread queue (.pushed item)) := by
  obtain ⟨queue, hpush, hholds⟩ := queuePush_holds h hnode item
  have hnot : ¬ (0 < st.sq.maxSize ∧ st.sq.maxSize ≤ st.sq.queue.elemNum) := by
    rw [h.size_eq]
    omega
  exact ⟨queue, hholds, by rw [SyncState.pushLoop, if_neg hnot, hpush]; rfl⟩

end Sections

section Agreement

variable (act : σ → Act σ α)

/-- The items that a thread may be about to push: it is at such a push. -/
def QueuedThread.Offers (t : QueuedThread σ α) (item : α) : Prop :=
  t.ended = false ∧ ∃ next, act t.state = .push item next

/-- A thread and its queue are as in the row without sleep. `front` is what the thread in front of it may
be about to push: it waits in this queue for nothing else, and is asleep only while the queue is full.
The thread itself is asleep only while its queue is empty and has not ended. -/
structure QueuedThread.StandsFor (front : α → Prop) (t : QueuedThread σ α) (st : Stage σ α) : Prop where
  thread : st.thread = t.state
  ended : st.ended = t.ended
  closed : st.closed = t.input.sq.term
  holds : t.input.sq.queue.Holds st.queue
  maxSize : t.input.sq.maxSize = st.capacity
  bounded : st.queue.length ≤ st.capacity
  pushes : ∀ b, t.input.blocked 0 = some b → ∃ item, b = .push item ∧ front item
  pops : ∀ b, t.input.blocked 1 = some b → b = .pop
  popAsleep : t.popAsleep = true → (∃ next, act t.state = .pop next) ∧ st.queue = [] ∧ st.closed = false
  pushAsleep : t.pushAsleep = true → (∃ item, front item) ∧ st.queue.length = st.capacity

inductive RowsAgree : (α → Prop) → List (QueuedThread σ α) → List (Stage σ α) → Prop
  | nil (front : α → Prop) : RowsAgree front [] []
  | cons {front : α → Prop} {t : QueuedThread σ α} {st : Stage σ α} {threads : List (QueuedThread σ α)}
      {stages : List (Stage σ α)} (head : t.StandsFor act front st)
      (rest : RowsAgree (t.Offers act) threads stages) : RowsAgree front (t :: threads) (st :: stages)

variable {act} {front front' : α → Prop} {t u : QueuedThread σ α} {st : Stage σ α}
  {threads threads' : List (QueuedThread σ α)} {stages : List (Stage σ α)} {results results' : List α}
  {node : Nat}

theorem RowsAgree.of_no_push (h : RowsAgree act front threads stages) (hno : ∀ item, ¬ front item) :
    RowsAgree act front' threads stages := by
  cases h with
  | nil => exact .nil front'
  | cons head rest =>
      refine .cons { head with pushes := fun b hb => ?_, pushAsleep := fun h => ?_ } rest
      · obtain ⟨item, -, hitem⟩ := head.pushes b hb
        exact absurd hitem (hno item)
      · obtain ⟨⟨item, hitem⟩, -⟩ := head.pushAsleep h
        exact absurd hitem (hno item)

theorem not_offers_of_act {a : Act σ α} (hact : act t.state = a) (ha : ∀ item next, a ≠ .push item next)
    (item : α) : ¬ t.Offers act item := by
  rintro ⟨-, next, h⟩
  exact ha item next (hact.symm.trans h)

/-- A thread that is awake goes on to another state. -/
theorem QueuedThread.StandsFor.moved (h : t.StandsFor act front st) (hawake : t.popAsleep = false)
    (next : σ) :
    ({ t with state := next } : QueuedThread σ α).StandsFor act front { st with thread := next } :=
  { h with
    thread := rfl
    popAsleep := fun hasleep => absurd (hawake.symm.trans hasleep) Bool.false_ne_true }

section Pop

variable {next : Option α → σ}

private theorem pop_item {x : α} {queue : List α} (h : t.StandsFor act front st)
    (hqueue : st.queue = x :: queue) (next : Option α → σ) (hawake : t.popAsleep = false) :
    ∃ t', t.pop next = some t' ∧ t'.ended = t.ended ∧ t'.state = next (some x) ∧
      t'.StandsFor act front { st with thread := next (some x), queue := queue } ∧
      t.sleepers ≤ t'.sleepers + 1 := by
  obtain ⟨queue', hholds, hpop⟩ := syncQueuePop_item (hqueue ▸ h.holds) 1
  have hblocked := blocked_leave_of_ne t.input queue' (.popped (some x)) (Nat.zero_ne_one)
  refine ⟨{ t with
    state := next (some x)
    input := t.input.leave 1 queue' (.popped (some x))
    pushAsleep := false }, ?_, rfl, rfl, ?_, ?_⟩
  · rw [QueuedThread.pop, resume_pop h.pops, hpop]
    simp
  · exact {
      thread := rfl
      ended := h.ended
      closed := h.closed
      holds := hholds
      maxSize := h.maxSize
      bounded := by
        have hbounded := h.bounded
        rw [hqueue, List.length_cons] at hbounded
        exact Nat.le_of_succ_le hbounded
      pushes := fun b hb => h.pushes b (hblocked ▸ hb)
      pops := fun b hb => by simp at hb
      popAsleep := fun hasleep => absurd (hawake.symm.trans hasleep) Bool.false_ne_true
      pushAsleep := fun hasleep => absurd hasleep Bool.false_ne_true }
  · have hle := Bool.toNat_le t.pushAsleep
    simp only [QueuedThread.sleepers, hawake]
    omega

private theorem pop_null (h : t.StandsFor act front st) (hqueue : st.queue = [])
    (hclosed : st.closed = true) (next : Option α → σ) (hawake : t.popAsleep = false) :
    ∃ t', t.pop next = some t' ∧ t'.ended = t.ended ∧ t'.state = next none ∧
      t'.StandsFor act front { st with thread := next none } ∧ t.sleepers ≤ t'.sleepers + 1 := by
  have hpop := syncQueuePop_nil (hqueue ▸ h.holds) 1
  rw [← h.closed, hclosed, if_pos rfl] at hpop
  have hblocked := blocked_leave_of_ne t.input t.input.sq.queue (.popped none) (Nat.zero_ne_one)
  refine ⟨{ t with
    state := next none
    input := t.input.leave 1 t.input.sq.queue (.popped none) }, ?_, rfl, rfl, ?_, Nat.le_succ _⟩
  · rw [QueuedThread.pop, resume_pop h.pops, hpop]
    simp
  · exact { h with
      thread := rfl
      pushes := fun b hb => h.pushes b (hblocked ▸ hb)
      pops := fun b hb => by simp at hb
      popAsleep := fun hasleep => absurd (hawake.symm.trans hasleep) Bool.false_ne_true }

private theorem pop_waits (h : t.StandsFor act front st) (hqueue : st.queue = [])
    (hopen : st.closed = false) (hact : act t.state = .pop next) (hawake : t.popAsleep = false) :
    ∃ t', t.pop next = some t' ∧ t'.ended = t.ended ∧ t'.state = t.state ∧
      t'.StandsFor act front st ∧ t'.sleepers = t.sleepers + 1 := by
  have hpop := syncQueuePop_nil (hqueue ▸ h.holds) 1
  rw [← h.closed, hopen, if_neg Bool.false_ne_true] at hpop
  have hblocked := blocked_wait_of_ne t.input .pop (Nat.zero_ne_one)
  refine ⟨{ t with input := t.input.wait 1 .pop, popAsleep := true }, ?_, rfl, rfl, ?_, ?_⟩
  · rw [QueuedThread.pop, resume_pop h.pops, hpop]
    simp
  · exact { h with
      pushes := fun b hb => h.pushes b (hblocked ▸ hb)
      pops := fun b hb => by simpa using hb.symm
      popAsleep := fun _ => ⟨⟨next, hact⟩, hqueue, hopen⟩ }
  · simp only [QueuedThread.sleepers, hawake, Bool.toNat_true, Bool.toNat_false]
    omega

/-- A pop takes the first item, or finds that the queue has ended, or the thread falls asleep. -/
theorem QueuedThread.StandsFor.pop (h : t.StandsFor act front st) (hact : act t.state = .pop next)
    (hawake : t.popAsleep = false) (stages : List (Stage σ α)) (results : List α) :
    ∃ t', t.pop next = some t' ∧ t'.ended = t.ended ∧
      ((t'.state = t.state ∧ t'.StandsFor act front st ∧ t'.sleepers = t.sleepers + 1) ∨
        ∃ st', perform st stages results (.pop next) = some (st' :: stages, results) ∧
          t'.StandsFor act front st' ∧ t.sleepers ≤ t'.sleepers + 1) := by
  cases hqueue : st.queue with
  | cons x queue =>
      obtain ⟨t', hpop, hended, -, hstands, hsleepers⟩ := pop_item h hqueue next hawake
      exact ⟨t', hpop, hended, .inr ⟨_, by rw [perform, hqueue], hstands, hsleepers⟩⟩
  | nil =>
      cases hclosed : st.closed with
      | true =>
          obtain ⟨t', hpop, hended, -, hstands, hsleepers⟩ := pop_null h hqueue hclosed next hawake
          have hperform : perform st stages results (.pop next) =
              some ({ st with thread := next none } :: stages, results) := by
            rw [perform, hqueue]
            exact if_pos hclosed
          exact ⟨t', hpop, hended, .inr ⟨_, hperform, hstands, hsleepers⟩⟩
      | false =>
          obtain ⟨t', hpop, hended, hrest⟩ := pop_waits h hqueue hclosed hact hawake
          exact ⟨t', hpop, hended, .inl hrest⟩

end Pop

section Push

variable {next : σ} {item : α}

private theorem receive_room (h : u.StandsFor act front st) (hopen : st.closed = false)
    (hawake : u.pushAsleep = false) (hcall : ∀ b, u.input.blocked 0 = some b → b = .push item)
    (hroom : st.queue.length < st.capacity) (hnode : u.input.sq.queue.heap node = none) :
    ∃ u', u.receive item node = some (true, u') ∧ u'.state = u.state ∧ u'.ended = u.ended ∧
      (∀ front', u'.StandsFor act front' { st with queue := st.queue ++ [item] }) ∧
      u.sleepers ≤ u'.sleepers + 1 := by
  have hsize : (st.queue.length : Int) < u.input.sq.maxSize := by
    rw [h.maxSize]
    exact_mod_cast hroom
  obtain ⟨queue, hholds, hpush⟩ := pushLoop_room h.holds hsize 0 item hnode
  have hblocked := blocked_leave_of_ne u.input queue (.pushed item) (Nat.one_ne_zero)
  refine ⟨{ u with input := u.input.leave 0 queue (.pushed item), popAsleep := false }, ?_, rfl, rfl,
    fun front' => ?_, ?_⟩
  · rw [QueuedThread.receive, resume_push (h.closed ▸ hopen) hcall node, hpush]
    simp
  · exact {
      thread := h.thread
      ended := h.ended
      closed := h.closed
      holds := hholds
      maxSize := h.maxSize
      bounded := by
        rw [List.length_append, List.length_singleton]
        exact hroom
      pushes := fun b hb => by simp at hb
      pops := fun b hb => h.pops b (hblocked ▸ hb)
      popAsleep := fun hasleep => absurd hasleep Bool.false_ne_true
      pushAsleep := fun hasleep => absurd (hawake.symm.trans hasleep) Bool.false_ne_true }
  · have hle := Bool.toNat_le u.popAsleep
    simp only [QueuedThread.sleepers, hawake]
    omega

private theorem receive_waits (h : u.StandsFor act front st) (hoffers : front item)
    (hopen : st.closed = false) (hawake : u.pushAsleep = false)
    (hcall : ∀ b, u.input.blocked 0 = some b → b = .push item)
    (hfull : st.queue.length = st.capacity) (node : Nat) :
    ∃ u', u.receive item node = some (false, u') ∧ u'.state = u.state ∧ u'.ended = u.ended ∧
      u'.StandsFor act front st ∧ u'.sleepers = u.sleepers + 1 := by
  have hpos : 0 < u.input.sq.maxSize := by
    rw [h.maxSize]
    exact_mod_cast st.capacity_pos
  have hsize : u.input.sq.maxSize ≤ st.queue.length := by
    rw [h.maxSize]
    exact_mod_cast Nat.le_of_eq hfull.symm
  have hpush := pushLoop_full h.holds hpos hsize 0 item node
  have hblocked := blocked_wait_of_ne u.input (.push item) (Nat.one_ne_zero)
  refine ⟨{ u with input := u.input.wait 0 (.push item), pushAsleep := true }, ?_, rfl, rfl, ?_, ?_⟩
  · rw [QueuedThread.receive, resume_push (h.closed ▸ hopen) hcall node, hpush]
    simp
  · exact { h with
      pushes := fun b hb => ⟨item, by simpa using hb.symm, hoffers⟩
      pops := fun b hb => h.pops b (hblocked ▸ hb)
      pushAsleep := fun _ => ⟨⟨item, hoffers⟩, hfull⟩ }
  · simp only [QueuedThread.sleepers, hawake]
    rfl

/-- The queue of the next thread takes an item, or the thread that pushes it falls asleep. -/
theorem QueuedThread.StandsFor.receive (h : u.StandsFor act front st) (hoffers : front item)
    (hopen : st.closed = false) (hawake : u.pushAsleep = false)
    (honly : ∀ item', front item' → item' = item) (hnode : u.input.sq.queue.heap node = none) :
    ∃ u', u'.state = u.state ∧ u'.ended = u.ended ∧
      ((u.receive item node = some (false, u') ∧ u'.StandsFor act front st ∧
          u'.sleepers = u.sleepers + 1) ∨
        (u.receive item node = some (true, u') ∧ st.queue.length < st.capacity ∧
          (∀ front', u'.StandsFor act front' { st with queue := st.queue ++ [item] }) ∧
          u.sleepers ≤ u'.sleepers + 1)) := by
  have hcall : ∀ b, u.input.blocked 0 = some b → b = .push item := by
    intro b hb
    obtain ⟨item', rfl, hitem'⟩ := h.pushes b hb
    rw [honly item' hitem']
  by_cases hroom : st.queue.length < st.capacity
  · obtain ⟨u', hreceive, hstate, hended, hstands, hsleepers⟩ :=
      receive_room h hopen hawake hcall hroom hnode
    exact ⟨u', hstate, hended, .inr ⟨hreceive, hroom, hstands, hsleepers⟩⟩
  · obtain ⟨u', hreceive, hstate, hended, hstands, hsleepers⟩ :=
      receive_waits h hoffers hopen hawake hcall
        (Nat.le_antisymm h.bounded (Nat.le_of_not_lt hroom)) node
    exact ⟨u', hstate, hended, .inl ⟨hreceive, hstands, hsleepers⟩⟩

/-- The queue of the next thread ends. -/
theorem QueuedThread.StandsFor.terminate (h : u.StandsFor act front st) (hno : ∀ item, ¬ front item)
    (front' : α → Prop) : u.terminate.StandsFor act front' { st with closed := true } where
  thread := h.thread
  ended := h.ended
  closed := rfl
  holds := h.holds
  maxSize := h.maxSize
  bounded := h.bounded
  pushes := fun b hb => by simp [QueuedThread.terminate, SyncState.syncQueueTerm] at hb
  pops := fun b hb => h.pops b (by
    rwa [← blocked_leave_of_ne u.input u.input.sq.queue .terminated Nat.one_ne_zero])
  popAsleep := fun hasleep => absurd hasleep Bool.false_ne_true
  pushAsleep := fun hasleep => by
    obtain ⟨⟨item, hitem⟩, -⟩ := h.pushAsleep hasleep
    exact absurd hitem (hno item)

end Push

section Move

open ThreadRow

/-- The thread at a place goes on in both rows, or it falls asleep where it would wait. -/
def GoesAlong (act : σ → Act σ α) (front : α → Prop) (threads : List (QueuedThread σ α))
    (stages : List (Stage σ α)) (results : List α) (i : Nat)
    (r : List (QueuedThread σ α) × List α) : Prop :=
  (RowsAgree act front r.1 stages ∧ r.2 = results ∧ asleep r.1 = asleep threads + 1) ∨
    ∃ stages', advanceAt act i stages results = some (stages', r.2) ∧ RowsAgree act front r.1 stages' ∧
      asleep threads ≤ asleep r.1 + 1

section First

variable (head : t.StandsFor act front st) (rest : RowsAgree act (t.Offers act) threads stages)
  (hended : t.ended = false) (hawake : t.popAsleep = false)

include head hended

private theorem advance_perform {a : Act σ α} (ha : act t.state = a) (stages : List (Stage σ α))
    (results : List α) :
    advanceAt act 0 (st :: stages) results = perform st stages results a :=
  advanceFirst_of_running (head.ended.trans hended) (by rw [head.thread]; exact ha)

include rest hawake

private theorem work_goesAlong {next : σ} (ha : act t.state = .work next) :
    ∃ r, carryOut t threads results node (.work next) = some r ∧
      GoesAlong act front (t :: threads) (st :: stages) results 0 r := by
  exact ⟨_, rfl, .inr ⟨_, advance_perform head hended ha stages results,
    .cons (head.moved hawake next) (rest.of_no_push (not_offers_of_act ha (by simp))), Nat.le_succ _⟩⟩

private theorem pop_goesAlong {next : Option α → σ} (ha : act t.state = .pop next) :
    ∃ r, carryOut t threads results node (.pop next) = some r ∧
      GoesAlong act front (t :: threads) (st :: stages) results 0 r := by
  have hrest : ∀ front', RowsAgree act front' threads stages :=
    fun _ => rest.of_no_push (not_offers_of_act ha (by simp))
  obtain ⟨t', hpop, -, hcases⟩ := head.pop ha hawake stages results
  refine ⟨_, by rw [carryOut, hpop]; rfl, ?_⟩
  rcases hcases with ⟨-, hstands, hsleepers⟩ | ⟨st', hperform, hstands, hsleepers⟩
  · refine .inl ⟨.cons hstands (hrest _), rfl, ?_⟩
    simp only [asleep_cons, hsleepers]
    omega
  · refine .inr ⟨_, (advance_perform head hended ha stages results).trans hperform,
      .cons hstands (hrest _), ?_⟩
    simp only [asleep_cons]
    omega

omit hawake in
private theorem halt_goesAlong (ha : act t.state = .halt) :
    ∃ r, carryOut t threads results node .halt = some r ∧
      GoesAlong act front (t :: threads) (st :: stages) results 0 r := by
  have hhalted : ({ t with ended := true } : QueuedThread σ α).StandsFor act front
      { st with ended := true } := { head with ended := rfl }
  have hadvance := advance_perform head hended ha stages results
  cases rest with
  | nil => exact ⟨_, rfl, .inr ⟨_, hadvance, .cons hhalted (.nil _), Nat.le_succ _⟩⟩
  | @cons _ u st' threads stages hu rest =>
      have hshut := hu.terminate (not_offers_of_act ha (by simp))
        (QueuedThread.Offers act { t with ended := true })
      refine ⟨_, rfl, .inr ⟨_, hadvance, .cons hhalted (.cons hshut rest), ?_⟩⟩
      have hle := Bool.toNat_le u.popAsleep
      simp only [terminateNext, asleep_cons, QueuedThread.terminate, QueuedThread.sleepers,
        Bool.toNat_false]
      omega

private theorem push_goesAlong {item : α} {next : σ} (ha : act t.state = .push item next)
    (hopen : ∀ st' ∈ stages.head?, st'.closed = false)
    (hnext : ∀ u ∈ threads.head?, u.pushAsleep = false ∧ u.input.sq.queue.heap node = none) :
    ∃ r, carryOut t threads results node (.push item next) = some r ∧
      GoesAlong act front (t :: threads) (st :: stages) results 0 r := by
  have hadvance := advance_perform head hended ha stages results
  cases rest with
  | nil => exact ⟨_, rfl, .inr ⟨_, hadvance, .cons (head.moved hawake next) (.nil _), Nat.le_succ _⟩⟩
  | @cons _ u st' threads stages hu rest =>
      obtain ⟨hasleep, hnode⟩ := hnext u rfl
      have honly : ∀ item', t.Offers act item' → item' = item := by
        rintro item' ⟨-, next', ha'⟩
        rw [ha] at ha'
        exact (Act.push.inj ha').1.symm
      obtain ⟨u', hstate, hend, hcases⟩ :=
        hu.receive ⟨hended, next, ha⟩ (hopen st' rfl) hasleep honly hnode
      have hoffers : u'.Offers act = u.Offers act := by
        ext
        rw [QueuedThread.Offers, hstate, hend]
        rfl
      rw [← hoffers] at rest
      rcases hcases with ⟨hreceive, hstands, hsleepers⟩ | ⟨hreceive, hroom, hstands, hsleepers⟩
      · refine ⟨_, by rw [carryOut, hreceive]; rfl, .inl ⟨.cons head (.cons hstands rest), rfl, ?_⟩⟩
        show asleep (t :: u' :: threads) = asleep (t :: u :: threads) + 1
        simp only [asleep_cons, hsleepers]
        omega
      · have hperform : perform st (st' :: stages) results (.push item next) =
            some ({ st with thread := next } :: { st' with queue := st'.queue ++ [item] } :: stages,
              results) := by
          rw [perform, offer, if_pos hroom]
          rfl
        refine ⟨_, by rw [carryOut, hreceive]; rfl,
          .inr ⟨_, hadvance.trans hperform, .cons (head.moved hawake next) (.cons (hstands _) rest), ?_⟩⟩
        show asleep (t :: u :: threads) ≤ asleep ({ t with state := next } :: u' :: threads) + 1
        simp only [asleep_cons, QueuedThread.sleepers] at hsleepers ⊢
        omega

end First

/-- The thread at a place goes on, or it falls asleep. -/
theorem move_goesAlong {pending outs : List α} {closed : Bool} {finals : List σ} {n i : Nat}
    (h : RowsAgree act front threads stages)
    (hflow : Flow act results pending closed stages outs finals n)
    (hthread : ∃ t ∈ threads[i]?, t.ended = false ∧ t.popAsleep = false)
    (hnext : ∀ u ∈ threads[i + 1]?, u.pushAsleep = false ∧ u.input.sq.queue.heap node = none) :
    ∃ r, move act i threads results node = some r ∧ GoesAlong act front threads stages results i r := by
  induction h generalizing i pending closed outs finals n with
  | nil =>
      obtain ⟨t, ht, -⟩ := hthread
      cases ht
  | @cons front t st threads stages head rest ih =>
      cases i with
      | zero =>
          obtain ⟨_, ht, hended, hawake⟩ := hthread
          cases ht
          rw [List.getElem?_cons_succ, ← List.head?_eq_getElem?] at hnext
          obtain ⟨hfail, hopen⟩ := hflow.running_next (head.ended.trans hended)
          rw [head.thread] at hfail
          rw [move]
          cases ha : act t.state with
          | fail => exact absurd ha hfail
          | work next => exact work_goesAlong head rest hended hawake ha
          | pop next => exact pop_goesAlong head rest hended hawake ha
          | halt => exact halt_goesAlong head rest hended ha
          | push item next => exact push_goesAlong head rest hended hawake ha hopen hnext
      | succ i =>
          obtain ⟨_, _, _, _, _, htail⟩ := hflow.tail
          obtain ⟨r, hmove, hgoes⟩ := ih htail hthread hnext
          refine ⟨(t :: r.1, r.2), by rw [move, hmove]; rfl, ?_⟩
          rcases hgoes with ⟨hagree, hresults, hasleep⟩ | ⟨stages', hadvance, hagree, hasleep⟩
          · refine .inl ⟨.cons head hagree, hresults, ?_⟩
            simp only [asleep_cons, hasleep]
            omega
          · refine .inr ⟨st :: stages', by rw [advanceAt, hadvance]; rfl, .cons head hagree, ?_⟩
            simp only [asleep_cons]
            omega

/-- A wait that ends without a broadcast changes nothing in the row without sleep. -/
theorem rouse_agrees (h : RowsAgree act front threads stages) (i : Nat) :
    RowsAgree act front (rouse i threads) stages ∧ asleep threads ≤ asleep (rouse i threads) + 2 := by
  induction h generalizing i with
  | nil => exact ⟨by cases i <;> exact .nil _, Nat.zero_le _⟩
  | @cons front t st threads stages head rest ih =>
      cases i with
      | zero =>
          have hroused : ({ t with popAsleep := false } : QueuedThread σ α).StandsFor act front st :=
            { head with popAsleep := fun hasleep => absurd hasleep Bool.false_ne_true }
          have hpop := Bool.toNat_le t.popAsleep
          cases rest with
          | nil =>
              refine ⟨.cons hroused (.nil _), ?_⟩
              simp only [rouse, rouseFront, asleep_cons, QueuedThread.sleepers]
              omega
          | @cons _ u st' threads stages hu rest =>
              refine ⟨.cons hroused (.cons { hu with
                pushAsleep := fun hasleep => absurd hasleep Bool.false_ne_true } rest), ?_⟩
              have hpush := Bool.toNat_le u.pushAsleep
              simp only [rouse, rouseFront, asleep_cons, QueuedThread.sleepers]
              omega
      | succ i =>
          obtain ⟨hagree, hasleep⟩ := ih i
          refine ⟨.cons head hagree, ?_⟩
          simp only [rouse, asleep_cons]
          omega

/-- A thread that can go on in the row without sleep is awake. -/
theorem awake_of_advance {i : Nat} {r : List (Stage σ α) × List α}
    (h : RowsAgree act front threads stages) (hadvance : advanceAt act i stages results = some r) :
    (∃ t ∈ threads[i]?, t.ended = false ∧ t.popAsleep = false) ∧
      ∀ u ∈ threads[i + 1]?, u.pushAsleep = false := by
  induction h generalizing i r with
  | nil => cases i <;> cases hadvance
  | @cons front t st threads stages head rest ih =>
      cases i with
      | succ i =>
          obtain ⟨r', hnext, -⟩ := Option.map_eq_some_iff.mp hadvance
          exact ih hnext
      | zero =>
          rw [advanceAt, advanceFirst] at hadvance
          split at hadvance
          · cases hadvance
          rename_i hrunning
          have hended : t.ended = false := by
            rw [← head.ended]
            exact Bool.eq_false_iff.mpr hrunning
          refine ⟨⟨t, rfl, hended, Bool.eq_false_iff.mpr fun hasleep => ?_⟩, ?_⟩
          · obtain ⟨⟨next, ha⟩, hqueue, hopen⟩ := head.popAsleep hasleep
            rw [head.thread, ha, perform, hqueue, hopen] at hadvance
            cases hadvance
          · intro u hu
            cases rest with
            | nil => cases hu
            | @cons _ u' st' threads stages head' rest =>
                obtain rfl : u' = u := Option.some.inj hu
                apply Bool.eq_false_iff.mpr
                intro hasleep
                obtain ⟨⟨item, -, next, ha⟩, hfull⟩ := head'.pushAsleep hasleep
                rw [head.thread, ha, perform, offer, if_neg (by omega)] at hadvance
                cases hadvance

end Move

end Agreement

section Runs

def QueuedThread.start (state : σ) (input : SyncState α) : QueuedThread σ α :=
  { state := state, ended := false, input := input, popAsleep := false, pushAsleep := false }

/-- Threads at their start, each with the size of the queue that it pops from. The first one pops nothing:
its queue has ended. -/
def ThreadRow.start (first : σ) (rest : List (σ × Int)) : ThreadRow σ α :=
  { threads := .start first ((syncQueueNew 1).syncQueueTerm 0) ::
      rest.map fun r => .start r.1 (syncQueueNew r.2)
    results := [] }

/-- A wait that ends without a broadcast. -/
def RowAction.isWakeUp : RowAction → Bool
  | .move _ _ => false
  | .wakeUp _ => true

variable {act : σ → Act σ α} {first : σ} {rest : List (σ × Int)} {results : List α} {finals : List σ}
  {n : Nat} {actions : List RowAction} {row : ThreadRow σ α}

/-- The row is the row without sleep, which has `m` actions left. Each wait is paid for by an action that
ends it, or the thread is still asleep. -/
def RowInv (act : σ → Act σ α) (results : List α) (finals : List σ) (n : Nat) (sizes : List Int)
    (actions : List RowAction) (row : ThreadRow σ α) : Prop :=
  ∃ stages m, RowsAgree act (fun _ => False) row.threads stages ∧
    Flow act row.results [] true stages results finals m ∧
    (stages.map Stage.capacity).map Int.ofNat = sizes ∧
    actions.length + 2 * m ≤
      2 * n + 3 * actions.countP RowAction.isWakeUp + ThreadRow.asleep row.threads

private def startStage (state : σ) (closed : Bool) (capacity : Nat) (h : 0 < capacity) : Stage σ α :=
  { thread := state, ended := false, queue := [], closed := closed, capacity := capacity,
    capacity_pos := h }

private theorem start_standsFor (front : α → Prop) (state : σ) {size : Int} (hsize : 0 < size) :
    (QueuedThread.start state (syncQueueNew size : SyncState α)).StandsFor act front
      (startStage state false size.toNat (Int.lt_toNat.mpr hsize)) where
  thread := rfl
  ended := rfl
  closed := rfl
  holds := queueNew_holds
  maxSize := (Int.toNat_of_nonneg (Int.le_of_lt hsize)).symm
  bounded := Nat.zero_le _
  pushes := fun b hb => by cases hb
  pops := fun b hb => by cases hb
  popAsleep := fun h => by cases h
  pushAsleep := fun h => by cases h

private theorem start_agrees (front : α → Prop) (rest : List (σ × Int)) (hsizes : ∀ r ∈ rest, 0 < r.2) :
    ∃ stages, RowsAgree act front (rest.map fun r => .start r.1 (syncQueueNew r.2)) stages ∧
      stages.map Stage.thread = rest.map Prod.fst ∧
      (stages.map Stage.capacity).map Int.ofNat = rest.map Prod.snd ∧
      (∀ st ∈ stages, st.ended = false ∧ st.queue = [] ∧ st.closed = false) ∧
      ThreadRow.asleep (rest.map fun r => .start r.1 (syncQueueNew r.2 : SyncState α)) = 0 := by
  induction rest generalizing front with
  | nil => exact ⟨[], .nil front, rfl, rfl, fun st hst => absurd hst List.not_mem_nil, rfl⟩
  | cons r rest ih =>
      obtain ⟨hr, hrest⟩ := List.forall_mem_cons.mp hsizes
      obtain ⟨stages, hagree, hthreads, hcapacities, hstages, hasleep⟩ :=
        ih (QueuedThread.Offers act (.start r.1 (syncQueueNew r.2))) hrest
      refine ⟨_ :: stages, .cons (start_standsFor front r.1 hr) hagree, ?_, ?_, ?_, ?_⟩
      · rw [List.map_cons, List.map_cons, hthreads]
        rfl
      · rw [List.map_cons, List.map_cons, List.map_cons, hcapacities]
        exact congrArg (· :: _) (Int.toNat_of_nonneg (Int.le_of_lt hr))
      · exact List.forall_mem_cons.mpr ⟨⟨rfl, rfl, rfl⟩, hstages⟩
      · rw [List.map_cons, ThreadRow.asleep_cons, hasleep]
        rfl

theorem rowInv_start (hserial : Serial act true (first :: rest.map Prod.fst) [] results finals n)
    (hsizes : ∀ r ∈ rest, 0 < r.2) :
    RowInv act results finals n (1 :: rest.map Prod.snd) [] (ThreadRow.start first rest) := by
  let input : SyncState α := (syncQueueNew 1).syncQueueTerm 0
  obtain ⟨stages, hagree, hthreads, hcapacities, hstages, hasleep⟩ :=
    start_agrees (QueuedThread.Offers act (.start first input)) rest hsizes
  have hfirst : (QueuedThread.start first input).StandsFor act (fun _ => False)
      (startStage first true 1 Nat.one_pos) := by
    exact (start_standsFor (fun _ => False) first Int.one_pos).terminate (fun _ h => h) _
  refine ⟨startStage first true 1 Nat.one_pos :: stages, n, .cons hfirst hagree, ?_, ?_, ?_⟩
  · refine hserial.flow ?_ ?_ ?_ (fun _ => rfl) (fun _ => rfl) ?_
    · rw [List.map_cons, hthreads]
      rfl
    · exact List.forall_mem_cons.mpr
        ⟨⟨rfl, rfl⟩, fun st hst => ⟨(hstages st hst).1, (hstages st hst).2.1⟩⟩
    · intro st hst
      cases hst
      rfl
    · exact fun st hst => (hstages st hst).2.2
  · rw [List.map_cons, List.map_cons, hcapacities]
    rfl
  · simp only [ThreadRow.start, ThreadRow.asleep_cons]
    rw [hasleep]
    exact Nat.le_of_eq (by simp [QueuedThread.sleepers, QueuedThread.start])

/-- Each action keeps the invariant. -/
theorem rowStep_ensures {sizes : List Int} {a : RowAction}
    (h : RowInv act results finals n sizes actions row) (hok : row.Admissible a) :
    Ensures (fun _ => False) (RowInv act results finals n sizes (actions ++ [a])) (row.step act a) := by
  obtain ⟨stages, m, hagree, hflow, hcapacities, hbound⟩ := h
  have hlength : (actions ++ [a]).length = actions.length + 1 := List.length_append
  have hcount : (actions ++ [a]).countP RowAction.isWakeUp =
      actions.countP RowAction.isWakeUp + [a].countP RowAction.isWakeUp := List.countP_append
  cases a with
  | wakeUp i =>
      obtain ⟨hroused, hasleep⟩ := rouse_agrees hagree i
      have hone : [RowAction.wakeUp i].countP RowAction.isWakeUp = 1 := rfl
      refine ⟨stages, m, hroused, hflow, hcapacities, ?_⟩
      show _ ≤ _ + ThreadRow.asleep (ThreadRow.rouse i row.threads)
      omega
  | move i node =>
      have hnone : [RowAction.move i node].countP RowAction.isWakeUp = 0 := rfl
      obtain ⟨r, hmove, hgoes⟩ := move_goesAlong hagree hflow hok.1 hok.2
      rw [ThreadRow.step, hmove]
      rcases hgoes with ⟨hagree', hresults, hasleep⟩ | ⟨stages', hadvance, hagree', hasleep⟩
      · refine ⟨stages, m, hagree', hresults ▸ hflow, hcapacities, ?_⟩
        show _ ≤ _ + ThreadRow.asleep r.1
        omega
      · obtain ⟨m', rfl, hflow'⟩ := hflow.advanced hadvance
        refine ⟨stages', m', hagree', hflow', by rw [advanceAt_capacity hadvance, hcapacities], ?_⟩
        show _ ≤ _ + ThreadRow.asleep r.1
        omega

theorem RowsAgree.length_eq {front : α → Prop} {threads : List (QueuedThread σ α)}
    {stages : List (Stage σ α)} (h : RowsAgree act front threads stages) :
    threads.length = stages.length := by
  induction h with
  | nil => rfl
  | cons _ _ ih => exact congrArg (· + 1) ih

theorem asleep_le (threads : List (QueuedThread σ α)) :
    ThreadRow.asleep threads ≤ 2 * threads.length := by
  induction threads with
  | nil => exact Nat.le_refl _
  | cons t threads ih =>
      have hpop := Bool.toNat_le t.popAsleep
      have hpush := Bool.toNat_le t.pushAsleep
      rw [ThreadRow.asleep_cons, QueuedThread.sleepers, List.length_cons]
      omega

/-- What the invariant says of the queues and of the threads. -/
theorem RowsAgree.queues {front : α → Prop} {threads : List (QueuedThread σ α)}
    {stages : List (Stage σ α)} (h : RowsAgree act front threads stages) :
    List.Forall₂ (fun t (size : Int) => (t.input.sq.queue.elemNum : Int) ≤ size) threads
        ((stages.map Stage.capacity).map Int.ofNat) ∧
      stages.map Stage.thread = threads.map QueuedThread.state ∧
      List.Forall₂ (fun t st => t.ended = st.ended ∧ t.input.sq.queue.elemNum = st.queue.length)
        threads stages := by
  induction h with
  | nil => exact ⟨.nil, rfl, .nil⟩
  | cons head _ ih =>
      obtain ⟨hbounds, hthreads, hpairs⟩ := ih
      refine ⟨.cons ?_ hbounds, ?_, .cons ⟨head.ended.symm, head.holds.size_eq⟩ hpairs⟩
      · rw [head.holds.size_eq]
        exact Int.ofNat_le.mpr head.bounded
      · rw [List.map_cons, List.map_cons, hthreads, head.thread]

/-- The row ends, however its threads are interleaved, with its threads as they are one after another.
The actions are at most twice those of the threads alone, unless waits end without a broadcast; until
all threads have ended one of them is awake; no queue ever holds more than its size; and when the last
thread has ended, the others have, and the queues are empty. -/
theorem threadRow_ends (hserial : Serial act true (first :: rest.map Prod.fst) [] results finals n)
    (hsizes : ∀ r ∈ rest, 0 < r.2)
    (h : Run (ThreadRow.step act) ThreadRow.Admissible (ThreadRow.start first rest) actions row) :
    (∀ a, row.Admissible a → ∃ row', row.step act a = .ok row') ∧
      List.Forall₂ (fun t (size : Int) => (t.input.sq.queue.elemNum : Int) ≤ size) row.threads
        (1 :: rest.map Prod.snd) ∧
      actions.length ≤ 2 * n + 3 * actions.countP RowAction.isWakeUp + 2 * finals.length ∧
      ((∀ t ∈ row.threads, t.ended = true) ∨
        ∃ i, ∀ node, (∀ u ∈ row.threads[i + 1]?, u.input.sq.queue.heap node = none) →
          row.Admissible (.move i node)) ∧
      ((∀ t ∈ row.threads.getLast?, t.ended = true) →
        row.threads.map QueuedThread.state = finals ∧ row.results = results ∧
          ∀ t ∈ row.threads, t.ended = true ∧ t.input.sq.queue.elemNum = 0) := by
  have hinv : RowInv act results finals n (1 :: rest.map Prod.snd) actions row :=
    h.invariant_actions (RowInv act results finals n (1 :: rest.map Prod.snd))
      (rowInv_start hserial hsizes) fun _ _ _ hinv hok => rowStep_ensures hinv hok
  obtain ⟨stages, m, hagree, hflow, hcapacities, hbound⟩ := hinv
  obtain ⟨hqueues, hthreads, hpairs⟩ := hagree.queues
  rw [hcapacities] at hqueues
  refine ⟨fun a hok => ?_, hqueues, ?_, ?_, fun hlast => ?_⟩
  · have hstep := rowStep_ensures ⟨stages, m, hagree, hflow, hcapacities, hbound⟩ hok
    cases heq : row.step act a with
    | ok row' => exact ⟨row', rfl⟩
    | error e => exact (hstep.of_error heq).elim
  · have hasleep := asleep_le row.threads
    rw [hagree.length_eq, hflow.length_eq] at hasleep
    omega
  · rcases hflow.progress with ⟨i, r, hadvance⟩ | hall | ⟨st, hst, -, hopen⟩
    · obtain ⟨hthread, hnext⟩ := awake_of_advance hagree hadvance
      exact .inr ⟨i, fun node hnode => ⟨hthread, fun u hu => ⟨hnext u hu, hnode u hu⟩⟩⟩
    · refine .inl fun t ht => ?_
      obtain ⟨st, hst, hended, -⟩ := mem_forall₂_left hpairs ht
      exact hended.trans (hall st hst)
    · obtain ⟨stages, rfl⟩ := List.head?_eq_some_iff.mp hst
      rw [hflow.closed_eq] at hopen
      cases hopen
  · have hall : ∀ st ∈ stages, st.ended = true := hflow.all_ended fun st hst => by
      obtain ⟨t, ht, hended, -⟩ := getLast?_forall₂ hpairs hst
      exact hended.symm.trans (hlast t ht)
    obtain ⟨hfinals, hresults, hempty⟩ := hflow.finished hall rfl
    refine ⟨hthreads ▸ hfinals, hresults, fun t ht => ?_⟩
    obtain ⟨st, hst, hended, hlength⟩ := mem_forall₂_left hpairs ht
    exact ⟨hended.trans (hall st hst), by rw [hlength, hempty st hst, List.length_nil]⟩

def admitsRow {σ α : Type} (row : ThreadRow σ α) : RowAction → Bool
  | .move i node => (row.threads[i]?).any (fun t => !t.ended && !t.popAsleep) &&
      (row.threads[i + 1]?).all fun u => !u.pushAsleep && (u.input.sq.queue.heap node).isNone
  | .wakeUp _ => true

theorem admissible_of_admitsRow {σ α : Type} (row : ThreadRow σ α) (a : RowAction)
    (h : admitsRow row a = true) : row.Admissible a := by
  cases a with
  | wakeUp i => trivial
  | move i node =>
      obtain ⟨hthread, hnext⟩ := Bool.and_eq_true_iff.mp h
      obtain ⟨t, ht, hawake⟩ := (Option.any_eq_true _ _).mp hthread
      refine ⟨⟨t, ht, by simpa using hawake⟩, fun u hu => ?_⟩
      have hu' := (Option.all_eq_true _ _).mp hnext u hu
      simpa using hu'

end Runs

end Destor
