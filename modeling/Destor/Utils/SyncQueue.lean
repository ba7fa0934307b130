/- digest: The blocking queue between two phases, under every interleaving of its critical sections. -/

import Destor.Library.Transition
import Destor.Utils.Queue

set_option autoImplicit false
set_option relaxedAutoImplicit false

namespace Destor

open Library.Outcome Library.Transition

/-- `SyncQueue`, less the mutex and the condition variables. -/
structure SyncQueue (α : Type) where
  term : Bool
  maxSize : Int
  queue : Queue α

/-- The call in which a thread waits on a condition variable. -/
inductive Blocked (α : Type) where
  | push (item : α)
  | pop
  | getTop

/-- What a critical section did, in the order in which the sections were entered. -/
inductive SyncEvent (α : Type) where
  | pushed (item : α)
  | dropped (item : α)
  | popped (result : Option α)
  | top (result : Option α)
  | found (hit : α → Bool) (result : Option α)
  | terminated

/-- The queue, the threads that wait in a call, and what happened so far. -/
structure SyncState (α : Type) where
  sq : SyncQueue α
  blocked : Nat → Option (Blocked α)
  history : List (SyncEvent α)

/-- A thread enters a call, or leaves a wait. A wait may end at any time, also without a broadcast.
Where an element is allocated, `node` is its address. -/
inductive SyncAction (α : Type) where
  | push (thread : Nat) (item : α) (node : Nat)
  | pop (thread : Nat)
  | getTop (thread : Nat)
  | find (thread : Nat) (hit : α → Bool)
  | term (thread : Nat)
  | wake (thread : Nat) (node : Nat)

/-- A queue function followed a null or freed pointer. -/
inductive SyncFault where
  | badPointer

section Sections

variable {α : Type}

def syncQueueNew (size : Int) : SyncState α :=
  { sq := { term := false, maxSize := size, queue := queueNew }, blocked := fun _ => none,
    history := [] }

namespace SyncState

/-- The end of a critical section that left its call. -/
def leave (st : SyncState α) (thread : Nat) (queue : Queue α) (e : SyncEvent α) : SyncState α :=
  { sq := { st.sq with queue := queue }
    blocked := Function.update st.blocked thread none
    history := st.history ++ [e] }

/-- The end of a critical section that waits. -/
def wait (st : SyncState α) (thread : Nat) (call : Blocked α) : SyncState α :=
  { st with blocked := Function.update st.blocked thread (some call) }

/-- The waiting loop of `sync_queue_push` and what follows it. -/
def pushLoop (st : SyncState α) (thread : Nat) (item : α) (node : Nat) : Option (SyncState α) :=
  if 0 < st.sq.maxSize ∧ st.sq.maxSize ≤ st.sq.queue.elemNum then some (st.wait thread (.push item))
  else do
    let queue ← queuePush st.sq.queue node item
    return st.leave thread queue (.pushed item)

def syncQueuePush (st : SyncState α) (thread : Nat) (item : α) (node : Nat) :
    Option (SyncState α) :=
  if st.sq.term then some (st.leave thread st.sq.queue (.dropped item))
  else st.pushLoop thread item node

def syncQueuePop (st : SyncState α) (thread : Nat) : Option (SyncState α) :=
  if st.sq.queue.elemNum = 0 then
    if st.sq.term then some (st.leave thread st.sq.queue (.popped none))
    else some (st.wait thread .pop)
  else do
    let (item, queue) ← queuePop st.sq.queue
    return st.leave thread queue (.popped item)

def syncQueueGetTop (st : SyncState α) (thread : Nat) : Option (SyncState α) :=
  if st.sq.queue.elemNum = 0 then
    if st.sq.term then some (st.leave thread st.sq.queue (.top none))
    else some (st.wait thread .getTop)
  else do
    let item ← queueTop st.sq.queue
    return st.leave thread st.sq.queue (.top item)

/-- `sync_queue_find`; a copy of the item is as good as the item. -/
def syncQueueFind (st : SyncState α) (thread : Nat) (hit : α → Bool) : Option (SyncState α) := do
  let item ← queueFind st.sq.queue hit
  return st.leave thread st.sq.queue (.found hit item)

def syncQueueTerm (st : SyncState α) (thread : Nat) : SyncState α :=
  { st.leave thread st.sq.queue .terminated with sq := { st.sq with term := true } }

def criticalSection (st : SyncState α) : SyncAction α → Option (SyncState α)
  | .push thread item node => st.syncQueuePush thread item node
  | .pop thread => st.syncQueuePop thread
  | .getTop thread => st.syncQueueGetTop thread
  | .find thread hit => st.syncQueueFind thread hit
  | .term thread => some (st.syncQueueTerm thread)
  | .wake thread node =>
      match st.blocked thread with
      | some (.push item) => st.pushLoop thread item node
      | some .pop => st.syncQueuePop thread
      | some .getTop => st.syncQueueGetTop thread
      | none => some st

def step (st : SyncState α) (a : SyncAction α) : Except SyncFault (SyncState α) :=
  match st.criticalSection a with
  | some st' => .ok st'
  | none => .error .badPointer

/-- A thread calls when it is in no other call and wakes when it waits, memory is allocated where
none is in use, and the one termination comes after the last push has returned. -/
def Admissible (st : SyncState α) : SyncAction α → Prop
  | .push thread _ node =>
      st.blocked thread = none ∧ st.sq.queue.heap node = none ∧ st.sq.term = false
  | .pop thread => st.blocked thread = none
  | .getTop thread => st.blocked thread = none
  | .find thread _ => st.blocked thread = none
  | .term thread => st.blocked thread = none ∧ st.sq.term = false ∧
      ∀ t item, st.blocked t ≠ some (.push item)
  | .wake thread node => st.blocked thread ≠ none ∧ st.sq.queue.heap node = none

end SyncState

end Sections

section History

variable {α : Type}

/-- The items that entered the queue, in order. -/
def pushes (history : List (SyncEvent α)) : List α :=
  history.filterMap fun
    | .pushed item => some item
    | _ => none

/-- The items that left the queue, in order. -/
def pops (history : List (SyncEvent α)) : List α :=
  history.filterMap fun
    | .popped result => result
    | _ => none

def Explains (before : List (SyncEvent α)) : SyncEvent α → Prop
  | .pushed _ => .terminated ∉ before
  | .dropped _ => False
  | .popped (some x) => ∃ rest, pushes before = pops before ++ x :: rest
  | .popped none => .terminated ∈ before ∧ pushes before = pops before
  | .top (some x) => ∃ rest, pushes before = pops before ++ x :: rest
  | .top none => .terminated ∈ before ∧ pushes before = pops before
  | .found hit result => ∃ rest, pushes before = pops before ++ rest ∧ result = rest.find? hit
  | .terminated => .terminated ∉ before

def Explained (history : List (SyncEvent α)) : Prop :=
  ∀ before e after, history = before ++ e :: after → Explains before e

variable {history before between after : List (SyncEvent α)} {e : SyncEvent α} {x : α}

theorem Explained.snoc (h : Explained history) (he : Explains history e) :
    Explained (history ++ [e]) := by
  intro before e' after heq
  rcases List.eq_nil_or_concat after with rfl | ⟨after, last, rfl⟩
  · obtain ⟨rfl, hlast⟩ := List.append_inj' heq rfl
    rw [List.cons.injEq] at hlast
    rw [← hlast.1]
    exact he
  · rw [List.concat_eq_append, ← List.cons_append, ← List.append_assoc] at heq
    exact h before e' after (List.append_inj' heq rfl).1

/-- After `get_top` returned an item, the next pop returns it. -/
theorem Explained.top_next (h : Explained history) {result : Option α}
    (hsplit : history = before ++ .top (some x) :: (between ++ .popped result :: after))
    (hnopop : ∀ r, .popped r ∉ between) : result = some x := by
  obtain ⟨rest, hrest⟩ := h before _ _ hsplit
  have hpop := h (before ++ .top (some x) :: between) (.popped result) after (by
    rw [hsplit, List.append_assoc, List.cons_append])
  have hbetween : pops between = [] := by
    rw [pops, List.filterMap_eq_nil_iff]
    intro e he
    cases e with
    | popped r => exact absurd he (hnopop r)
    | pushed | dropped | top | found | terminated => rfl
  have hpops : pops (before ++ .top (some x) :: between) = pops before := by
    simp only [pops, List.filterMap_append, List.filterMap_cons] at hbetween ⊢
    rw [hbetween, List.append_nil]
  have hpushes : pushes (before ++ .top (some x) :: between) =
      pops before ++ x :: (rest ++ pushes between) := by
    simp only [pushes, List.filterMap_append, List.filterMap_cons] at hrest ⊢
    rw [hrest]
    simp
  cases result with
  | none =>
      obtain ⟨-, heq⟩ := hpop
      rw [hpops, hpushes] at heq
      simp at heq
  | some y =>
      obtain ⟨rest', heq⟩ := hpop
      rw [hpops, hpushes, List.append_cancel_left_eq, List.cons.injEq] at heq
      rw [heq.1]

/-- `NULL` is returned only after the termination, when every item ever pushed has been popped. -/
theorem Explained.null (h : Explained history) (hsplit : history = before ++ e :: after)
    (he : e = .popped none ∨ e = .top none) :
    .terminated ∈ before ∧ pops before = pushes history := by
  have hboth : .terminated ∈ before ∧ pushes before = pops before := by
    have hexplains := h before e after hsplit
    rcases he with rfl | rfl <;> exact hexplains
  have hlate : pushes (e :: after) = [] := by
    rw [pushes, List.filterMap_eq_nil_iff]
    intro e' he'
    cases e' with
    | pushed item =>
        obtain ⟨mid, rest, hmid⟩ := List.append_of_mem he'
        have hno : .terminated ∉ before ++ mid := h (before ++ mid) (.pushed item) rest (by
          rw [hsplit, hmid, List.append_assoc])
        exact absurd (List.mem_append_left _ hboth.1) hno
    | popped | dropped | top | found | terminated => rfl
  refine ⟨hboth.1, ?_⟩
  rw [hsplit, ← hboth.2]
  simp only [pushes, List.filterMap_append] at hlate ⊢
  rw [hlate, List.append_nil]

end History

section Invariant

variable {α : Type} {size : Int}

/-- The invariant of a queue between its critical sections. -/
structure SyncInv (size : Int) (st : SyncState α) : Prop where
  max_eq : st.sq.maxSize = size
  items : ∃ items, st.sq.queue.Holds items ∧ pushes st.history = pops st.history ++ items ∧
    (0 < size → (items.length : Int) ≤ size)
  term_iff : st.sq.term = true ↔ .terminated ∈ st.history
  no_push : st.sq.term = true → ∀ t item, st.blocked t ≠ some (.push item)
  explained : Explained st.history

variable {st : SyncState α} {items : List α} {thread : Nat}

private theorem pushes_snoc (history : List (SyncEvent α)) (e : SyncEvent α) :
    pushes (history ++ [e]) = pushes history ++ pushes [e] := by
  simp [pushes]

private theorem pops_snoc (history : List (SyncEvent α)) (e : SyncEvent α) :
    pops (history ++ [e]) = pops history ++ pops [e] := by
  simp [pops]

theorem syncInv_new (size : Int) : SyncInv size (syncQueueNew size : SyncState α) where
  max_eq := rfl
  items := ⟨[], queueNew_holds, rfl, fun h => Int.le_of_lt h⟩
  term_iff := by simp [syncQueueNew]
  no_push := by simp [syncQueueNew]
  explained := by
    intro before e after h
    simp [syncQueueNew] at h

/-- A thread that starts to wait changes nothing else; it does not wait to push once the queue is
terminated. -/
theorem SyncInv.wait (h : SyncInv size st) (call : Blocked α)
    (hcall : st.sq.term = true → ∀ item, call ≠ .push item) :
    SyncInv size (st.wait thread call) where
  max_eq := h.max_eq
  items := h.items
  term_iff := h.term_iff
  no_push := by
    intro hterm t item
    simp only [SyncState.wait]
    by_cases ht : t = thread
    · rw [ht, Function.update_self]
      intro heq
      exact hcall hterm item (Option.some.inj heq)
    · rw [Function.update_of_ne ht]
      exact h.no_push hterm t item
  explained := h.explained

theorem SyncInv.leave (h : SyncInv size st) {queue : Queue α} (e : SyncEvent α)
    (hholds : queue.Holds items)
    (hitems : pushes (st.history ++ [e]) = pops (st.history ++ [e]) ++ items)
    (hsize : 0 < size → (items.length : Int) ≤ size) (he : Explains st.history e)
    (hne : e ≠ .terminated) : SyncInv size (st.leave thread queue e) where
  max_eq := h.max_eq
  items := ⟨items, hholds, hitems, hsize⟩
  term_iff := by
    have hmem : .terminated ∈ st.history ++ [e] ↔ .terminated ∈ st.history := by
      simp [Ne.symm hne]
    exact h.term_iff.trans hmem.symm
  no_push := by
    intro hterm t item
    simp only [SyncState.leave]
    by_cases ht : t = thread
    · simp [ht]
    · rw [Function.update_of_ne ht]
      exact h.no_push hterm t item
  explained := h.explained.snoc he

private theorem toExcept_ensures {P : SyncState α → Prop} {r : Option (SyncState α)}
    (h : ∃ st', r = some st' ∧ P st') :
    Ensures (fun _ => False) P (match r with
      | some st' => .ok st'
      | none => .error SyncFault.badPointer) := by
  obtain ⟨st', rfl, hst'⟩ := h
  exact hst'

theorem pushLoop_inv (h : SyncInv size st) (hterm : st.sq.term = false) (item : α) {node : Nat}
    (hnode : st.sq.queue.heap node = none) :
    ∃ st', st.pushLoop thread item node = some st' ∧ SyncInv size st' := by
  obtain ⟨items, hholds, hitems, hsize⟩ := h.items
  unfold SyncState.pushLoop
  split
  · refine ⟨_, rfl, h.wait (.push item) fun htrue => ?_⟩
    rw [hterm] at htrue
    cases htrue
  · rename_i hroom
    obtain ⟨queue, hpush, hholds'⟩ := queuePush_holds hholds hnode item
    have hno : Explains st.history (.pushed item) := by
      show .terminated ∉ st.history
      rw [← h.term_iff, hterm]
      exact Bool.false_ne_true
    have hpushes : pushes (st.history ++ [.pushed item]) = pushes st.history ++ [item] :=
      pushes_snoc _ _
    have hpops : pops (st.history ++ [.pushed item]) = pops st.history := by
      rw [pops_snoc]
      exact List.append_nil _
    refine ⟨_, by rw [hpush]; rfl, h.leave (.pushed item) hholds' ?_ (fun hpos => ?_) hno nofun⟩
    · rw [hpushes, hpops, hitems, List.append_assoc]
    · rw [h.max_eq, hholds.size_eq] at hroom
      simp only [List.length_append, List.length_singleton]
      omega

private theorem holds_nil_of_size (hholds : st.sq.queue.Holds items)
    (hzero : st.sq.queue.elemNum = 0) : items = [] := by
  rw [hholds.size_eq] at hzero
  exact List.length_eq_zero_iff.mp hzero

private theorem holds_cons_of_size (hholds : st.sq.queue.Holds items)
    (hne : ¬ st.sq.queue.elemNum = 0) : ∃ x rest, items = x :: rest := by
  cases items with
  | nil => exact absurd hholds.size_eq hne
  | cons x rest => exact ⟨x, rest, rfl⟩

theorem syncQueuePop_inv (h : SyncInv size st) :
    ∃ st', st.syncQueuePop thread = some st' ∧ SyncInv size st' := by
  obtain ⟨items, hholds, hitems, hsize⟩ := h.items
  unfold SyncState.syncQueuePop
  split
  · rename_i hzero
    have hnil := holds_nil_of_size hholds hzero
    subst hnil
    rw [List.append_nil] at hitems
    split
    · rename_i hterm
      have hpushes : pushes (st.history ++ [.popped none]) = pushes st.history := by
        rw [pushes_snoc]
        exact List.append_nil _
      have hpops : pops (st.history ++ [.popped none]) = pops st.history := by
        rw [pops_snoc]
        exact List.append_nil _
      refine ⟨_, rfl, h.leave (.popped none) hholds ?_ hsize ⟨h.term_iff.mp hterm, hitems⟩ nofun⟩
      rw [hpushes, hpops, hitems, List.append_nil]
    · exact ⟨_, rfl, h.wait .pop fun _ _ => nofun⟩
  · rename_i hne
    obtain ⟨x, rest, rfl⟩ := holds_cons_of_size hholds hne
    obtain ⟨queue, hpop, hholds'⟩ := queuePop_holds hholds
    have hpushes : pushes (st.history ++ [.popped (some x)]) = pushes st.history := by
      rw [pushes_snoc]
      exact List.append_nil _
    have hpops : pops (st.history ++ [.popped (some x)]) = pops st.history ++ [x] :=
      pops_snoc _ _
    refine ⟨_, by rw [hpop]; rfl, h.leave (.popped (some x)) hholds' ?_ (fun hpos => ?_)
      ⟨rest, hitems⟩ nofun⟩
    · rw [hpushes, hpops, hitems, List.append_assoc]
      rfl
    · have hle := hsize hpos
      simp only [List.length_cons] at hle
      omega

theorem syncQueueGetTop_inv (h : SyncInv size st) :
    ∃ st', st.syncQueueGetTop thread = some st' ∧ SyncInv size st' := by
  obtain ⟨items, hholds, hitems, hsize⟩ := h.items
  have hkeep : ∀ r, pushes (st.history ++ [.top r]) = pops (st.history ++ [.top r]) ++ items := by
    intro r
    have hpushes : pushes (st.history ++ [.top r]) = pushes st.history ++ [] := pushes_snoc _ _
    have hpops : pops (st.history ++ [.top r]) = pops st.history ++ [] := pops_snoc _ _
    rw [hpushes, hpops, List.append_nil, List.append_nil, hitems]
  unfold SyncState.syncQueueGetTop
  split
  · rename_i hzero
    have hnil := holds_nil_of_size hholds hzero
    subst hnil
    rw [List.append_nil] at hitems
    split
    · rename_i hterm
      exact ⟨_, rfl, h.leave (.top none) hholds (hkeep none) hsize ⟨h.term_iff.mp hterm, hitems⟩ nofun⟩
    · exact ⟨_, rfl, h.wait .getTop fun _ _ => nofun⟩
  · rename_i hne
    obtain ⟨x, rest, rfl⟩ := holds_cons_of_size hholds hne
    have htop := queueTop_holds hholds
    exact ⟨_, by rw [htop]; rfl, h.leave (.top (some x)) hholds (hkeep (some x)) hsize
      ⟨rest, hitems⟩ nofun⟩

theorem syncQueueFind_inv (h : SyncInv size st) (hit : α → Bool) :
    ∃ st', st.syncQueueFind thread hit = some st' ∧ SyncInv size st' := by
  obtain ⟨items, hholds, hitems, hsize⟩ := h.items
  have hfind := queueFind_holds hholds hit
  have hpushes : pushes (st.history ++ [.found hit (items.find? hit)]) = pushes st.history ++ [] :=
    pushes_snoc _ _
  have hpops : pops (st.history ++ [.found hit (items.find? hit)]) = pops st.history ++ [] :=
    pops_snoc _ _
  refine ⟨_, by rw [SyncState.syncQueueFind, hfind]; rfl,
    h.leave (.found hit (items.find? hit)) hholds ?_ hsize ⟨items, hitems, rfl⟩ nofun⟩
  rw [hpushes, hpops, List.append_nil, List.append_nil, hitems]

theorem syncQueueTerm_inv (h : SyncInv size st) (hterm : st.sq.term = false)
    (hpush : ∀ t item, st.blocked t ≠ some (.push item)) :
    SyncInv size (st.syncQueueTerm thread) where
  max_eq := h.max_eq
  items := by
    obtain ⟨items, hholds, hitems, hsize⟩ := h.items
    have hpushes : pushes (st.history ++ [.terminated]) = pushes st.history ++ [] :=
      pushes_snoc _ _
    have hpops : pops (st.history ++ [.terminated]) = pops st.history ++ [] := pops_snoc _ _
    refine ⟨items, hholds, ?_, hsize⟩
    show pushes (st.history ++ [.terminated]) = pops (st.history ++ [.terminated]) ++ items
    rw [hpushes, hpops, List.append_nil, List.append_nil, hitems]
  term_iff := by simp [SyncState.syncQueueTerm, SyncState.leave]
  no_push := by
    intro _ t item
    simp only [SyncState.syncQueueTerm, SyncState.leave]
    by_cases ht : t = thread
    · simp [ht]
    · rw [Function.update_of_ne ht]
      exact hpush t item
  explained := by
    have hno : .terminated ∉ st.history := by
      rw [← h.term_iff, hterm]
      exact Bool.false_ne_true
    exact h.explained.snoc hno

/-- Every admissible critical section succeeds and keeps the invariant. -/
theorem syncStep_ensures (h : SyncInv size st) {a : SyncAction α} (hok : st.Admissible a) :
    Ensures (fun _ => False) (SyncInv size) (st.step a) := by
  apply toExcept_ensures
  cases a with
  | push thread item node =>
      obtain ⟨-, hnode, hterm⟩ := hok
      rw [SyncState.criticalSection, SyncState.syncQueuePush, if_neg (by simp [hterm])]
      exact pushLoop_inv h hterm item hnode
  | pop thread => exact syncQueuePop_inv h
  | getTop thread => exact syncQueueGetTop_inv h
  | find thread hit => exact syncQueueFind_inv h hit
  | term thread => exact ⟨_, rfl, syncQueueTerm_inv h hok.2.1 hok.2.2⟩
  | wake thread node =>
      obtain ⟨hblocked, hnode⟩ := hok
      rw [SyncState.criticalSection]
      cases hcall : st.blocked thread with
      | none => exact absurd hcall hblocked
      | some call =>
          cases call with
          | push item =>
              have hterm : st.sq.term = false := by
                cases hterm : st.sq.term with
                | false => rfl
                | true => exact absurd hcall (h.no_push hterm thread item)
              exact pushLoop_inv h hterm item hnode
          | pop => exact syncQueuePop_inv h
          | getTop => exact syncQueueGetTop_inv h

/-- The queue is a bounded first-in first-out queue whose termination drains it. -/
theorem syncQueue_fifo {actions : List (SyncAction α)}
    (h : Run SyncState.step SyncState.Admissible (syncQueueNew size) actions st) :
    (∀ a, st.Admissible a → ∃ st', st.step a = .ok st') ∧
      (∃ rest, pushes st.history = pops st.history ++ rest ∧
        st.sq.queue.elemNum = rest.length ∧ (0 < size → (rest.length : Int) ≤ size)) ∧
      (∀ before x between result after,
        st.history = before ++ .top (some x) :: (between ++ .popped result :: after) →
          (∀ r, .popped r ∉ between) → result = some x) ∧
      ∀ before e after, st.history = before ++ e :: after → e = .popped none ∨ e = .top none →
        .terminated ∈ before ∧ pops before = pushes st.history := by
  have hinv : SyncInv size st :=
    h.invariant (SyncInv size) (syncInv_new size) fun s a hs hok => syncStep_ensures hs hok
  obtain ⟨items, hholds, hitems, hsize⟩ := hinv.items
  refine ⟨fun a hok => ?_, ⟨items, hitems, hholds.size_eq, hsize⟩,
    fun before x between result after => hinv.explained.top_next,
    fun before e after => hinv.explained.null⟩
  have hstep := syncStep_ensures hinv hok
  cases heq : st.step a with
  | ok st' => exact ⟨st', rfl⟩
  | error e => exact (hstep.of_error heq).elim

/-- A push that waits until there is room, and the termination. -/
theorem syncQueue_fifo_drained : ∃ st : SyncState Nat,
    st.history = [.pushed 7, .top (some 7), .popped (some 7), .pushed 8, .popped (some 8),
        .terminated, .popped none] ∧
      ∀ before e after, st.history = before ++ e :: after → e = .popped none ∨ e = .top none →
        .terminated ∈ before ∧ pops before = pushes st.history := by
  have h₀ : Run SyncState.step SyncState.Admissible (syncQueueNew 1 : SyncState Nat) []
    (syncQueueNew 1) := .nil
  have h₁ := h₀.snoc (a := SyncAction.push 0 7 0) ⟨rfl, rfl, rfl⟩ rfl
  have h₂ := h₁.snoc (a := SyncAction.push 0 8 1) ⟨rfl, rfl, rfl⟩ rfl
  have h₃ := h₂.snoc (a := SyncAction.getTop 1) (by rfl) rfl
  have h₄ := h₃.snoc (a := SyncAction.pop 1) (by rfl) rfl
  have h₅ := h₄.snoc (a := SyncAction.wake 0 1) ⟨by decide, rfl⟩ rfl
  have h₆ := h₅.snoc (a := SyncAction.pop 1) (by rfl) rfl
  have h₇ := h₆.snoc (a := SyncAction.term 0) ⟨rfl, rfl, by
    intro t item
    simp only [SyncState.leave, SyncState.wait, syncQueueNew, Function.update_apply]
    repeat' split
    all_goals simp⟩ rfl
  have h₈ := h₇.snoc (a := SyncAction.pop 1) (by rfl) rfl
  exact ⟨_, rfl, (syncQueue_fifo h₈).2.2.2⟩

end Invariant

end Destor
