/- digest: Any sequence of calls on an LRU cache is least recently used replacement. -/

import Destor.Library.Recency
import Destor.Utils.LruRecency

set_option autoImplicit false
set_option relaxedAutoImplicit false

namespace Destor.LruCache

open Library
open Recency (Request Answer Step Run)

variable {α : Type}

/-- The element that `lru_cache_insert` takes off the end of the list and frees. -/
def victim (c : LruCache α) : Option α :=
  if 0 < c.maxSize ∧ (c.size : Int) = c.maxSize then c.elemQueue.getLast? else none

/-- The element that `lru_cache_kicks` finds from the end of the list and frees. -/
def kicked (c : LruCache α) (func : α → Bool) : Option α := c.elemQueue.reverse.find? func

/-- A call of one of the functions on the cache, with the predicate or the element it is given. -/
inductive Call (α : Type) where
  | lookup (hit : α → Bool)
  | lookupWithoutUpdate (hit : α → Bool)
  | hits (hit : α → Bool)
  | insert (data : α)
  | kicks (func : α → Bool)

/-- Makes a call: what it returns, what it frees, and the cache afterwards. -/
def call (c : LruCache α) : Call α → Answer α × LruCache α
  | .lookup hit => (⟨(c.lookup hit).1, none⟩, (c.lookup hit).2)
  | .lookupWithoutUpdate hit => (⟨c.lookupWithoutUpdate hit, none⟩, c)
  | .hits hit => (⟨(c.hits hit).1, none⟩, (c.hits hit).2)
  | .insert data => (⟨none, c.victim⟩, c.insert data)
  | .kicks func => (⟨none, c.kicked func⟩, c.kicks func)

def calls (c : LruCache α) : List (Call α) → List (Answer α) × LruCache α
  | [] => ([], c)
  | op :: ops =>
      let (answer, c) := c.call op
      let (answers, c) := calls c ops
      (answer :: answers, c)

def Call.request : Call α → Request α
  | .lookup hit => .use hit
  | .lookupWithoutUpdate hit => .look hit
  | .hits hit => .use hit
  | .insert data => .add data
  | .kicks func => .drop func

def Call.inserted : Call α → Option α
  | .insert data => some data
  | _ => none

/-- The bound of the replacement; `max_size` is one where it is positive. -/
def bound (maxSize : Int) : Option Nat := if 0 < maxSize then some maxSize.toNat else none

section Call

variable {c : LruCache α} {s : Recency.Store α}

/-- Nothing is kicked out where nothing satisfies `func`. -/
theorem kicks_of_find?_none {func : α → Bool} (h : c.elemQueue.reverse.find? func = none) :
    c.kicks func = c := by
  apply if_neg
  rw [List.any_eq_true]
  rintro ⟨x, hx, hfunc⟩
  exact List.find?_eq_none.mp h x (List.mem_reverse.mpr hx) hfunc

theorem WithinBound.kicks (h : c.WithinBound) (func : α → Bool) : (c.kicks func).WithinBound := by
  cases hfind : c.elemQueue.reverse.find? func with
  | none => exact (kicks_of_find?_none hfind).symm ▸ h
  | some e =>
      obtain ⟨queue, heq, hperm⟩ := kicks_spec hfind
      have hlen := hperm.length_eq
      have hsize := h.size_eq
      have hle := h.size_le
      rw [List.length_cons] at hlen
      rw [heq]
      refine ⟨?_, fun hpos => ?_⟩
      · show c.size - 1 = queue.length
        omega
      · have hle := hle hpos
        show ((c.size - 1 : Nat) : Int) ≤ c.maxSize
        omega

theorem WithinBound.call (h : c.WithinBound) (op : Call α) : (c.call op).2.WithinBound := by
  cases op with
  | lookup hit => exact h.lookup hit
  | lookupWithoutUpdate hit => exact h
  | hits hit => exact h.hits hit
  | insert data => exact h.insert data
  | kicks func => exact h.kicks func

theorem hits_perm (c : LruCache α) (hit : α → Bool) :
    (c.hits hit).2.elemQueue.Perm c.elemQueue := by
  rw [LruCache.hits]
  split
  · exact moveToFront_perm hit _
  · exact List.Perm.refl _

@[simp] theorem maxSize_call (c : LruCache α) (op : Call α) :
    (c.call op).2.maxSize = c.maxSize := by
  cases op with
  | lookup hit =>
      show (c.lookup hit).2.maxSize = _
      unfold LruCache.lookup
      split <;> rfl
  | lookupWithoutUpdate hit => rfl
  | hits hit => exact maxSize_hits c hit
  | insert data => exact maxSize_insert c data
  | kicks func =>
      show (c.kicks func).maxSize = _
      unfold LruCache.kicks
      split <;> rfl

theorem bound_eq_iff (h : c.WithinBound) (hlists : s.Lists c.elemQueue) :
    bound c.maxSize = some s.entries.ncard ↔ 0 < c.maxSize ∧ (c.size : Int) = c.maxSize := by
  have hsize := h.size_eq
  rw [hlists.ncard, bound]
  split
  · rename_i hpos
    rw [Option.some_inj]
    omega
  · rename_i hpos
    simp [hpos]

private theorem step_use (hlists : s.Lists c.elemQueue) (hit : α → Bool) (b : Option Nat) :
    ∃ s', Step b s (.use hit) ⟨c.elemQueue.find? hit, none⟩ s' ∧
      s'.Lists (moveToFront hit c.elemQueue) := by
  unfold moveToFront
  cases hfind : c.elemQueue.find? hit with
  | some x =>
      obtain ⟨e, hrecent, rfl, hlists'⟩ := hlists.use hfind
      exact ⟨s.use e, .use hrecent, hlists'⟩
  | none =>
      have hnone : ∀ x ∈ c.elemQueue, hit x = false := fun x hx => by
        simpa using List.find?_eq_none.mp hfind x hx
      exact ⟨s, .useNone (hlists.unmatched hnone), hlists⟩

private theorem step_look (hlists : s.Lists c.elemQueue) (hit : α → Bool) (b : Option Nat) :
    Step b s (.look hit) ⟨c.elemQueue.find? hit, none⟩ s := by
  cases hfind : c.elemQueue.find? hit with
  | some x =>
      obtain ⟨e, hrecent, rfl, -⟩ := hlists.use hfind
      exact .look hrecent
  | none =>
      apply Step.lookNone (hlists.unmatched fun x hx => ?_)
      simpa using List.find?_eq_none.mp hfind x hx

private theorem step_drop (hlists : s.Lists c.elemQueue) (func : α → Bool) (b : Option Nat) :
    ∃ s', Step b s (.drop func) ⟨none, c.kicked func⟩ s' ∧
      s'.Lists (c.kicks func).elemQueue := by
  rw [kicked]
  cases hfind : c.elemQueue.reverse.find? func with
  | some x =>
      obtain ⟨e, hrecent, rfl, hlists'⟩ := hlists.drop hfind
      refine ⟨s.remove e, .drop hrecent, ?_⟩
      have hany : c.elemQueue.any func = true :=
        List.any_eq_true.mpr ⟨e.1, List.mem_reverse.mp (List.mem_of_find?_eq_some hfind), hrecent.2.1⟩
      rw [LruCache.kicks, if_pos hany]
      exact hlists'
  | none =>
      rw [kicks_of_find?_none hfind]
      refine ⟨s, .dropNone (hlists.unmatched fun x hx => ?_), hlists⟩
      simpa using List.find?_eq_none.mp hfind x (List.mem_reverse.mpr hx)

private theorem step_add (h : c.WithinBound) (hlists : s.Lists c.elemQueue) (data : α) :
    ∃ s', Step (bound c.maxSize) s (.add data) ⟨none, c.victim⟩ s' ∧
      s'.Lists (c.insert data).elemQueue := by
  have hfull := bound_eq_iff h hlists
  rw [insert_elemQueue_kept, victim, kept]
  split
  · rename_i hcond
    have hsize := h.size_eq
    rcases List.eq_nil_or_concat c.elemQueue with hnil | ⟨queue, x, hconcat⟩
    · rw [hnil, List.length_nil] at hsize
      omega
    · have hfind : c.elemQueue.reverse.find? (fun _ => true) = some x := by
        rw [hconcat, List.concat_eq_append, List.reverse_append]
        rfl
      obtain ⟨e, hrecent, rfl, hlists'⟩ := hlists.drop hfind
      rw [hconcat, List.concat_eq_append] at hlists' ⊢
      rw [List.reverse_append] at hlists'
      refine ⟨(s.remove e).add data, ?_, ?_⟩
      · rw [List.getLast?_concat]
        exact .evict (hfull.mpr hcond) hrecent
      · rw [List.dropLast_concat]
        have hqueue : (([e.1].reverse ++ queue.reverse).eraseP fun _ => true).reverse = queue := by
          simp
        rw [hqueue] at hlists'
        exact hlists'.add data
  · rename_i hcond
    exact ⟨s.add data, .add (mt hfull.mp hcond), hlists.add data⟩

/-- Each call is a step of the replacement that keeps the list in the order of last use. -/
theorem call_step (h : c.WithinBound) (hlists : s.Lists c.elemQueue) (op : Call α) :
    ∃ s', Step (bound c.maxSize) s op.request (c.call op).1 s' ∧
      s'.Lists (c.call op).2.elemQueue := by
  cases op with
  | lookup hit =>
      have hqueue : (c.lookup hit).2.elemQueue = moveToFront hit c.elemQueue := by
        rw [LruCache.lookup, moveToFront]
        split <;> rfl
      simp only [call, Call.request, lookup_fst, hqueue]
      exact step_use hlists hit _
  | lookupWithoutUpdate hit => exact ⟨s, step_look hlists hit _, hlists⟩
  | hits hit =>
      have hqueue : (c.hits hit).2.elemQueue = moveToFront hit c.elemQueue := by
        rw [LruCache.hits, moveToFront]
        split <;> rfl
      simp only [call, Call.request, hits_fst, hqueue]
      exact step_use hlists hit _
  | insert data => exact step_add h hlists data
  | kicks func => exact step_drop hlists func _

theorem call_perm (h : c.WithinBound) (op : Call α) :
    ((c.call op).1.freed.toList ++ (c.call op).2.elemQueue).Perm
      (op.inserted.toList ++ c.elemQueue) := by
  cases op with
  | lookup hit => exact lookup_perm c hit
  | lookupWithoutUpdate hit => exact List.Perm.refl _
  | hits hit => exact hits_perm c hit
  | insert data =>
      simp only [call, Call.inserted, insert_elemQueue_kept, victim, kept]
      split
      · rename_i hcond
        have hsize := h.size_eq
        rcases List.eq_nil_or_concat c.elemQueue with hnil | ⟨queue, x, hconcat⟩
        · rw [hnil, List.length_nil] at hsize
          omega
        · rw [hconcat, List.concat_eq_append, List.getLast?_concat, List.dropLast_concat]
          exact (List.perm_middle.symm.trans (List.perm_append_singleton x (data :: queue)).symm)
      · exact List.Perm.refl _
  | kicks func =>
      cases hfind : c.elemQueue.reverse.find? func with
      | none =>
          simp only [call, kicked, hfind, kicks_of_find?_none hfind]
          exact List.Perm.refl _
      | some e =>
          obtain ⟨queue, heq, hperm⟩ := kicks_spec hfind
          simp only [call, kicked, hfind, heq]
          exact hperm.symm

end Call

section Calls

open scoped List

variable {c : LruCache α} {s : Recency.Store α}

theorem WithinBound.calls (h : c.WithinBound) (ops : List (Call α)) :
    (c.calls ops).2.WithinBound := by
  induction ops generalizing c with
  | nil => exact h
  | cons op ops ih => exact ih (h.call op)

@[simp] theorem maxSize_calls (c : LruCache α) (ops : List (Call α)) :
    (c.calls ops).2.maxSize = c.maxSize := by
  induction ops generalizing c with
  | nil => rfl
  | cons op ops ih => exact (ih (c.call op).2).trans (maxSize_call c op)

theorem calls_run (h : c.WithinBound) (hlists : s.Lists c.elemQueue) (ops : List (Call α)) :
    ∃ s', Run (bound c.maxSize) s (ops.map Call.request) (c.calls ops).1 s' ∧
      s'.Lists (c.calls ops).2.elemQueue := by
  induction ops generalizing c s with
  | nil => exact ⟨s, .nil, hlists⟩
  | cons op ops ih =>
      obtain ⟨s₁, hstep, hlists₁⟩ := call_step h hlists op
      obtain ⟨s₂, hrun, hlists₂⟩ := ih (h.call op) hlists₁
      rw [maxSize_call] at hrun
      exact ⟨s₂, .cons hstep hrun, hlists₂⟩

private theorem filterMap_cons_toList {β γ : Type} (f : β → Option γ) (b : β) (l : List β) :
    (b :: l).filterMap f = (f b).toList ++ l.filterMap f := by
  cases hb : f b <;> simp [hb]

theorem calls_perm (h : c.WithinBound) (ops : List (Call α)) :
    ((c.calls ops).1.filterMap Answer.freed ++ (c.calls ops).2.elemQueue).Perm
      (ops.filterMap Call.inserted ++ c.elemQueue) := by
  induction ops generalizing c with
  | nil => exact List.Perm.refl _
  | cons op ops ih =>
      have hcall := call_perm h op
      have hrest := ih (h.call op)
      simp only [calls, filterMap_cons_toList, List.append_assoc]
      calc
        _ ~ _ := hrest.append_left _
        _ ~ _ := List.perm_append_comm_assoc _ _ _
        _ ~ _ := hcall.append_left _
        _ ~ _ := List.perm_append_comm_assoc _ _ _

/-- However the functions of the cache are called, it is least recently used replacement: the list
is within its bound and in the order of last use, each call returns and frees what the replacement
does, and an element that was inserted once is either in the list or freed, and that once. -/
theorem calls_least_recently_used (maxSize : Int) (ops : List (Call α)) :
    let cache := ((newLruCache maxSize : LruCache α).calls ops).2
    let answers := ((newLruCache maxSize : LruCache α).calls ops).1
    cache.size = cache.elemQueue.length ∧ (0 < maxSize → (cache.size : Int) ≤ maxSize) ∧
      (∃ s, Run (bound maxSize) Recency.Store.empty (ops.map Call.request) answers s ∧
        s.Lists cache.elemQueue) ∧
      (answers.filterMap Answer.freed ++ cache.elemQueue).Perm (ops.filterMap Call.inserted) ∧
      ((ops.filterMap Call.inserted).Nodup →
        (answers.filterMap Answer.freed ++ cache.elemQueue).Nodup) := by
  intro cache answers
  have hnew : (newLruCache maxSize : LruCache α).WithinBound := withinBound_new maxSize
  have hbound : cache.WithinBound := hnew.calls ops
  have hmax : cache.maxSize = maxSize := maxSize_calls _ ops
  have hperm : (answers.filterMap Answer.freed ++ cache.elemQueue).Perm
      (ops.filterMap Call.inserted) := by
    have h := calls_perm hnew ops
    rwa [show (newLruCache maxSize : LruCache α).elemQueue = [] from rfl, List.append_nil] at h
  refine ⟨hbound.size_eq, ?_, ?_, hperm, hperm.nodup_iff.mpr⟩
  · exact hmax ▸ hbound.size_le
  · exact calls_run hnew Library.Recency.lists_empty ops

end Calls

end Destor.LruCache
