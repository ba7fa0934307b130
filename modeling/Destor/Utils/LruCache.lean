/- digest: The list-based LRU cache; what it holds, and what an access moves or evicts. -/

import Mathlib.Data.List.Basic

set_option autoImplicit false
set_option relaxedAutoImplicit false

namespace Destor

/-- `struct lruCache`: `elem_queue` with the most recent element first. -/
structure LruCache (α : Type) where
  elemQueue : List α
  maxSize : Int
  size : Nat
  hitCount : Nat
  missCount : Nat
deriving DecidableEq, Repr

namespace LruCache

variable {α : Type}

def newLruCache (size : Int) : LruCache α :=
  { elemQueue := [], maxSize := size, size := 0, hitCount := 0, missCount := 0 }

def moveToFront (hit : α → Bool) (queue : List α) : List α :=
  match queue.find? hit with
  | some e => e :: queue.eraseP hit
  | none => queue

def lookup (c : LruCache α) (hit : α → Bool) : Option α × LruCache α :=
  match c.elemQueue.find? hit with
  | some e =>
      (some e, { c with elemQueue := moveToFront hit c.elemQueue, hitCount := c.hitCount + 1 })
  | none => (none, { c with missCount := c.missCount + 1 })

def lookupWithoutUpdate (c : LruCache α) (hit : α → Bool) : Option α := c.elemQueue.find? hit

def hits (c : LruCache α) (hit : α → Bool) : Option α × LruCache α :=
  match c.elemQueue.find? hit with
  | some e => (some e, { c with elemQueue := moveToFront hit c.elemQueue })
  | none => (none, c)

/-- `lru_cache_insert`; a cache without positive bound never evicts. -/
def insert (c : LruCache α) (data : α) : LruCache α :=
  if 0 < c.maxSize ∧ (c.size : Int) = c.maxSize then
    { c with elemQueue := data :: c.elemQueue.dropLast, size := c.size - 1 + 1 }
  else
    { c with elemQueue := data :: c.elemQueue, size := c.size + 1 }

def kicks (c : LruCache α) (func : α → Bool) : LruCache α :=
  if c.elemQueue.any func then
    { c with elemQueue := (c.elemQueue.reverse.eraseP func).reverse, size := c.size - 1 }
  else c

def isFull (c : LruCache α) : Bool :=
  if c.maxSize < 0 then false else decide (c.maxSize ≤ c.size)

section Elements

variable {c : LruCache α} {hit : α → Bool} {e : α}

theorem moveToFront_perm (hit : α → Bool) (queue : List α) :
    (moveToFront hit queue).Perm queue := by
  unfold moveToFront
  cases h : queue.find? hit with
  | none => exact List.Perm.refl _
  | some e =>
      induction queue with
      | nil => simp at h
      | cons a q ih =>
          by_cases ha : hit a = true
          · simp only [List.find?_cons_of_pos ha, Option.some.injEq] at h
            subst h
            simp [ha]
          · rw [List.find?_cons_of_neg ha] at h
            simp only [List.eraseP_cons, ha]
            exact (List.Perm.swap a e _).trans ((ih h).cons a)

@[simp] theorem mem_moveToFront (hit : α → Bool) (queue : List α) :
    e ∈ moveToFront hit queue ↔ e ∈ queue :=
  (moveToFront_perm hit queue).mem_iff

@[simp] theorem lookup_fst (c : LruCache α) (hit : α → Bool) :
    (c.lookup hit).1 = c.elemQueue.find? hit := by
  unfold lookup
  cases c.elemQueue.find? hit <;> rfl

@[simp] theorem mem_lookup_snd (c : LruCache α) (hit : α → Bool) :
    e ∈ (c.lookup hit).2.elemQueue ↔ e ∈ c.elemQueue := by
  unfold lookup
  split <;> simp

@[simp] theorem hits_fst (c : LruCache α) (hit : α → Bool) :
    (c.hits hit).1 = c.elemQueue.find? hit := by
  unfold hits
  cases c.elemQueue.find? hit <;> rfl

@[simp] theorem mem_hits_snd (c : LruCache α) (hit : α → Bool) :
    e ∈ (c.hits hit).2.elemQueue ↔ e ∈ c.elemQueue := by
  unfold hits
  split <;> simp

/-- An insertion puts the new element in front; the rest stays, less at most one victim. -/
theorem insert_elemQueue (c : LruCache α) (data : α) :
    (c.insert data).elemQueue = data :: c.elemQueue ∨
      (c.insert data).elemQueue = data :: c.elemQueue.dropLast := by
  unfold insert
  split
  · exact Or.inr rfl
  · exact Or.inl rfl

theorem mem_of_mem_insert {data : α} (h : e ∈ (c.insert data).elemQueue) :
    e = data ∨ e ∈ c.elemQueue := by
  rcases insert_elemQueue c data with hq | hq
  · rw [hq] at h
    exact List.mem_cons.mp h
  · rw [hq] at h
    rcases List.mem_cons.mp h with h | h
    · exact Or.inl h
    · exact Or.inr (List.dropLast_subset _ h)

/-- A successful hit moves the element to the front. -/
theorem hits_of_find? (h : c.elemQueue.find? hit = some e) :
    c.hits hit = (some e, { c with elemQueue := moveToFront hit c.elemQueue }) := by
  simp only [hits, h]

theorem hits_of_find?_none (h : c.elemQueue.find? hit = none) : c.hits hit = (none, c) := by
  simp only [hits, h]

theorem moveToFront_of_find? {queue : List α} (h : queue.find? hit = some e) :
    moveToFront hit queue = e :: queue.eraseP hit := by
  simp only [moveToFront, h]

/-- Below its bound a cache takes a new element without evicting. -/
theorem insert_of_lt (h : (c.size : Int) < c.maxSize) (data : α) :
    c.insert data = { c with elemQueue := data :: c.elemQueue, size := c.size + 1 } :=
  if_neg fun hfull => absurd hfull.2 (Int.ne_of_lt h)

/-- The element kicked out is the last one that satisfies `func`; the others stay. -/
theorem kicks_spec {func : α → Bool} (h : c.elemQueue.reverse.find? func = some e) :
    ∃ queue, c.kicks func = { c with elemQueue := queue, size := c.size - 1 } ∧
      c.elemQueue.Perm (e :: queue) := by
  have hany : c.elemQueue.any func = true := by
    refine List.any_eq_true.mpr ⟨e, ?_, List.find?_some h⟩
    exact List.mem_reverse.mp (List.mem_of_find?_eq_some h)
  refine ⟨(c.elemQueue.reverse.eraseP func).reverse, if_pos hany, ?_⟩
  have hfront := moveToFront_perm func c.elemQueue.reverse
  rw [moveToFront_of_find? h] at hfront
  apply ((List.reverse_perm _).symm.trans hfront.symm).trans
  exact (List.reverse_perm _).symm.cons e

end Elements

section Capacity

/-- The element count is tracked and a positive bound is respected. -/
structure WithinBound (c : LruCache α) : Prop where
  size_eq : c.size = c.elemQueue.length
  size_le : 0 < c.maxSize → (c.size : Int) ≤ c.maxSize

theorem withinBound_new (size : Int) : (newLruCache size : LruCache α).WithinBound :=
  ⟨rfl, fun h => Int.le_of_lt h⟩

theorem WithinBound.lookup {c : LruCache α} (h : c.WithinBound) (hit : α → Bool) :
    (c.lookup hit).2.WithinBound := by
  unfold LruCache.lookup
  split
  · exact ⟨by simpa using h.size_eq.trans (moveToFront_perm hit _).length_eq.symm, h.size_le⟩
  · exact ⟨h.size_eq, h.size_le⟩

theorem WithinBound.insert {c : LruCache α} (h : c.WithinBound) (data : α) :
    (c.insert data).WithinBound := by
  have hsize := h.size_eq
  have hle := h.size_le
  unfold LruCache.insert
  split
  · refine ⟨?_, ?_⟩
    · simp only [List.length_cons, List.length_dropLast]
      omega
    · intro hmax
      simp only at hmax ⊢
      omega
  · refine ⟨by simp [hsize], ?_⟩
    intro hmax
    simp only at hmax ⊢
    have := hle hmax
    omega

theorem WithinBound.hits {c : LruCache α} (h : c.WithinBound) (hit : α → Bool) :
    (c.hits hit).2.WithinBound := by
  unfold LruCache.hits
  split
  · exact ⟨by simpa using h.size_eq.trans (moveToFront_perm hit _).length_eq.symm, h.size_le⟩
  · exact h

end Capacity

end LruCache

end Destor
