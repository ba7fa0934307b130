/- digest: Least recently used replacement over time-stamped entries, and the lists that realise it. -/

import Mathlib.Data.Set.Card

set_option autoImplicit false
set_option relaxedAutoImplicit false

namespace Destor.Library.Recency

variable {α : Type}

/-- What is held, each entry with the time of its last use, and the time of the next one. -/
structure Store (α : Type) where
  entries : Set (α × Nat)
  now : Nat

namespace Store

def empty : Store α := ⟨∅, 0⟩

/-- Takes an element in, used now. -/
def add (s : Store α) (x : α) : Store α := ⟨insert (x, s.now) s.entries, s.now + 1⟩

def remove (s : Store α) (e : α × Nat) : Store α := ⟨s.entries \ {e}, s.now⟩

/-- The entry is used now. -/
def use (s : Store α) (e : α × Nat) : Store α := (s.remove e).add e.1

end Store

/-- The matching entry that was used last. -/
def MostRecent (entries : Set (α × Nat)) (p : α → Bool) (e : α × Nat) : Prop :=
  e ∈ entries ∧ p e.1 = true ∧ ∀ f ∈ entries, p f.1 = true → f.2 ≤ e.2

/-- The matching entry that has not been used for the longest time. -/
def LeastRecent (entries : Set (α × Nat)) (p : α → Bool) (e : α × Nat) : Prop :=
  e ∈ entries ∧ p e.1 = true ∧ ∀ f ∈ entries, p f.1 = true → e.2 ≤ f.2

def Unmatched (entries : Set (α × Nat)) (p : α → Bool) : Prop := ∀ e ∈ entries, p e.1 = false

/-- A request: to use a matching element, to look at one, to take one in, to drop one. -/
inductive Request (α : Type) where
  | use (p : α → Bool)
  | look (p : α → Bool)
  | add (x : α)
  | drop (p : α → Bool)

/-- What a request gives back, and what it lets go. -/
structure Answer (α : Type) where
  returned : Option α
  freed : Option α
deriving DecidableEq, Repr

inductive Step (bound : Option Nat) : Store α → Request α → Answer α → Store α → Prop
  | use {s : Store α} {p : α → Bool} {e : α × Nat} (h : MostRecent s.entries p e) :
      Step bound s (.use p) ⟨some e.1, none⟩ (s.use e)
  | useNone {s : Store α} {p : α → Bool} (h : Unmatched s.entries p) :
      Step bound s (.use p) ⟨none, none⟩ s
  | look {s : Store α} {p : α → Bool} {e : α × Nat} (h : MostRecent s.entries p e) :
      Step bound s (.look p) ⟨some e.1, none⟩ s
  | lookNone {s : Store α} {p : α → Bool} (h : Unmatched s.entries p) :
      Step bound s (.look p) ⟨none, none⟩ s
  | add {s : Store α} {x : α} (hroom : bound ≠ some s.entries.ncard) :
      Step bound s (.add x) ⟨none, none⟩ (s.add x)
  | evict {s : Store α} {x : α} {e : α × Nat} (hfull : bound = some s.entries.ncard)
      (h : LeastRecent s.entries (fun _ => true) e) :
      Step bound s (.add x) ⟨none, some e.1⟩ ((s.remove e).add x)
  | drop {s : Store α} {p : α → Bool} {e : α × Nat} (h : LeastRecent s.entries p e) :
      Step bound s (.drop p) ⟨none, some e.1⟩ (s.remove e)
  | dropNone {s : Store α} {p : α → Bool} (h : Unmatched s.entries p) :
      Step bound s (.drop p) ⟨none, none⟩ s

inductive Run (bound : Option Nat) : Store α → List (Request α) → List (Answer α) → Store α → Prop
  | nil {s : Store α} : Run bound s [] [] s
  | cons {s s' s'' : Store α} {r : Request α} {a : Answer α} {requests : List (Request α)}
      {answers : List (Answer α)} (step : Step bound s r a s')
      (run : Run bound s' requests answers s'') :
      Run bound s (r :: requests) (a :: answers) s''

/-- The list has the held elements in the order of their last use, the latest one first. -/
def Store.Lists (s : Store α) (queue : List α) : Prop :=
  ∃ stamped : List (α × Nat), stamped.map Prod.fst = queue ∧
    stamped.Pairwise (fun e f => f.2 < e.2) ∧ (∀ e, e ∈ stamped ↔ e ∈ s.entries) ∧
    ∀ e ∈ stamped, e.2 < s.now

section Lists

variable {s : Store α} {queue : List α} {p : α → Bool} {x : α}

theorem lists_empty : (Store.empty : Store α).Lists [] :=
  ⟨[], rfl, List.Pairwise.nil, fun e => by simp [Store.empty], fun e he => absurd he List.not_mem_nil⟩

private theorem nodup_stamped {stamped : List (α × Nat)}
    (horder : stamped.Pairwise fun e f => f.2 < e.2) :
    stamped.Nodup := by
  apply horder.imp
  rintro e f hlt rfl
  exact Nat.lt_irrefl _ hlt

theorem Store.Lists.ncard (h : s.Lists queue) : s.entries.ncard = queue.length := by
  classical
  obtain ⟨stamped, rfl, horder, hmem, -⟩ := h
  have hset : s.entries = (stamped.toFinset : Set (α × Nat)) := by
    ext e
    rw [Finset.mem_coe, List.mem_toFinset]
    exact (hmem e).symm
  rw [hset, Set.ncard_coe_finset, List.toFinset_card_of_nodup (nodup_stamped horder), List.length_map]

theorem Store.Lists.unmatched (h : s.Lists queue) (hnone : ∀ x ∈ queue, p x = false) :
    Unmatched s.entries p := by
  obtain ⟨stamped, rfl, -, hmem, -⟩ := h
  intro e he
  exact hnone e.1 (List.mem_map_of_mem ((hmem e).mpr he))

/-- A new element comes in front. -/
theorem Store.Lists.add (h : s.Lists queue) (x : α) : (s.add x).Lists (x :: queue) := by
  obtain ⟨stamped, rfl, horder, hmem, hnow⟩ := h
  refine ⟨(x, s.now) :: stamped, rfl, List.pairwise_cons.mpr ⟨hnow, horder⟩, ?_, ?_⟩
  · intro e
    rw [List.mem_cons, hmem]
    rfl
  · intro e he
    rcases List.mem_cons.mp he with rfl | he
    · exact Nat.lt_succ_self _
    · exact Nat.lt_succ_of_lt (hnow e he)

section Entry

variable {stamped front back : List (α × Nat)} {e : α × Nat}

private theorem lists_remove (horder : (front ++ e :: back).Pairwise fun e f => f.2 < e.2)
    (hmem : ∀ f, f ∈ front ++ e :: back ↔ f ∈ s.entries)
    (hnow : ∀ f ∈ front ++ e :: back, f.2 < s.now) :
    (s.remove e).Lists ((front ++ back).map Prod.fst) := by
  have hsub : (front ++ back).Sublist (front ++ e :: back) :=
    List.Sublist.append_left (List.sublist_cons_self e back) front
  have hnodup : (e :: (front ++ back)).Nodup := List.nodup_middle.mp (nodup_stamped horder)
  refine ⟨front ++ back, rfl, horder.sublist hsub, ?_, fun f hf => hnow f (hsub.subset hf)⟩
  intro f
  constructor
  · intro hf
    refine ⟨(hmem f).mp (hsub.subset hf), ?_⟩
    rintro rfl
    exact (List.nodup_cons.mp hnodup).1 hf
  · rintro ⟨hf, hne⟩
    rcases List.mem_cons.mp (List.perm_middle.mem_iff.mp ((hmem f).mpr hf)) with rfl | hf
    · exact absurd rfl hne
    · exact hf

private theorem mostRecent_of_split (horder : (front ++ e :: back).Pairwise fun e f => f.2 < e.2)
    (hmem : ∀ f, f ∈ front ++ e :: back ↔ f ∈ s.entries) (hp : p e.1 = true)
    (hfront : ∀ f ∈ front, p f.1 = false) : MostRecent s.entries p e := by
  refine ⟨(hmem e).mp (by simp), hp, ?_⟩
  intro f hf hpf
  rcases List.mem_append.mp ((hmem f).mpr hf) with hf | hf
  · simp [hfront f hf] at hpf
  · have hback := (List.pairwise_cons.mp (List.pairwise_append.mp horder).2.1).1
    rcases List.mem_cons.mp hf with rfl | hf
    · exact Nat.le_refl _
    · exact Nat.le_of_lt (hback f hf)

private theorem leastRecent_of_split (horder : (front ++ e :: back).Pairwise fun e f => f.2 < e.2)
    (hmem : ∀ f, f ∈ front ++ e :: back ↔ f ∈ s.entries) (hp : p e.1 = true)
    (hback : ∀ f ∈ back, p f.1 = false) : LeastRecent s.entries p e := by
  refine ⟨(hmem e).mp (by simp), hp, ?_⟩
  intro f hf hpf
  rcases List.mem_append.mp ((hmem f).mpr hf) with hf | hf
  · have hcross := (List.pairwise_append.mp horder).2.2 f hf e List.mem_cons_self
    exact Nat.le_of_lt hcross
  · rcases List.mem_cons.mp hf with rfl | hf
    · exact Nat.le_refl _
    · simp [hback f hf] at hpf

private theorem split_of_find? (h : (stamped.map Prod.fst).find? p = some x) :
    ∃ front back, ∃ e : α × Nat, stamped = front ++ e :: back ∧ e.1 = x ∧ p e.1 = true ∧
      (∀ f ∈ front, p f.1 = false) ∧
      (stamped.map Prod.fst).eraseP p = (front ++ back).map Prod.fst := by
  rw [List.find?_map, Option.map_eq_some_iff] at h
  obtain ⟨e, hfind, rfl⟩ := h
  obtain ⟨hp, front, back, rfl, hfront⟩ := List.find?_eq_some_iff_append.mp hfind
  have hfront' : ∀ f ∈ front, p f.1 = false := fun f hf => by simpa using hfront f hf
  refine ⟨front, back, e, rfl, rfl, hp, hfront', ?_⟩
  rw [List.eraseP_map, List.eraseP_append_right, List.eraseP_cons_of_pos hp]
  intro f hf
  simp [hfront' f hf]

end Entry

/-- The first match of the list is the one used last; using it brings it to the front. -/
theorem Store.Lists.use (h : s.Lists queue) (hfind : queue.find? p = some x) :
    ∃ e, MostRecent s.entries p e ∧ e.1 = x ∧ (s.use e).Lists (x :: queue.eraseP p) := by
  obtain ⟨stamped, rfl, horder, hmem, hnow⟩ := h
  obtain ⟨front, back, e, rfl, rfl, hp, hfront, herase⟩ := split_of_find? hfind
  rw [herase]
  exact ⟨e, mostRecent_of_split horder hmem hp hfront, rfl,
    (lists_remove horder hmem hnow).add e.1⟩

/-- The last match of the list is the one not used for the longest time. -/
theorem Store.Lists.drop (h : s.Lists queue) (hfind : queue.reverse.find? p = some x) :
    ∃ e, LeastRecent s.entries p e ∧ e.1 = x ∧
      (s.remove e).Lists (queue.reverse.eraseP p).reverse := by
  obtain ⟨stamped, rfl, horder, hmem, hnow⟩ := h
  rw [← List.map_reverse] at hfind
  obtain ⟨back, front, e, hsplit, rfl, hp, hback, herase⟩ := split_of_find? hfind
  have hstamped : stamped = front.reverse ++ e :: back.reverse := by
    rw [← List.reverse_reverse stamped, hsplit]
    simp
  subst hstamped
  have hlists := lists_remove horder hmem hnow
  rw [← List.map_reverse, herase, ← List.map_reverse, List.reverse_append]
  exact ⟨e, leastRecent_of_split horder hmem hp (fun f hf => hback f (List.mem_reverse.mp hf)),
    rfl, hlists⟩

end Lists

end Destor.Library.Recency
