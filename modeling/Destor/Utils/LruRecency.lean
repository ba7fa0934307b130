/- digest: The LRU cache as least recently used replacement over the keys of its elements. -/

import Destor.Library.Lru
import Destor.Utils.LruCache

set_option autoImplicit false
set_option relaxedAutoImplicit false

namespace Destor.LruCache

open Library.Lru

variable {α κ : Type} {c : LruCache α} {x : α}

/-- The elements that stay when another one is inserted. -/
def kept (c : LruCache α) : List α :=
  if 0 < c.maxSize ∧ (c.size : Int) = c.maxSize then c.elemQueue.dropLast else c.elemQueue

theorem insert_elemQueue_kept (c : LruCache α) (x : α) :
    (c.insert x).elemQueue = x :: c.kept := by
  rw [LruCache.insert, kept]
  split <;> rfl

theorem kept_sublist (c : LruCache α) : c.kept.Sublist c.elemQueue := by
  rw [kept]
  split
  · exact List.dropLast_sublist _
  · exact List.Sublist.refl _

theorem lookup_perm (c : LruCache α) (hit : α → Bool) :
    (c.lookup hit).2.elemQueue.Perm c.elemQueue := by
  rw [lookup]
  split
  · exact moveToFront_perm hit _
  · exact List.Perm.refl _

theorem insert_elemQueue_eq (h : c.WithinBound) (hpos : 0 < c.maxSize) (x : α) :
    (c.insert x).elemQueue = (x :: c.elemQueue).take c.maxSize.toNat := by
  have hsize := h.size_eq
  have hle := h.size_le hpos
  unfold LruCache.insert
  split
  · obtain ⟨n, hn⟩ : ∃ n, c.maxSize.toNat = n + 1 := ⟨c.maxSize.toNat - 1, by omega⟩
    rw [hn, List.take_succ_cons, List.dropLast_eq_take]
    have hlen : c.elemQueue.length - 1 = n := by omega
    rw [hlen]
  · refine (List.take_of_length_le ?_).symm
    rw [List.length_cons]
    omega

@[simp] theorem maxSize_insert (c : LruCache α) (x : α) : (c.insert x).maxSize = c.maxSize := by
  unfold LruCache.insert
  split <;> rfl

@[simp] theorem maxSize_hits (c : LruCache α) (hit : α → Bool) :
    (c.hits hit).2.maxSize = c.maxSize := by
  unfold hits
  split <;> rfl

variable {key : α → κ} {k : κ}

theorem length_keys_le (h : c.WithinBound) (hpos : 0 < c.maxSize) :
    (c.elemQueue.map key).length ≤ c.maxSize.toNat := by
  have hsize := h.size_eq
  have hle := h.size_le hpos
  rw [List.length_map]
  omega

variable [DecidableEq κ]

theorem find?_key_isSome (queue : List α) :
    (queue.find? fun e => key e == k).isSome = true ↔ k ∈ queue.map key := by
  rw [List.find?_isSome, List.mem_map]
  constructor
  · rintro ⟨e, he, hk⟩
    exact ⟨e, he, eq_of_beq hk⟩
  · rintro ⟨e, he, hk⟩
    exact ⟨e, he, beq_iff_eq.mpr hk⟩

/-- What a hit moves to the front is the key asked for. -/
theorem map_moveToFront {queue : List α} (h : k ∈ queue.map key) :
    (moveToFront (fun e => key e == k) queue).map key = k :: (queue.map key).erase k := by
  obtain ⟨e, he⟩ := Option.isSome_iff_exists.mp ((find?_key_isSome queue).mpr h)
  have hkey : key e = k := by simpa using List.find?_some he
  rw [moveToFront_of_find? he, List.map_cons, hkey, List.erase_eq_eraseP', List.eraseP_map]
  rfl

/-- Asking for a key that is there is an access of the replacement. -/
theorem keys_hits (h : c.WithinBound) (hpos : 0 < c.maxSize) (hk : k ∈ c.elemQueue.map key) :
    (c.hits fun e => key e == k).2.elemQueue.map key =
      access c.maxSize.toNat (c.elemQueue.map key) k := by
  obtain ⟨e, he⟩ := Option.isSome_iff_exists.mp ((find?_key_isSome c.elemQueue).mpr hk)
  rw [hits_of_find? he, access_hit hk (length_keys_le h hpos)]
  exact map_moveToFront hk

/-- Putting in what is not there is one, too. -/
theorem keys_insert (h : c.WithinBound) (hpos : 0 < c.maxSize)
    (hk : key x ∉ c.elemQueue.map key) :
    (c.insert x).elemQueue.map key =
      access c.maxSize.toNat (c.elemQueue.map key) (key x) := by
  rw [insert_elemQueue_eq h hpos, access_miss hk, List.map_take, List.map_cons]

theorem hits_of_not_mem (hk : k ∉ c.elemQueue.map key) :
    c.hits (fun e => key e == k) = (none, c) := by
  apply hits_of_find?_none
  apply Option.not_isSome_iff_eq_none.mp
  exact mt (find?_key_isSome c.elemQueue).mp hk

theorem hits_of_mem (hk : k ∈ c.elemQueue.map key) :
    ∃ e, c.hits (fun e => key e == k) = (some e, (c.hits fun e => key e == k).2) := by
  obtain ⟨e, he⟩ := Option.isSome_iff_exists.mp ((find?_key_isSome c.elemQueue).mpr hk)
  exact ⟨e, by rw [hits_of_find? he]⟩

end Destor.LruCache
