/- digest: The two monitors a backup feeds chunk by chunk: container utilization, restore cache. -/

import Destor.Storage.Containerstore
import Destor.Utils.LruCache

set_option autoImplicit false
set_option relaxedAutoImplicit false

namespace Destor

/-- `monitor` of the restore-aware cache simulation. A `containerRecord` in the cache is known by
its container id alone. -/
structure RestoreAware where
  totalSize : Nat
  ocf : Nat
  ccf : Nat
  cache : LruCache Int

def initRestoreAware (cfg : Config) : RestoreAware :=
  { totalSize := 0, ocf := 0, ccf := 0, cache := LruCache.newLruCache cfg.restoreCacheSize }

def restoreAwareUpdate (m : RestoreAware) (id : Int) (chunklen : Nat) : RestoreAware :=
  let totalSize := m.totalSize + (chunklen + containerMetaEntry)
  let ocf := (totalSize + containerSize - 1) / containerSize
  match m.cache.lookup (· == id) with
  | (some _, cache) => { totalSize := totalSize, ocf := ocf, ccf := m.ccf, cache := cache }
  | (none, cache) =>
      { totalSize := totalSize, ocf := ocf, ccf := m.ccf + 1, cache := cache.insert id }

def restoreAwareContains (m : RestoreAware) (id : Int) : Bool :=
  (m.cache.lookupWithoutUpdate (· == id)).isSome

/-- `har_monitor_update`: the utilization of a container grows by the size of a chunk, in the
32 bits of `containerRecord.size`. -/
def harMonitorUpdate (monitor : IdMap Int) (id : Int) (size : Nat) : IdMap Int :=
  monitor.insert id (toInt32 ((monitor.lookup id).getD 0 + size))

section RestoreAware

/-- The simulated cache only ever holds ids it was updated with. -/
theorem mem_restoreAwareUpdate {m : RestoreAware} {id i : Int} {chunklen : Nat}
    (h : i ∈ (restoreAwareUpdate m id chunklen).cache.elemQueue) :
    i = id ∨ i ∈ m.cache.elemQueue := by
  have hmem := fun e => LruCache.mem_lookup_snd (e := e) m.cache (· == id)
  unfold restoreAwareUpdate at h
  generalize m.cache.lookup (· == id) = r at h hmem
  obtain ⟨_ | e, cache⟩ := r
  · rcases LruCache.mem_of_mem_insert h with rfl | h
    · exact Or.inl rfl
    · exact Or.inr ((hmem i).mp h)
  · exact Or.inr ((hmem i).mp h)

theorem mem_of_restoreAwareContains {m : RestoreAware} {id : Int}
    (h : restoreAwareContains m id = true) : id ∈ m.cache.elemQueue := by
  obtain ⟨e, he⟩ := Option.isSome_iff_exists.mp h
  have := List.find?_some he
  simp only [beq_iff_eq] at this
  exact this ▸ List.mem_of_find?_eq_some he

end RestoreAware

section Har

@[simp] theorem mem_harMonitorUpdate {monitor : IdMap Int} {id i : Int} {size : Nat} :
    i ∈ harMonitorUpdate monitor id size ↔ i = id ∨ i ∈ monitor := by
  simp [harMonitorUpdate]

end Har

end Destor
