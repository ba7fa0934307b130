/- digest: When containers that were filled under the guard are read back from the pool file. -/

import Destor.Library.RelatedLists
import Destor.Storage.ContainerFile

set_option autoImplicit false
set_option relaxedAutoImplicit false

namespace Destor

open Library.Outcome Library.Bytes Library.RelatedLists

def addChunk (cfg : Config) (c : Container) (ck : Chunk) : Except Abort Container := do
  let r ← addChunkToContainer cfg c ck
  return r.2.1

def fillContainer (cfg : Config) (pool : ContainerPool) (chunks : List Chunk) :
    Except Abort Container :=
  foldE (addChunk cfg) (createContainer cfg pool).1 chunks

section Fill

variable {cfg : Config} {pool : ContainerPool} {c : Container} {chunks : List Chunk} {ck : Chunk}

theorem filled_of_fillContainer
    (hcontent : ∀ ck ∈ chunks, cfg.simulationLevel.writesData = true → ck.data.length = ck.size)
    (h : fillContainer cfg pool chunks = .ok c) :
    Filled cfg c chunks ∧ c.id = pool.containerCount := by
  refine foldE_done (fun done c => Filled cfg c done ∧ c.id = pool.containerCount) ?_
    ⟨.create pool, rfl⟩ h
  rintro done ck c c' hdone ⟨hfilled, hid⟩ hstep
  obtain ⟨r, hadd, hstep⟩ := bind_ok_iff.mp hstep
  cases hstep
  have hmem : ck ∈ chunks := hdone.subset (List.mem_append_right _ List.mem_cons_self)
  obtain ⟨hroom, hends⟩ := addChunkToContainer_ok hadd
  refine ⟨hfilled.add hroom (hcontent ck hmem) hadd, ?_⟩
  rcases hends with ⟨-, rfl⟩ | ⟨-, -, rfl⟩
  · exact hid
  · exact hid

/-- A container that took a chunk is not empty. -/
theorem FillInv.isEmpty_eq (h : FillInv cfg c chunks) (hne : chunks ≠ []) : c.isEmpty = false := by
  obtain ⟨ck, rest, rfl⟩ := List.exists_cons_of_ne_nil hne
  have hfirst := h.first ck.fp
  have hhead : firstAdded (ck :: rest) ck.fp = some ck := by simp [firstAdded]
  rw [hhead] at hfirst
  obtain ⟨e, he, -⟩ := Option.map_eq_some_iff.mp hfirst
  have hcount := h.counted
  unfold Container.Counted at hcount
  have hmem : (⟨ck.fp, e⟩ : (_ : Fingerprint) × MetaEntry) ∈ c.map.entries :=
    AList.mem_lookup_iff.mp he
  have hpos := List.length_pos_of_mem hmem
  simp only [ContainerMeta.isEmpty, beq_eq_false_iff_ne]
  omega

end Fill

namespace ContainerStore

section Offsets

variable {cfg : Config} {order : TableOrder} {s s' : ContainerStore} {c c' : Container}

end Offsets

/-- Chunks for a set of new containers: their ids differ, each container takes a chunk, and no chunk is
added where `container_overflow` holds. -/
structure GuardedFills (cfg : Config) (inputs : List (ContainerPool × List Chunk)) : Prop where
  ids : (inputs.map fun p => p.1.containerCount).Nodup
  id_lt : ∀ p ∈ inputs, p.1.containerCount < 2 ^ 63
  nonempty : ∀ p ∈ inputs, p.2 ≠ []
  guarded : ∀ p ∈ inputs, fillContainer cfg p.1 p.2 ≠ .error .containerOverflow
  content : ∀ p ∈ inputs, ∀ ck ∈ p.2, cfg.simulationLevel.writesData = true →
    ck.data.length = ck.size

/-- The containers are filled and written, and each is read back, whichever of them still wait to be
written. -/
def RoundTrips (cfg : Config) (order : TableOrder) (s : ContainerStore)
    (inputs : List (ContainerPool × List Chunk)) : Prop :=
  ∃ containers s', List.Forall₂ (fun p c => fillContainer cfg p.1 p.2 = .ok c) inputs containers ∧
    foldE (writeContainer cfg order) s containers = .ok s' ∧
    s'.containerCount = s.containerCount ∧ (∀ i < 8, s'.file i = s.file i) ∧
    ∀ queue : List Container, (∀ c ∈ queue, c ∈ containers) →
      List.Forall₂ (fun p c => RoundTrip cfg containers queue s' c p.2) inputs containers

section Claim

variable {cfg : Config} {inputs : List (ContainerPool × List Chunk)}

/-- A container of such a set. -/
theorem GuardedFills.filled (h : GuardedFills cfg inputs) {p : ContainerPool × List Chunk}
    (hp : p ∈ inputs) {c : Container} (hc : fillContainer cfg p.1 p.2 = .ok c) :
    FillInv cfg c p.2 ∧ c.isEmpty = false ∧ c.id = p.1.containerCount := by
  obtain ⟨hfilled, hid⟩ := filled_of_fillContainer (h.content p hp) hc
  exact ⟨hfilled.fillInv, hfilled.fillInv.isEmpty_eq (h.nonempty p hp), hid⟩

end Claim

end ContainerStore

end Destor
