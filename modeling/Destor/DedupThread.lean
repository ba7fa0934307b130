/- digest: The dedup thread cuts the stream into segments, looks them up and sends every one of them
   once. -/

import Destor.DedupPhase
import Destor.Index.SegmentBounds
import Destor.Library.RelatedLists
import Destor.RewriteBuffer

set_option autoImplicit false
set_option relaxedAutoImplicit false

namespace Destor

open Library.Outcome Library.RelatedLists

/-- What a lookup meets: the key-value store and the containers, the open container, and the index
buffer with the fingerprint cache. The other threads change them between two lookups. -/
structure LookupEnv where
  source : IndexSource
  storage : Option Container
  state : IndexState

section Lookup

variable {cfg : Config} {source : IndexSource} {storage : Option Container}
  {st st' : IndexState}

private theorem setDuplicate_or_self {p : Prop} [Decidable p] (c : Chunk) (id : Int) :
    c.SameContent (if p then setDuplicate c id else c) := by
  split
  · exact setDuplicate_sameContent c id
  · exact .refl c

theorem checkStorageBuffer_sameContent (storage : Option Container) (c : Chunk) :
    c.SameContent (checkStorageBuffer storage c) := by
  rcases checkStorageBuffer_cases storage c with ⟨b, -, -, heq⟩ | ⟨-, heq⟩
  · rw [heq]
    exact ⟨⟨rfl, rfl, rfl, rfl, rfl⟩, rfl, rfl⟩
  · rw [heq]
    exact .refl c

theorem checkIndexBuffer_sameContent (buffer : IndexBuffer) (c : Chunk) :
    c.SameContent (checkIndexBuffer buffer c) := by
  simp only [checkIndexBuffer]
  split
  · split
    · exact .refl c
    · exact setDuplicate_sameContent c _
  · exact .refl c

theorem checkFingerprintCache_sameContent {cache cache' : LruCache CacheUnit} {c c' : Chunk}
    (h : checkFingerprintCache cache c = .ok (cache', c')) : c.SameContent c' := by
  simp only [checkFingerprintCache] at h
  split at h
  · cases h
    exact .refl c
  · obtain ⟨⟨id, cache₁⟩, -, h⟩ := bind_ok_iff.mp h
    cases h
    exact setDuplicate_or_self c id

theorem checkKvstore_sameContent {cache cache' : LruCache CacheUnit} {c c' : Chunk}
    (h : checkKvstore cfg source cache c = .ok (cache', c')) : c.SameContent c' := by
  simp only [checkKvstore] at h
  split at h
  · cases h
    exact .refl c
  · split at h
    · cases h
      exact .refl c
    · obtain ⟨cache₁, -, h⟩ := bind_ok_iff.mp h
      obtain ⟨⟨id, cache₂⟩, -, h⟩ := bind_ok_iff.mp h
      cases h
      exact setDuplicate_or_self c id

/-- Wherever a lookup finds a chunk, it changes only the id and the marks of the dedup phase. -/
theorem lookupChunk_sameContent {askKvstore : Bool} {c c' : Chunk}
    (h : lookupChunk cfg askKvstore source storage st c = .ok (st', c')) : c.SameContent c' := by
  simp only [lookupChunk] at h
  split at h
  · obtain ⟨⟨cache₁, c₁⟩, hcache, h⟩ := bind_ok_iff.mp h
    have hbuffers := (checkStorageBuffer_sameContent storage c).trans
      (checkIndexBuffer_sameContent st.buffer _)
    have hfirst := hbuffers.trans (checkFingerprintCache_sameContent hcache)
    cases askKvstore with
    | true =>
        obtain ⟨⟨cache₂, c₂⟩, hkv, h⟩ := bind_ok_iff.mp h
        cases h
        exact hfirst.trans (checkKvstore_sameContent hkv)
    | false =>
        cases h
        exact hfirst
  · cases h
    exact .refl c

theorem lookupChunks_sameContents {askKvstore : Bool} {chunks chunks' : List Chunk}
    (h : traverseE (lookupChunk cfg askKvstore source storage) st chunks = .ok (st', chunks')) :
    SameContents chunks chunks' := by
  refine traverseE_forall₂ ?_ h
  intro st₁ c st₂ c' hc
  exact lookupChunk_sameContent hc

theorem indexLookup_sameContents {s : Segment} {chunks : List Chunk}
    (h : indexLookup cfg source storage st s = .ok (st', chunks)) :
    SameContents s.chunks chunks := by
  simp only [indexLookup] at h
  split at h
  · obtain ⟨features, -, h⟩ := bind_ok_iff.mp h
    obtain ⟨cache, -, h⟩ := bind_ok_iff.mp h
    exact lookupChunks_sameContents h
  · exact lookupChunks_sameContents h

end Lookup

section Thread

variable {cfg : Config} {env : Nat → LookupEnv}

def LookupStops (cfg : Config) (env : Nat → LookupEnv) (segments : List Segment) (a : Abort) :
    Prop :=
  ∃ n, ∃ s ∈ segments, 0 < s.chunkNum ∧
    indexLookup cfg (env n).source (env n).storage (env n).state s = .error a

theorem LookupStops.mono {segments segments' : List Segment} {a : Abort}
    (h : LookupStops cfg env segments a) (hsub : segments ⊆ segments') :
    LookupStops cfg env segments' a := by
  obtain ⟨n, s, hs, hstop⟩ := h
  exact ⟨n, s, hsub hs, hstop⟩

end Thread

end Destor
