/- digest: What a restore fetches from a container of the chunks that filled it. -/

import Destor.Storage.ContainerFile

set_option autoImplicit false
set_option relaxedAutoImplicit false

namespace Destor

open Library.Outcome Library.Bytes

/-- `get_chunk_in_container` gives back the chunk that entered the container under a fingerprint,
`stray` lying at the address of its parameter. -/
def FetchesStored (cfg : Config) (stray : Fingerprint) (c : Container) (chunks : List Chunk)
    (id : Int) (fp : Fingerprint) : Prop :=
  ∃ ck rc, firstAdded chunks fp = some ck ∧ getChunkInContainer cfg stray c fp = .ok rc ∧
    rc.size = ck.size ∧ rc.data = ck.data ∧ rc.id = id ∧ rc.fp = fp

/-- The container of which a chunk is fetched, in memory or read back: it has the entries of the
container that was filled, and their bytes. -/
structure Readable (c r : Container) (chunks : List Chunk) : Prop where
  id_eq : r.id = c.id
  lookup_eq : ∀ fp, r.map.lookup fp = c.map.lookup fp
  bytes : ∃ d, r.data = some d ∧ ∀ fp e, c.map.lookup fp = some e →
    ∃ ck, firstAdded chunks fp = some ck ∧ e.len = ck.size ∧ read d e.off e.len = ck.data

section Fetch

variable {cfg : Config} {c r : Container} {chunks : List Chunk} {fp : Fingerprint}

/-- A container that is still in memory. -/
theorem FillInv.readable (h : FillInv cfg c chunks)
    (hwrites : cfg.simulationLevel.writesData = true) : Readable c c chunks := by
  obtain ⟨d, hd⟩ := Option.isSome_iff_exists.mp (h.data_isSome.trans hwrites)
  refine ⟨rfl, fun _ => rfl, d, hd, fun fp e he => ?_⟩
  have hfirst := h.first fp
  rw [he] at hfirst
  obtain ⟨ck, hck, hsize⟩ := Option.map_eq_some_iff.mp hfirst.symm
  exact ⟨ck, hck, hsize.symm, h.bytes d hd fp e ck he hck⟩

theorem ContainerStore.Intact.readable {s : ContainerStore} (h : ContainerStore.Intact cfg s c)
    (hfill : FillInv cfg c chunks) (hreads : cfg.simulationLevel.readsData = true)
    (hpool : ContainerStore.InPool cfg c.id) :
    ∃ r, s.retrieveContainerById cfg c.id = .ok r ∧ Readable c r chunks := by
  obtain ⟨r, hr, hsame, hdata⟩ := h.retrieveContainerById hfill hpool.reaches hpool.lt
  exact ⟨r, hr, hsame.id_eq, hsame.lookup_eq, hdata hreads⟩

/-- Size, data and id are right, and the fingerprint is whatever lies at the address. -/
theorem Readable.fetchesStored_iff (h : Readable c r chunks)
    (hreads : cfg.simulationLevel.readsData = true) (hfp : c.lookupFingerprint fp = true)
    (stray : Fingerprint) : FetchesStored cfg stray r chunks c.id fp ↔ stray = fp := by
  obtain ⟨e, he⟩ := Option.isSome_iff_exists.mp hfp
  obtain ⟨d, hd, hbytes⟩ := h.bytes
  obtain ⟨ck, hck, hsize, hread⟩ := hbytes fp e he
  have hget : getChunkInContainer cfg stray r fp =
      .ok { newChunk e.len with data := read d e.off e.len, id := r.id, fp := stray } := by
    simp only [getChunkInContainer, h.lookup_eq fp, he, if_pos hreads, hd]
  constructor
  · rintro ⟨_, rc, _, hok, _, _, _, hrc⟩
    have heq := Except.ok.inj (hget.symm.trans hok)
    rw [← hrc, ← heq]
  · intro hstray
    exact ⟨ck, _, hck, hget, hsize, hread, h.id_eq, hstray⟩

end Fetch

section Claim

/-- Containers filled within their limits and written in any order: a chunk fetched from one of
them, in memory or retrieved, is the one that was stored, exactly if the twenty bytes that lie at the
address of the parameter are the fingerprint asked for. -/
theorem fetched_chunk_iff (cfg : Config) (order : TableOrder) (s : ContainerStore)
    (hlevel : cfg.simulationLevel = .no) (filled : List (Container × List Chunk))
    (hfilled : ∀ p ∈ filled, Filled cfg p.1 p.2) (hne : ∀ p ∈ filled, p.1.isEmpty = false)
    (hids : (filled.map fun p => p.1.id).Nodup)
    (hpool : ∀ p ∈ filled, ContainerStore.InPool cfg p.1.id) :
    ∃ s', foldE (ContainerStore.writeContainer cfg order) s (filled.map Prod.fst) = .ok s' ∧
      ∀ p ∈ filled, (∃ r, s'.retrieveContainerById cfg p.1.id = .ok r) ∧
        ∀ r, r = p.1 ∨ s'.retrieveContainerById cfg p.1.id = .ok r →
          ∀ fp, p.1.lookupFingerprint fp = true → ∀ stray,
            FetchesStored cfg stray r p.2 p.1.id fp ↔ stray = fp := by
  have hreads : cfg.simulationLevel.readsData = true := by
    rw [hlevel]
    rfl
  obtain ⟨s', hok, _, hintact, _⟩ := ContainerStore.foldE_writeContainer order filled
    (fun p hp => (hfilled p hp).fillInv) hne (fun p hp => (hpool p hp).reaches)
    (ContainerStore.nodup_slotOffset hpool hids) s
  refine ⟨s', hok, fun p hp => ?_⟩
  have hfill := (hfilled p hp).fillInv
  obtain ⟨r₀, hr₀, hreadable₀⟩ := (hintact p hp).readable hfill hreads (hpool p hp)
  refine ⟨⟨r₀, hr₀⟩, fun r hr fp hfp stray => ?_⟩
  have hreadable : Readable p.1 r p.2 := by
    rcases hr with rfl | hr
    · exact hfill.readable (ContainerStore.writesData_of_readsData hreads)
    · have heq : r₀ = r := Except.ok.inj (hr₀.symm.trans hr)
      exact heq ▸ hreadable₀
  exact hreadable.fetchesStored_iff hreads hfp stray

private def fetchConfig : Config := { smallConfig .exact .physical with simulationLevel := .no }

private def storedChunks : List Chunk :=
  [Chunk.normal (.fill 1) 2 [7, 8], Chunk.normal (.fill 2) 1 [9]]

private def filledContainer (id : Nat) : Container :=
  storedChunks.foldl (appendChunk fetchConfig) (createContainer fetchConfig ⟨∅, id⟩).1

private theorem filledContainer_filled (id : Nat) :
    Filled fetchConfig (filledContainer id) storedChunks := by
  have hfirst : Filled fetchConfig (appendChunk fetchConfig (createContainer fetchConfig ⟨∅, id⟩).1
      (Chunk.normal (.fill 1) 2 [7, 8])) [Chunk.normal (.fill 1) 2 [7, 8]] :=
    .add (.create ⟨∅, id⟩) rfl (fun _ => rfl) rfl
  have hsecond : addChunkToContainer fetchConfig (appendChunk fetchConfig (createContainer fetchConfig
      ⟨∅, id⟩).1 (Chunk.normal (.fill 1) 2 [7, 8])) (Chunk.normal (.fill 2) 1 [9]) =
        .ok (true, filledContainer id, { Chunk.normal (.fill 2) 1 [9] with id := id }) := rfl
  exact hfirst.add rfl (fun _ => rfl) hsecond

/-- Two containers are written, and the second chunk of the second one is fetched from the file where
its fingerprint lies at the address. -/
theorem fetched_chunk_iff_two_containers : ∃ s' r,
    foldE (ContainerStore.writeContainer fetchConfig ContainerStore.entryOrder) ⟨5, zeros⟩
      [filledContainer 4, filledContainer 3] = .ok s' ∧
    s'.retrieveContainerById fetchConfig 3 = .ok r ∧
    FetchesStored fetchConfig (.fill 2) r storedChunks 3 (.fill 2) := by
  have hfilled : ∀ p ∈ [(filledContainer 4, storedChunks), (filledContainer 3, storedChunks)],
      Filled fetchConfig p.1 p.2 := by
    intro p hp
    simp only [List.mem_cons, List.not_mem_nil, or_false] at hp
    rcases hp with rfl | rfl
    · exact filledContainer_filled 4
    · exact filledContainer_filled 3
  obtain ⟨s', hok, hfetch⟩ := fetched_chunk_iff fetchConfig ContainerStore.entryOrder ⟨5, zeros⟩ rfl
    [(filledContainer 4, storedChunks), (filledContainer 3, storedChunks)] hfilled (by decide)
    (by decide) (by decide)
  obtain ⟨⟨r, hr⟩, hiff⟩ := hfetch (filledContainer 3, storedChunks) (List.mem_cons_of_mem _
    List.mem_cons_self)
  exact ⟨s', r, hok, hr, (hiff r (.inr hr) (.fill 2) (by decide) (.fill 2)).mpr rfl⟩

/-- The eight bytes of a pointer into the stack, and what lies behind it. -/
def pointerBytes : Fingerprint :=
  ⟨[0x60, 0x1e, 0x55, 0xf7, 0xff, 0x7f, 0, 0, 0x10, 0, 0, 0, 0, 0, 0, 0, 0, 0, 0, 0], rfl⟩

/-- The fingerprint of the chunk that is fetched is not the one it was stored under. -/
theorem pointer_fetched_as_fingerprint :
    Filled fetchConfig (filledContainer 3) storedChunks ∧
      (filledContainer 3).lookupFingerprint (.fill 1) = true ∧
      ¬ FetchesStored fetchConfig pointerBytes (filledContainer 3) storedChunks
        (filledContainer 3).id (.fill 1) := by
  have hreadable := (filledContainer_filled 3).fillInv.readable rfl
  refine ⟨filledContainer_filled 3, by decide, fun h => ?_⟩
  have heq := (hreadable.fetchesStored_iff rfl (by decide) pointerBytes).mp h
  exact absurd heq (by decide)

end Claim

end Destor
