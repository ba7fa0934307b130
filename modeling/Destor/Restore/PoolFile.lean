/- digest: A pool file with some containers and nothing else: what a restore can find in it. -/

import Destor.Restore.HeldChunks
import Destor.StoredContents

set_option autoImplicit false
set_option relaxedAutoImplicit false

namespace Destor

open Library.Outcome Library.Bytes ContainerStore

structure PoolFile (cfg : Config) (content : Fingerprint → List UInt8) (written : List Container)
    (s : ContainerStore) : Prop where
  genuine : ∀ b ∈ written, b.Genuine cfg content
  inPool : ∀ b ∈ written, InPool cfg b.id
  intact : ∀ b ∈ written, Intact cfg s b
  blank : ∀ i, (∀ b ∈ written, ¬ Region cfg b.id i) → s.file i = 0

section Write

variable {cfg : Config} {content : Fingerprint → List UInt8} {written : List Container}

/-- Containers with distinct ids, written in any order to an empty file, make such a file. -/
theorem exists_poolFile (order : TableOrder) (count : Int)
    (hgenuine : ∀ b ∈ written, b.Genuine cfg content) (hne : ∀ b ∈ written, b.isEmpty = false)
    (hids : (written.map fun b => b.id).Nodup) (hpool : ∀ b ∈ written, InPool cfg b.id) :
    ∃ s, foldE (writeContainer cfg order) { containerCount := count, file := zeros } written = .ok s ∧
      s.containerCount = count ∧ PoolFile cfg content written s := by
  -- each container with the chunks it was filled with
  have hfilled : ∃ filled : List (Container × List Chunk), filled.map Prod.fst = written ∧
      ∀ p ∈ filled, FillInv cfg p.1 p.2 := by
    clear hne hids hpool
    induction written with
    | nil => exact ⟨[], rfl, nofun⟩
    | cons b written ih =>
        obtain ⟨⟨chunks, hchunks, -⟩, hwritten⟩ := List.forall_mem_cons.mp hgenuine
        obtain ⟨filled, hmap, hfill⟩ := ih hwritten
        refine ⟨(b, chunks) :: filled, congrArg (b :: ·) hmap, fun p hp => ?_⟩
        rcases List.mem_cons.mp hp with rfl | hp
        · exact hchunks.fillInv
        · exact hfill p hp
  obtain ⟨filled, rfl, hfill⟩ := hfilled
  have hmem : ∀ p ∈ filled, p.1 ∈ filled.map Prod.fst := fun p hp => List.mem_map.mpr ⟨p, hp, rfl⟩
  rw [List.map_map] at hids
  have hinPool : ∀ p ∈ filled, InPool cfg p.1.id := fun p hp => hpool p.1 (hmem p hp)
  obtain ⟨s, hok, hcount, hintact, hframe⟩ := foldE_writeContainer order filled hfill
    (fun p hp => hne p.1 (hmem p hp)) (fun p hp => (hinPool p hp).reaches)
    (nodup_slotOffset hinPool hids) { containerCount := count, file := zeros }
  refine ⟨s, hok, hcount, hgenuine, hpool, fun b hb => ?_, fun i hi => ?_⟩
  · obtain ⟨p, hp, rfl⟩ := List.mem_map.mp hb
    exact hintact p hp
  · exact hframe i fun p hp => hi p.1 (hmem p hp)

end Write

section Read

variable {cfg : Config} {content : Fingerprint → List UInt8} {written : List Container}
  {s : ContainerStore} {env : RestoreEnv}

/-- A written container is retrieved with its entries, and the bytes of each of them. -/
theorem PoolFile.retrieve (h : PoolFile cfg content written s)
    (hreads : cfg.simulationLevel.readsData = true) {b : Container} (hb : b ∈ written) :
    ∃ con, s.retrieveContainerById cfg b.id = .ok con ∧
      (∀ fp, con.map.lookup fp = b.map.lookup fp) ∧
      ∀ d, con.data = some d → ∀ fp e, b.map.lookup fp = some e →
        e.len = (content fp).length ∧ read d e.off e.len = content fp := by
  obtain ⟨chunks, hfilled, hchunks⟩ := h.genuine b hb
  obtain ⟨con, hok, hsame, hdata⟩ :=
    (h.intact b hb).retrieveContainerById hfilled.fillInv (h.inPool b hb).reaches
      (h.inPool b hb).lt
  refine ⟨con, hok, hsame.lookup_eq, fun d hd fp e he => ?_⟩
  obtain ⟨d', hd', hread⟩ := hdata hreads
  obtain rfl := Option.some.inj (hd'.symm.trans hd)
  obtain ⟨c, hc, hlen, hbytes⟩ := hread fp e he
  obtain ⟨hcontent, hlength⟩ := hchunks c (List.mem_of_find?_eq_some hc)
  have hfp : c.fp = fp := by simpa using List.find?_some hc
  rw [hfp] at hcontent
  exact ⟨by rw [hlen, ← hlength, hcontent], hbytes.trans hcontent⟩

/-- A metadata block without entries. -/
theorem unserContainerMeta_blank {buf : Image} {id : Int} {cm : ContainerMeta}
    (hnum : unserInt32 (read buf 8 4) = 0) (h : unserContainerMeta buf id = .ok cm) :
    cm.map = ∅ := by
  obtain ⟨-, -, h⟩ := bind_ok_iff.mp h
  cases h
  show unserMetaEntries buf containerHead (unserInt32 (read buf 8 4)).toNat ∅ = ∅
  rw [hnum]
  rfl

theorem read_blank {m : Image} {off n : Nat} (h : ∀ i < n, m (off + i) = 0) :
    read m off n = List.replicate n 0 := by
  refine List.eq_replicate_iff.mpr ⟨length_read _ _ _, fun b hb => ?_⟩
  obtain ⟨i, hi, rfl⟩ := List.mem_map.mp hb
  exact h i (List.mem_range.mp hi)

theorem PoolFile.count_blank (h : PoolFile cfg content written s) {id : Int}
    (hlow : 0 ≤ slotOffset cfg id) (hwrites : cfg.simulationLevel.writesData = true)
    (hfresh : ∀ b ∈ written, slotOffset cfg b.id ≠ slotOffset cfg id) :
    unserInt32 (read (fromOffset (fromOffset s.file (slotOffset cfg id).toNat)
      (containerSize - containerMetaSize)) 8 4) = 0 := by
  have hsize := slotSize_of_writes hwrites
  have hread : read (fromOffset (fromOffset s.file (slotOffset cfg id).toNat)
      (containerSize - containerMetaSize)) 8 4 = List.replicate 4 0 := by
    apply read_blank
    intro i hi
    rw [fromOffset, fromOffset]
    apply h.blank _
    intro b hb hregion
    refine not_region_of_ne (hfresh b hb).symm ?_ hregion
    unfold Region
    rw [hsize]
    unfold containerSize containerMetaSize
    omega
  rw [hread]
  decide

/-- An offset in front of the file leads to the bytes in front of the metadata of the first container,
and the count is read from its id. -/
theorem PoolFile.count_first (h : PoolFile cfg content written s)
    (hwrites : cfg.simulationLevel.writesData = true) :
    unserInt32 (read (fromOffset (fromOffset s.file 0) (containerSize - containerMetaSize)) 8 4) =
      0 := by
  have hsize := slotSize_of_writes hwrites
  have hpool : InPool cfg 0 := ⟨Int.le_refl 0, by rw [hsize]; decide⟩
  have hmeta := metaOffset_eq hpool.reaches
  rw [hpool.offset_eq, hsize] at hmeta
  have hblock : ∀ i, fromOffset (fromOffset s.file 0) (containerSize - containerMetaSize) (8 + i) =
      fromOffset s.file (metaOffset cfg 0) i := by
    intro i
    have hoffset : 0 + (containerSize - containerMetaSize + (8 + i)) = metaOffset cfg 0 + i := by
      unfold containerSize containerMetaSize at *
      omega
    exact congrArg s.file hoffset
  have hread : read (fromOffset (fromOffset s.file 0) (containerSize - containerMetaSize)) 8 4 =
      List.replicate 4 0 := by
    by_cases hfirst : ∃ b ∈ written, b.id = 0
    · obtain ⟨b, hb, hb0⟩ := hfirst
      obtain ⟨tableOrder, hmeta⟩ := (h.intact b hb).metadata
      rw [hb0] at hmeta
      have hhead : serContainerMeta tableOrder b.toContainerMeta = List.replicate 4 0 ++
          (List.replicate 4 0 ++ (serInt32 b.chunkNum ++ serInt32 b.dataSize ++
            (tableOrder.walk b.map).flatMap serMetaEntry)) := by
        have hids : serInt64 0 = List.replicate 4 0 ++ List.replicate 4 0 := by decide
        rw [serContainerMeta, hb0, hids]
        simp only [List.append_assoc]
      rw [hhead] at hmeta
      have hfour := (read_append hmeta).1
      rw [List.length_replicate] at hfour
      refine Eq.trans ?_ hfour
      apply List.map_congr_left
      intro i hi
      rw [hblock, Nat.zero_add]
    · apply read_blank
      intro i hi
      rw [hblock]
      apply h.blank _
      intro b hb hregion
      have hne : slotOffset cfg 0 ≠ slotOffset cfg b.id := fun heq =>
        hfirst ⟨b, hb, (hpool.offset_inj (h.inPool b hb) heq).symm⟩
      exact not_region_of_ne hne (region_meta hpool.reaches (by unfold containerMetaSize; omega))
        hregion
  rw [hread]
  decide

/-- Nothing but the written containers is found in the file. Where the offset of an id wraps to that
of a written container, the id in the metadata is not the one asked for. -/
theorem PoolFile.nothing_else (h : PoolFile cfg content written s)
    (hreads : cfg.simulationLevel.readsData = true) {id : Int} (hid : ∀ b ∈ written, b.id ≠ id)
    {con : Container} (hok : s.retrieveContainerById cfg id = .ok con) : con.map = ∅ := by
  have hwrites := writesData_of_readsData hreads
  have hsize := slotSize_of_writes hwrites
  obtain ⟨cm, hcm, hok⟩ := bind_ok_iff.mp hok
  obtain ⟨-, -, hok⟩ := bind_ok_iff.mp hok
  cases hok
  have hoffset : ∀ id, toInt64 (id * containerSize + 8) = slotOffset cfg id := fun id => by
    rw [slotOffset, hsize]
  rw [if_pos hreads, hoffset] at hcm
  refine unserContainerMeta_blank ?_ hcm
  by_cases hlow : 0 ≤ slotOffset cfg id
  · refine h.count_blank hlow hwrites fun b hb heq => hid b hb ?_
    obtain ⟨chunks, hfilled, -⟩ := h.genuine b hb
    have hpool := h.inPool b hb
    obtain ⟨cm', hcm', -⟩ := (h.intact b hb).unserContainerMeta hfilled.fillInv hpool.lt
    rw [← fromOffset_block hpool.reaches hreads, hoffset, heq] at hcm'
    exact (unserContainerMeta_found hcm').symm.trans (unserContainerMeta_found hcm)
  · rw [show (slotOffset cfg id).toNat = 0 by omega]
    exact h.count_first hwrites

/-- Equal fingerprints stand for equal bytes in such a file. -/
theorem PoolFile.sameContent (h : PoolFile cfg content written env.store)
    (hreads : cfg.simulationLevel.readsData = true) : SameContent cfg env content := by
  intro id con fp e d hcon he hd
  by_cases hid : ∃ b ∈ written, b.id = id
  · obtain ⟨b, hb, rfl⟩ := hid
    obtain ⟨con', hcon', hlookup, hbytes⟩ := h.retrieve hreads hb
    obtain rfl := Except.ok.inj (hcon'.symm.trans hcon)
    exact (hbytes d hd fp e ((hlookup fp).symm.trans he)).2
  · have hblank := h.nothing_else hreads (fun b hb heq => hid ⟨b, hb, heq⟩) hcon
    rw [hblank, AList.lookup_empty] at he
    cases he

/-- A written container holds a chunk of which it has an entry. -/
theorem PoolFile.holds (h : PoolFile cfg content written env.store)
    (hreads : cfg.simulationLevel.readsData = true) {b : Container} (hb : b ∈ written)
    {fp : Fingerprint} (hfp : b.lookupFingerprint fp = true) :
    Holds cfg env b.id fp (content fp).length := by
  obtain ⟨e, he⟩ := Option.isSome_iff_exists.mp hfp
  obtain ⟨con, hcon, hlookup, hbytes⟩ := h.retrieve hreads hb
  obtain ⟨d, hd⟩ := retrieveContainerById_data hreads hcon
  exact ⟨h.inPool b hb, con, e, hcon, (hlookup fp).trans he, (hbytes d hd fp e he).1⟩

end Read

end Destor
