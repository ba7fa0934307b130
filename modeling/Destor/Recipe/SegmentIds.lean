/- digest: The ids under which the segments of a store are known, and exactly when each id leads back
   to its segment. -/

import Destor.SegmentStep

set_option autoImplicit false
set_option relaxedAutoImplicit false

namespace Destor

open Library.Outcome

/-- What the filter thread appends for a segment: the start flag, the pointers, the end flag. With the
version comes the value of `append_segment_flag` for the start flag. -/
def appendSegment (b : BackupVersion) (pointers : List ChunkPointer) :
    Except Abort (BackupVersion × Int) := do
  let start := appendSegmentStart b pointers.length
  let b ← foldE appendChunkPointer start.2 pointers
  return (appendSegmentEnd b, start.1)

def appendSegments (b : Nat) (segments : List (List ChunkPointer)) : Except Abort BackupVersion :=
  foldE (fun v pointers => do
    let r ← appendSegment v pointers
    return r.1) (createBackupVersion b) segments

def writeVersions (b : Nat) (versions : List (List (List ChunkPointer))) :
    Except Abort (Nat × List BackupVersion) :=
  traverseE (fun b segments => do
    let v ← appendSegments b segments
    return (b + 1, updateBackupVersion v)) b versions

/-- The segments of a store: those of the finished backups, and those of the one that is running. The
filter thread appends no pointer without a container. -/
structure SegmentStore where
  finished : List (List (List ChunkPointer))
  running : List (List ChunkPointer)
  nonneg : ∀ segments ∈ finished ++ [running], ∀ pointers ∈ segments, ∀ cp ∈ pointers, 0 ≤ cp.id

namespace SegmentStore

variable (store : SegmentStore)

def HasSegment (b : Nat) (before : List (List ChunkPointer)) (pointers : List ChunkPointer) : Prop :=
  ∃ after, (store.finished ++ [store.running])[b]? = some (before ++ pointers :: after)

/-- The id of a segment: what `append_segment_flag` returned for it. -/
def segmentId (b : Nat) (before : List (List ChunkPointer)) (pointers : List ChunkPointer) :
    Except Abort Int := do
  let v ← appendSegments b before
  let r ← appendSegment v pointers
  return r.2

/-- The id of a segment leads back to it: its fields are the backup, the offset and the size, it is
above `TEMPORARY_ID`, no other segment has it, and a prefetch by it returns the segments from there
on. -/
structure Identified (backups : List BackupVersion) (current : BackupVersion) (b : Nat)
    (before : List (List ChunkPointer)) (pointers : List ChunkPointer) (id : Int) : Prop where
  bnum : idToBnum id = b
  off : idToOff id = segmentOffset before
  size : idToSize id = pointers.length
  temporaryId_lt : temporaryId < id
  unique : ∀ b' before' pointers', store.HasSegment b' before' pointers' →
    segmentId b' before' pointers' = .ok id → b' = b ∧ before' = before ∧ pointers' = pointers
  prefetch : ∀ n, 1 ≤ n → ∃ after, (store.finished ++ [store.running])[b]? =
      some (before ++ pointers :: after) ∧
    prefetchSegments backups current id n =
      .ok ((segmentRecipes b (encodeSegments before).length (pointers :: after)).take n)

def IdsIdentify : Prop :=
  ∃ backups current, writeVersions 0 store.finished = .ok (store.finished.length, backups) ∧
    appendSegments store.finished.length store.running = .ok current ∧
    ∀ b before pointers, store.HasSegment b before pointers →
      ∃ id, segmentId b before pointers = .ok id ∧
        store.Identified backups current b before pointers id

end SegmentStore

section Append

variable {b : BackupVersion} {pointers : List ChunkPointer} {segments : List (List ChunkPointer)}

private theorem appendPointers_ok (hids : ∀ cp ∈ pointers, 0 ≤ cp.id) : ∃ b',
    foldE appendChunkPointer b pointers = .ok b' ∧ b'.bvNum = b.bvNum ∧ b'.recipe = b.recipe ∧
      b'.segmentbuf = b.segmentbuf ++ pointers := by
  induction pointers generalizing b with
  | nil => exact ⟨b, rfl, rfl, rfl, (List.append_nil _).symm⟩
  | cons cp pointers ih =>
      have hne := ne_temporaryId_of_nonneg (hids cp List.mem_cons_self)
      obtain ⟨b', hfold, hnum, hrecipe, hbuf⟩ := ih (b := { b with
        records := if b.accessRecord ≠ temporaryId ∧ b.accessRecord ≠ cp.id then
            b.records ++ [b.accessRecord]
          else b.records
        accessRecord := cp.id
        segmentbuf := b.segmentbuf ++ [cp]
        numberOfChunks := b.numberOfChunks + 1 }) fun x hx => hids x (List.mem_cons_of_mem cp hx)
      refine ⟨b', bind_ok_iff.mpr ⟨_, bind_ok_iff.mpr ⟨(), require_of hne, rfl⟩, hfold⟩, hnum,
        hrecipe, ?_⟩
      rw [hbuf]
      exact List.append_assoc ..

private theorem appendSegment_ok (hids : ∀ cp ∈ pointers, 0 ≤ cp.id) : ∃ b',
    appendSegment b pointers =
        .ok (b', makeSegmentId b.bvNum (chunkPointerSize * b.recipe.length : Nat) pointers.length) ∧
      b'.bvNum = b.bvNum ∧ b'.recipe = b.recipe ++ encodeSegment pointers := by
  obtain ⟨b', hfold, hnum, hrecipe, hbuf⟩ := appendPointers_ok
    (b := (appendSegmentStart b pointers.length).2) hids
  refine ⟨appendSegmentEnd b', bind_ok_iff.mpr ⟨b', hfold, rfl⟩, hnum, ?_⟩
  show b'.recipe ++ b'.segmentbuf ++ [segmentFlag chunkSegmentEnd 0] = _
  rw [hrecipe, hbuf, List.append_assoc]
  rfl

private theorem appendSegments_ok (n : Nat) (hids : ∀ pointers ∈ segments, ∀ cp ∈ pointers, 0 ≤ cp.id) :
    ∃ v, appendSegments n segments = .ok v ∧ v.bvNum = n ∧ v.recipe = encodeSegments segments := by
  have hloop : ∀ b : BackupVersion, ∃ v, foldE (fun v pointers => do
      let r ← appendSegment v pointers
      return r.1) b segments = .ok v ∧ v.bvNum = b.bvNum ∧
        v.recipe = b.recipe ++ encodeSegments segments := by
    induction segments with
    | nil => exact fun b => ⟨b, rfl, rfl, (List.append_nil _).symm⟩
    | cons pointers segments ih =>
        intro b
        obtain ⟨b', happend, hnum, hrecipe⟩ := appendSegment_ok (b := b)
          (hids pointers List.mem_cons_self)
        obtain ⟨v, hfold, hnum', hrecipe'⟩ :=
          ih (fun ps hps => hids ps (List.mem_cons_of_mem pointers hps)) b'
        refine ⟨v, bind_ok_iff.mpr ⟨b', bind_ok_iff.mpr ⟨_, happend, rfl⟩, hfold⟩,
          by rw [hnum', hnum], ?_⟩
        rw [hrecipe', hrecipe, encodeSegments_cons, List.append_assoc]
  obtain ⟨v, hfold, hnum, hrecipe⟩ := hloop (createBackupVersion n)
  exact ⟨v, hfold, hnum, hrecipe⟩

private theorem writeVersions_ok (n : Nat) {versions : List (List (List ChunkPointer))}
    (hids : ∀ segments ∈ versions, ∀ pointers ∈ segments, ∀ cp ∈ pointers, 0 ≤ cp.id) :
    ∃ backups, writeVersions n versions = .ok (n + versions.length, backups) ∧
      ∀ i segments, versions[i]? = some segments → ∃ v, backups[i]? = some v ∧ v.bvNum = n + i ∧
        v.recipe = encodeSegments segments := by
  induction versions generalizing n with
  | nil => exact ⟨[], rfl, fun i segments h => by cases h⟩
  | cons segments versions ih =>
      obtain ⟨v, happend, hnum, hrecipe⟩ := appendSegments_ok n (hids segments List.mem_cons_self)
      obtain ⟨backups, hwrite, hbackups⟩ :=
        ih (n + 1) fun s hs => hids s (List.mem_cons_of_mem segments hs)
      refine ⟨updateBackupVersion v :: backups, ?_, fun i s hs => ?_⟩
      · have hlen : n + 1 + versions.length = n + (segments :: versions).length := by
          rw [List.length_cons]
          omega
        rw [← hlen]
        refine bind_ok_iff.mpr ⟨(n + 1, updateBackupVersion v),
          bind_ok_iff.mpr ⟨v, happend, rfl⟩, ?_⟩
        exact bind_ok_iff.mpr ⟨(n + 1 + versions.length, backups), hwrite, rfl⟩
      · cases i with
        | zero =>
            cases hs
            exact ⟨_, rfl, hnum, hrecipe⟩
        | succ i =>
            obtain ⟨v', hv', hnum', hrecipe'⟩ := hbackups i s hs
            exact ⟨v', hv', by omega, hrecipe'⟩

end Append

namespace SegmentStore

variable {store : SegmentStore} {b b' : Nat} {before before' : List (List ChunkPointer)}
  {pointers pointers' : List ChunkPointer}

theorem segmentId_eq (h : store.HasSegment b before pointers) :
    segmentId b before pointers = .ok (makeSegmentId b (segmentOffset before) pointers.length) := by
  obtain ⟨after, hafter⟩ := h
  have hids := store.nonneg _ (List.mem_of_getElem? hafter)
  obtain ⟨v, hv, hnum, hrecipe⟩ := appendSegments_ok b
    fun ps hps => hids ps (List.mem_append_left _ hps)
  obtain ⟨_, happend, _⟩ := appendSegment_ok (b := v) (hids pointers (by simp))
  rw [hnum, hrecipe] at happend
  exact bind_ok_iff.mpr ⟨v, hv, bind_ok_iff.mpr ⟨_, happend, rfl⟩⟩

private theorem makeSegmentId_range (bid off size : Int) :
    -2 ^ 63 ≤ makeSegmentId bid off size ∧ makeSegmentId bid off size < 2 ^ 63 := by
  unfold makeSegmentId toInt64
  have hlow := Int.le_bmod (x := bid * 2 ^ 48 + off * 2 ^ 16 + size) (m := 2 ^ 64) (by decide)
  have hhigh := Int.bmod_lt (x := bid * 2 ^ 48 + off * 2 ^ 16 + size) (m := 2 ^ 64) (by decide)
  omega

private theorem fits_of_decode {off size : Nat} {id : Int} (hlow : -2 ^ 63 ≤ id) (hhigh : id < 2 ^ 63)
    (hbnum : idToBnum id = b) (hoff : idToOff id = off) (hsize : idToSize id = size) :
    SegmentIdFits b off size := by
  unfold idToBnum at hbnum
  unfold idToOff at hoff
  unfold idToSize at hsize
  exact ⟨by omega, by omega, by omega⟩

private theorem segment_of_offset (h : store.HasSegment b before pointers)
    (h' : store.HasSegment b before' pointers') (hoff : segmentOffset before = segmentOffset before') :
    before' = before ∧ pointers' = pointers := by
  obtain ⟨after, hafter⟩ := h
  obtain ⟨after', hafter'⟩ := h'
  rw [hafter, Option.some.injEq] at hafter'
  obtain ⟨l, hbefore, hrest⟩ | ⟨l, hbefore, hrest⟩ := List.append_eq_append_iff.mp hafter'
  · cases l with
    | nil =>
        rw [List.append_nil] at hbefore
        rw [List.nil_append] at hrest
        exact ⟨hbefore, ((List.cons.inj hrest).1).symm⟩
    | cons ps l =>
        have hlt := segmentOffset_lt hbefore
        omega
  · cases l with
    | nil =>
        rw [List.append_nil] at hbefore
        rw [List.nil_append] at hrest
        exact ⟨hbefore.symm, (List.cons.inj hrest).1⟩
    | cons ps l =>
        have hlt := segmentOffset_lt hbefore
        omega

private theorem unique_of_fits (h : store.HasSegment b before pointers)
    (h' : store.HasSegment b' before' pointers')
    (hfits : SegmentIdFits b (segmentOffset before) pointers.length)
    (hfits' : SegmentIdFits b' (segmentOffset before') pointers'.length)
    (hid : makeSegmentId b' (segmentOffset before') pointers'.length =
      makeSegmentId b (segmentOffset before) pointers.length) :
    b' = b ∧ before' = before ∧ pointers' = pointers := by
  obtain hlt | heq | hgt := Nat.lt_trichotomy b b'
  · have hids := makeSegmentId_lt hfits hfits' (.inl hlt)
    omega
  · subst heq
    obtain hlt | hoff | hgt := Nat.lt_trichotomy (segmentOffset before) (segmentOffset before')
    · have hids := makeSegmentId_lt hfits hfits' (.inr ⟨rfl, hlt⟩)
      omega
    · exact ⟨rfl, segment_of_offset h h' hoff⟩
    · have hids := makeSegmentId_lt hfits' hfits (.inr ⟨rfl, hgt⟩)
      omega
  · have hids := makeSegmentId_lt hfits' hfits (.inl hgt)
    omega

private theorem prefetch_of_fits {backups : List BackupVersion} {current : BackupVersion}
    (hnum : current.bvNum = store.finished.length)
    (hrecipe : current.recipe = encodeSegments store.running)
    (hbackups : ∀ (i : Nat) (segments : List (List ChunkPointer)),
      store.finished[i]? = some segments → ∃ v : BackupVersion, backups[i]? = some v ∧
      v.bvNum = i ∧ v.recipe = encodeSegments segments)
    (hfits : SegmentIdFits b (segmentOffset before) pointers.length)
    {after : List (List ChunkPointer)}
    (hafter : (store.finished ++ [store.running])[b]? = some (before ++ pointers :: after))
    {n : Nat} (hn : 1 ≤ n) :
    prefetchSegments backups current (makeSegmentId b (segmentOffset before) pointers.length) n =
      .ok ((segmentRecipes b (encodeSegments before).length (pointers :: after)).take n) := by
  have hids := store.nonneg _ (List.mem_of_getElem? hafter)
  have hassigned : ∀ ps ∈ pointers :: after, ∀ cp ∈ ps, temporaryId < cp.id := fun ps hps cp hcp =>
    temporaryId_lt_of_nonneg (hids ps (List.mem_append_right _ hps) cp hcp)
  -- the version that is read is the one the id names
  have hopen : ∃ v, versionForPrefetch backups current (b : Int) = .ok v ∧ v.bvNum = b ∧
      v.recipe = encodeSegments (before ++ pointers :: after) := by
    by_cases hcurrent : b = store.finished.length
    · have hrunning : store.running = before ++ pointers :: after := by
        rw [hcurrent, List.getElem?_concat_length] at hafter
        exact Option.some.inj hafter
      refine ⟨current, ?_, by rw [hnum, hcurrent], by rw [hrecipe, hrunning]⟩
      rw [versionForPrefetch, if_pos (by rw [hnum, hcurrent])]
    · have hlt : b < store.finished.length := by
        obtain ⟨hlt, _⟩ := List.getElem?_eq_some_iff.mp hafter
        rw [List.length_append, List.length_singleton] at hlt
        omega
      rw [List.getElem?_append_left hlt] at hafter
      obtain ⟨v, hv, hvnum, hvrecipe⟩ := hbackups b _ hafter
      refine ⟨v, ?_, hvnum, hvrecipe⟩
      rw [versionForPrefetch, if_neg (by rw [hnum]; omega), openBackupVersion,
        if_pos (Int.natCast_nonneg b), Int.toNat_natCast, hv]
      show (if (v.bvNum : Int) = b then Except.ok v else _) = _
      rw [if_pos (by rw [hvnum])]
  obtain ⟨v, hopen, hvnum, hvrecipe⟩ := hopen
  have hoff : (idToOff (makeSegmentId b (segmentOffset before) pointers.length)).toNat /
      chunkPointerSize = (encodeSegments before).length := by
    rw [idToOff_makeSegmentId hfits, Int.toNat_natCast]
    simp [segmentOffset, chunkPointerSize]
  refine prefetchSegments_eq (b := v) (ne_temporaryId_of_nonneg (makeSegmentId_nonneg hfits)) ?_ ?_ ?_
  · rw [idToBnum_makeSegmentId hfits]
    exact hopen
  · rw [hoff, hvnum, hvrecipe, encodeSegments_append, List.drop_left]
    exact prefetchLoop_encode b n _ _ hassigned
  · intro _
    obtain ⟨n, rfl⟩ : ∃ m, n = m + 1 := ⟨n - 1, by omega⟩
    exact List.cons_ne_nil _ _

theorem idsIdentify_of_fits (hfits : ∀ b before pointers, store.HasSegment b before pointers →
    SegmentIdFits b (segmentOffset before) pointers.length) : store.IdsIdentify := by
  obtain ⟨backups, hwrite, hbackups⟩ := writeVersions_ok 0 fun s hs =>
    store.nonneg s (List.mem_append_left _ hs)
  obtain ⟨current, happend, hnum, hrecipe⟩ := appendSegments_ok store.finished.length
    (store.nonneg store.running (by simp))
  rw [Nat.zero_add] at hwrite
  refine ⟨backups, current, hwrite, happend, fun b before pointers h => ?_⟩
  have hfit := hfits b before pointers h
  refine ⟨_, segmentId_eq h, idToBnum_makeSegmentId hfit, idToOff_makeSegmentId hfit, ?_,
    temporaryId_lt_of_nonneg (makeSegmentId_nonneg hfit), fun b' before' pointers' h' hid => ?_,
    fun n hn => ?_⟩
  · rw [makeSegmentId_eq hfit]
    obtain ⟨_, _, hsize⟩ := hfit
    unfold idToSize
    omega
  · rw [segmentId_eq h', Except.ok.injEq] at hid
    exact unique_of_fits h h' hfit (hfits _ _ _ h') hid
  · obtain ⟨after, hafter⟩ := h
    refine ⟨after, hafter, prefetch_of_fits hnum hrecipe (fun i s hs => ?_) hfit hafter hn⟩
    obtain ⟨v, hv, hvnum, hvrecipe⟩ := hbackups i s hs
    exact ⟨v, hv, by omega, hvrecipe⟩

/-- The ids of a store lead back to its segments exactly if every backup number is below `2^15`, every
offset below `2^32` and every segment shorter than `2^16` chunks. -/
theorem idsIdentify_iff (store : SegmentStore) :
    store.IdsIdentify ↔ ∀ b before pointers, store.HasSegment b before pointers →
      SegmentIdFits b (segmentOffset before) pointers.length := by
  constructor
  · rintro ⟨_, _, _, _, hall⟩ b before pointers h
    obtain ⟨id, hid, hidentified⟩ := hall b before pointers h
    rw [segmentId_eq h, Except.ok.injEq] at hid
    have hrange := makeSegmentId_range b (segmentOffset before) pointers.length
    rw [hid] at hrange
    exact fits_of_decode hrange.1 hrange.2 hidentified.bnum hidentified.off hidentified.size
  · exact idsIdentify_of_fits

end SegmentStore

section LongSegments

variable {cfg : Config}

/-- A file of `n` chunks in file-defined segments: one segment that holds them all, and the open one at
the end of the stream. -/
private theorem segmentStream_file (hcfg : cfg.segmentAlgorithm = .fileDefined) (name : List UInt8)
    {c : Chunk} (hstart : c.flag.fileStart = false) (hend : c.flag.fileEnd = false) (n : Nat) :
    ∃ segments, segmentStream cfg newSegment
      (Chunk.fileStart name :: List.replicate n c ++ [Chunk.fileEnd]) = .ok segments ∧
        segments.map (fun s => recipePointers s.chunks) = [List.replicate n c.pointer, []] := by
  have hnormal : c.isNormal = true := by rw [Chunk.isNormal, hstart, hend]; rfl
  have hloop : ∀ (n : Nat) (tmp : Segment), segmentStream cfg tmp
      (List.replicate n c ++ [Chunk.fileEnd]) =
        .ok [{ chunkNum := tmp.chunkNum + n
               chunks := tmp.chunks ++ List.replicate n c ++ [Chunk.fileEnd] }, newSegment] := by
    intro n
    induction n with
    | zero =>
        intro tmp
        rw [List.replicate_zero, List.nil_append, List.append_nil, segmentStream, segmenting, hcfg]
        rfl
    | succ n ih =>
        intro tmp
        have hstep : segmenting cfg tmp c = .ok (none, tmp.appendNormal c) := by
          rw [segmenting, hcfg]
          show Except.ok (segmentFileDefined tmp c) = _
          rw [segmentFileDefined, hend, if_neg Bool.false_ne_true, hstart,
            if_neg Bool.false_ne_true]
        have hcount : tmp.chunkNum + 1 + n = tmp.chunkNum + (n + 1) := by omega
        rw [List.replicate_succ, List.cons_append, segmentStream_open hstep, ih,
          Segment.appendNormal, hcount]
        simp
  have hfirst : segmenting cfg newSegment (Chunk.fileStart name) =
      .ok (none, newSegment.appendSignal (Chunk.fileStart name)) := by
    rw [segmenting, hcfg]
    rfl
  refine ⟨_, (segmentStream_open hfirst).trans (hloop n _), ?_⟩
  have hsignal : (Chunk.fileStart name).isNormal = false := rfl
  have hclose : Chunk.fileEnd.isNormal = false := rfl
  simp [recipePointers, newSegment, Segment.appendSignal, List.filter_append, hsignal, hclose,
    hnormal]

/-- File-defined segments. -/
private def filesConfig : Config :=
  { smallConfig .nearExact .logical with segmentAlgorithm := .fileDefined }

private def chunkInZero : Chunk := { newChunk 1 with id := 0 }

private def oneBackup (n : Nat) : SegmentStore :=
  { finished := [], running := [List.replicate n chunkInZero.pointer, []]
    nonneg := by
      intro segments hsegments pointers hpointers cp hcp
      rw [List.nil_append, List.mem_singleton] at hsegments
      subst hsegments
      obtain rfl | hpointers := List.mem_cons.mp hpointers
      · rw [List.eq_of_mem_replicate hcp]
        exact Int.le_refl 0
      · rw [List.mem_singleton.mp hpointers] at hcp
        exact absurd hcp List.not_mem_nil }

private theorem oneBackup_not_identify {n : Nat} (h : 2 ^ 16 ≤ n) : ¬ (oneBackup n).IdsIdentify := by
  rw [SegmentStore.idsIdentify_iff]
  intro hfits
  have hsize := (hfits 0 [] (List.replicate n chunkInZero.pointer) ⟨[[]], rfl⟩).size_lt
  rw [List.length_replicate] at hsize
  omega

/-- The first backup of a file with 65536 chunks in file-defined segments: the size of its segment
carries into the offset. -/
theorem file_segment_not_identified :
    ∃ (cfg : Config) (c : Chunk) (store : SegmentStore) (segments : List Segment),
      cfg.segmentAlgorithm = .fileDefined ∧ store.finished = [] ∧
      segmentStream cfg newSegment
        (Chunk.fileStart [97] :: List.replicate 65536 c ++ [Chunk.fileEnd]) = .ok segments ∧
      store.running = segments.map (fun s => recipePointers s.chunks) ∧ ¬ store.IdsIdentify := by
  have halg : filesConfig.segmentAlgorithm = .fileDefined := rfl
  obtain ⟨segments, hstream, hpointers⟩ :=
    segmentStream_file halg [97] (c := chunkInZero) rfl rfl 65536
  exact ⟨filesConfig, chunkInZero, oneBackup 65536, segments, rfl, rfl, hstream, hpointers.symm,
    oneBackup_not_identify (by decide)⟩

end LongSegments

end Destor
