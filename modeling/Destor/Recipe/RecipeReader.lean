/- digest: The readers of a recipe return what the filter thread wrote, up to `2^31` chunks. -/

import Destor.Library.Text
import Destor.Recipe.RecipeWriter
import Mathlib.Algebra.Order.BigOperators.Group.List

set_option autoImplicit false
set_option relaxedAutoImplicit false

namespace Destor

open Library Library.Outcome Library.Bytes

def successive {α β : Type} (read : BackupFile → α → Except Abort (β × BackupFile)) :
    BackupFile → List α → Except Abort (List β)
  | _, [] => .ok []
  | b, a :: rest => do
      let (r, b) ← read b a
      let rs ← successive read b rest
      return r :: rs

/-- What calls with the numbers `ns` return of some pointers: the next ones each time, then
`NULL`. -/
def pointerPieces : List ChunkPointer → List Nat → List (Option (List ChunkPointer × Int))
  | _, [] => []
  | left, n :: ns =>
      (if left = [] then none else some (left.take n, (left.take n).length)) ::
        pointerPieces (left.drop n) ns

/-- The readers of a version return the files, the pointers and the segments of a backup. -/
structure RoundTrips (rb : RecordedBackup) (b : BackupFile) : Prop where
  metas : successive (fun b _ => b.readNextFileRecipeMeta) b rb.files =
    .ok (rb.files.map StoredFile.fileRecipeMeta)
  pointers : ∀ ns : List Nat, (∀ n ∈ ns, 1 ≤ n ∧ n < 2 ^ 31) →
    successive BackupFile.readNextNChunkPointers b ns = .ok (pointerPieces rb.pointers ns)
  segments : ∃ srs : List SegmentRecipe,
    successive (fun b _ => b.readNextSegment) b (List.range (rb.segments.length + 1)) =
        .ok (srs.map some ++ [none]) ∧
      List.Forall₂ (fun segment sr => ∀ fp, sr.kvpairs.lookup fp =
        (recipePointers segment).reverse.find? fun cp => cp.fp == fp) rb.segments srs

/-- A backup whose values fit the types of the source, with file names and segments of bounded
length. -/
structure RecordedBackup.Fits (rb : RecordedBackup) : Prop where
  ids : ∀ cp ∈ rb.pointers, 0 ≤ cp.id ∧ cp.id < 2 ^ 63
  sizes : ∀ cp ∈ rb.pointers, cp.size < 2 ^ 31
  names : ∀ f ∈ rb.files, 0 ∉ f.name ∧ f.name.length < nameBound
  small : ∀ segment ∈ rb.segments, (segment.filter Chunk.isNormal).length < 2 ^ 20
  files_lt : rb.files.length < 2 ^ 63
  pointers_lt : rb.pointers.length < 2 ^ 63

section Decoding

variable {s : Stream} {cp : ChunkPointer} {tail : List UInt8}

/-- The fields of a record have the widths they have in the file. -/
structure ChunkPointer.Fits (cp : ChunkPointer) : Prop where
  id_low : -2 ^ 63 ≤ cp.id
  id_high : cp.id < 2 ^ 63
  size_lt : cp.size < 2 ^ 31

theorem ofLeInt_leInt_nat8 {n : Nat} (h : n < 2 ^ 63) : ofLeInt (leInt 8 n) = n :=
  ofLeInt_leInt (by decide) (by omega) (by omega)

theorem ofLeInt_leInt_nat4 {n : Nat} (h : n < 2 ^ 31) : ofLeInt (leInt 4 n) = n :=
  ofLeInt_leInt (by decide) (by omega) (by omega)

theorem readPointer_eq (hcp : cp.Fits) (h : s.rest = cp.bytes ++ tail) :
    BackupFile.readPointer s = (cp, s.skip 20 |>.skip 8 |>.skip 4) ∧
      (s.skip 20 |>.skip 8 |>.skip 4).rest = tail := by
  have h₁ : s.rest = cp.fp.bytes ++ (leInt 8 cp.id ++ (leInt 4 cp.size ++ tail)) := by
    rw [h, ChunkPointer.bytes, List.append_assoc, List.append_assoc]
  have h₂ := Stream.rest_skip h₁ cp.fp.length_eq
  have h₃ := Stream.rest_skip h₂ (length_leInt 8 cp.id)
  have hid : ofLeInt (leInt 8 cp.id) = cp.id :=
    ofLeInt_leInt (by decide) hcp.id_low hcp.id_high
  refine ⟨?_, Stream.rest_skip h₃ (length_leInt 4 cp.size)⟩
  unfold BackupFile.readPointer
  rw [Stream.fread_eq h₁ cp.fp.length_eq]
  simp only
  rw [Stream.fread_eq h₂ (length_leInt 8 cp.id)]
  simp only
  rw [Stream.fread_eq h₃ (length_leInt 4 cp.size), hid, Fingerprint.ofBytes_bytes,
    ofLeInt_leInt_nat4 hcp.size_lt, Int.toNat_natCast]

theorem isPointer_eq_false_iff : cp.isPointer = false ↔
    cp.id = 0 - chunkSegmentStart ∨ cp.id = 0 - chunkSegmentEnd := by
  simp only [ChunkPointer.isPointer, Bool.and_eq_false_iff, bne_eq_false_iff_eq]

/-- The loop skips the boundaries of the segments. -/
theorem readPointers_eq {records : List ChunkPointer} (hfits : ∀ r ∈ records, r.Fits)
    (h : s.rest = records.flatMap ChunkPointer.bytes) {fuel num : Nat}
    (hfuel : records.length ≤ fuel) (hnum : num ≤ (records.filter ChunkPointer.isPointer).length) :
    ∃ (s' : Stream) (records' : List ChunkPointer), BackupFile.readPointers fuel num s =
        ((records.filter ChunkPointer.isPointer).take num, s') ∧
      s'.rest = records'.flatMap ChunkPointer.bytes ∧ records'.Sublist records ∧
      records'.filter ChunkPointer.isPointer =
        (records.filter ChunkPointer.isPointer).drop num := by
  induction records generalizing s fuel num with
  | nil =>
      have hzero : num = 0 := Nat.le_zero.mp hnum
      subst hzero
      refine ⟨s, [], ?_, h, .slnil, rfl⟩
      cases fuel <;> rfl
  | cons r records ih =>
      cases num with
      | zero =>
          refine ⟨s, r :: records, ?_, h, List.Sublist.refl _, rfl⟩
          cases fuel <;> rfl
      | succ num =>
          rw [List.length_cons] at hfuel
          obtain ⟨fuel, rfl⟩ : ∃ n, fuel = n + 1 := ⟨fuel - 1, by omega⟩
          obtain ⟨hr, hrest⟩ := List.forall_mem_cons.mp hfits
          rw [List.flatMap_cons] at h
          obtain ⟨hread, htail⟩ := readPointer_eq hr h
          have hlong : ¬ s.rest.length < chunkPointerSize := by
            rw [h, List.length_append, ChunkPointer.length_bytes]
            omega
          have hfuel' : records.length ≤ fuel := Nat.le_of_succ_le_succ hfuel
          rw [BackupFile.readPointers, if_neg hlong, hread]
          simp only
          cases hpointer : r.isPointer with
          | false =>
              rw [List.filter_cons_of_neg (by simp [hpointer])] at hnum ⊢
              rw [if_pos (isPointer_eq_false_iff.mp hpointer)]
              obtain ⟨s', records', hok, hbytes, hsub, hleft⟩ := ih hrest htail hfuel' hnum
              exact ⟨s', records', hok, hbytes, hsub.cons r, hleft⟩
          | true =>
              rw [List.filter_cons_of_pos hpointer] at hnum ⊢
              have hnot : ¬ (r.id = 0 - chunkSegmentStart ∨ r.id = 0 - chunkSegmentEnd) := by
                intro hflag
                rw [isPointer_eq_false_iff.mpr hflag] at hpointer
                cases hpointer
              rw [if_neg hnot]
              obtain ⟨s', records', hok, hbytes, hsub, hleft⟩ :=
                ih hrest htail hfuel' (Nat.le_of_succ_le_succ hnum)
              refine ⟨s', records', ?_, hbytes, hsub.cons r, hleft⟩
              rw [hok]
              rfl

/-- One round of the loop on the bytes of some records finds the pointer that is next among them. -/
theorem readPointers_one {records rest : List ChunkPointer} (hfits : ∀ r ∈ records, r.Fits)
    (h : s.rest = records.flatMap ChunkPointer.bytes) {fuel : Nat} (hfuel : records.length ≤ fuel)
    (hnext : nextPointer records = some (cp, rest)) :
    ∃ s', BackupFile.readPointers fuel 1 s = ([cp], s') ∧
      s'.rest = rest.flatMap ChunkPointer.bytes := by
  induction records generalizing s fuel with
  | nil => cases hnext
  | cons r records ih =>
      rw [List.length_cons] at hfuel
      obtain ⟨fuel, rfl⟩ : ∃ n, fuel = n + 1 := ⟨fuel - 1, by omega⟩
      obtain ⟨hr, hrest⟩ := List.forall_mem_cons.mp hfits
      rw [List.flatMap_cons] at h
      obtain ⟨hread, htail⟩ := readPointer_eq hr h
      have hlong : ¬ s.rest.length < chunkPointerSize := by
        rw [h, List.length_append, ChunkPointer.length_bytes]
        omega
      rw [BackupFile.readPointers, if_neg hlong, hread]
      rw [nextPointer] at hnext
      simp only
      by_cases hflag : r.id = 0 - chunkSegmentStart ∨ r.id = 0 - chunkSegmentEnd
      · rw [if_pos hflag] at hnext ⊢
        exact ih hrest htail (Nat.le_of_succ_le_succ hfuel) hnext
      · rw [if_neg hflag] at hnext ⊢
        cases hnext
        refine ⟨_, ?_, htail⟩
        cases fuel <;> rfl

end Decoding

section Pointers

variable {b : BackupFile} {left : List ChunkPointer}

structure ReadingPointers (b : BackupFile) (left : List ChunkPointer) : Prop where
  records : ∃ records : List ChunkPointer, b.recipeFp.rest = records.flatMap ChunkPointer.bytes ∧
    (∀ r ∈ records, r.Fits) ∧ records.filter ChunkPointer.isPointer = left
  numberOfChunks : b.numberOfChunks = b.readChunkNum + left.length
  nonneg : 0 ≤ b.readChunkNum
  chunks_lt : b.numberOfChunks < 2 ^ 31

theorem ReadingPointers.end (h : ReadingPointers b []) (n : Nat) :
    b.readNextNChunkPointers n = .ok (none, b) := by
  have heq : b.readChunkNum = b.numberOfChunks := by
    rw [h.numberOfChunks, List.length_nil]
    omega
  rw [BackupFile.readNextNChunkPointers, if_pos heq]

/-- A call returns the next pointers, as many as asked for while there are that many. -/
theorem ReadingPointers.next (h : ReadingPointers b left) (hne : left ≠ []) (n : Nat) :
    ∃ b', b.readNextNChunkPointers n = .ok (some (left.take n, (left.take n).length), b') ∧
      ReadingPointers b' (left.drop n) := by
  obtain ⟨records, hbytes, hfits, rfl⟩ := h.records
  generalize hleft : records.filter ChunkPointer.isPointer = left at hne h ⊢
  have hpos := List.length_pos_iff.mpr hne
  have hnumber := h.numberOfChunks
  have hlt := h.chunks_lt
  have hnonneg := h.nonneg
  have hnot : ¬ b.readChunkNum = b.numberOfChunks := by omega
  have hdiff : b.numberOfChunks - b.readChunkNum = left.length := by omega
  -- the number of pointers that the call returns
  obtain ⟨k, hk⟩ : ∃ k, k = min n left.length := ⟨_, rfl⟩
  have htake : left.take n = left.take k := hk ▸ List.take_eq_take_min
  have hdrop : left.drop n = left.drop k := List.drop_eq_drop_iff.mpr (by omega)
  have hlength : (left.take k).length = k := by
    rw [List.length_take]
    omega
  have hnum : (if (n : Int) < left.length then (n : Int) else toInt32 left.length) = k := by
    split
    · omega
    · rw [toInt32_eq (by omega) (by omega)]
      omega
  have hle : b.readChunkNum + (k : Int) ≤ b.numberOfChunks := by omega
  have hcount : toInt32 (b.readChunkNum + k) = b.readChunkNum + k :=
    toInt32_eq (by omega) (by omega)
  have hfuel : records.length ≤ b.recipeFp.content.length := by
    have hbytes' := congrArg List.length hbytes
    rw [length_flatMap_pointers, Stream.rest, List.length_drop, chunkPointerSize] at hbytes'
    omega
  have hmost : k ≤ (records.filter ChunkPointer.isPointer).length := by
    rw [hleft]
    omega
  obtain ⟨s', records', hread, hrest, hsub, hleft'⟩ :=
    readPointers_eq hfits hbytes hfuel hmost
  rw [hleft] at hread hleft'
  refine ⟨{ b with recipeFp := s', readChunkNum := b.readChunkNum + k }, ?_,
    ⟨records', hrest, fun r hr => hfits r (hsub.subset hr), hleft'.trans hdrop.symm⟩, ?_, ?_, hlt⟩
  · rw [BackupFile.readNextNChunkPointers, if_neg hnot]
    simp only [hdiff, hnum, hcount, Int.toNat_natCast, hread, require_of hle]
    rw [htake, hlength]
    rfl
  · show b.numberOfChunks = b.readChunkNum + k + (left.drop n).length
    rw [List.length_drop]
    clear hcount hnum
    omega
  · show 0 ≤ b.readChunkNum + k
    omega

theorem ReadingPointers.successive (h : ReadingPointers b left) (ns : List Nat) :
    Destor.successive BackupFile.readNextNChunkPointers b ns = .ok (pointerPieces left ns) := by
  induction ns generalizing b left with
  | nil => rfl
  | cons n ns ih =>
      by_cases hne : left = []
      · subst hne
        rw [pointerPieces, if_pos rfl, List.drop_nil]
        exact bind_ok_iff.mpr ⟨_, h.end n, bind_ok_iff.mpr ⟨_, ih h, rfl⟩⟩
      · obtain ⟨b', hok, h'⟩ := h.next hne n
        rw [pointerPieces, if_neg hne]
        exact bind_ok_iff.mpr ⟨_, hok, bind_ok_iff.mpr ⟨_, ih h', rfl⟩⟩

theorem readNextNChunkPointers_one {bv : BackupVersion} {records rest : List ChunkPointer}
    {cp : ChunkPointer} {read : Int} (hfits : ∀ r ∈ records, r.Fits)
    (hrest : b.recipeFp.rest = records.flatMap ChunkPointer.bytes)
    (hnumber : b.numberOfChunks = bv.numberOfChunks) (hread : b.readChunkNum ≤ b.numberOfChunks)
    (h : readNextChunkPointer bv b.readChunkNum records = .ok (cp, read, rest)) :
    ∃ b', b.readNextNChunkPointers 1 = .ok (some ([cp], 1), b') ∧ b'.readChunkNum = read ∧
      b'.numberOfChunks = bv.numberOfChunks ∧ b'.readChunkNum ≤ b'.numberOfChunks ∧
      b'.recipeFp.rest = rest.flatMap ChunkPointer.bytes := by
  rw [readNextChunkPointer] at h
  split at h
  · cases h
  · rename_i hne
    split at h
    · cases h
    · rename_i hnext
      obtain ⟨u, hassert, h⟩ := bind_ok_iff.mp h
      cases h
      have hle := require_ok_iff.mp hassert
      have hfuel : records.length ≤ b.recipeFp.content.length := by
        have hbytes := congrArg List.length hrest
        rw [length_flatMap_pointers, Stream.rest, List.length_drop, chunkPointerSize] at hbytes
        omega
      obtain ⟨s', hok, hs'⟩ := readPointers_one hfits hrest hfuel hnext
      have hnum : (if ((1 : Nat) : Int) < b.numberOfChunks - b.readChunkNum then ((1 : Nat) : Int)
          else toInt32 (b.numberOfChunks - b.readChunkNum)) = 1 := by
        split
        · rfl
        · have hone : b.numberOfChunks - b.readChunkNum = 1 := by omega
          rw [hone]
          rfl
      refine ⟨{ b with recipeFp := s', readChunkNum := toInt32 (b.readChunkNum + 1) }, ?_, rfl,
        hnumber, ?_, hs'⟩
      · rw [BackupFile.readNextNChunkPointers, if_neg (by omega)]
        simp only [hnum, show (1 : Int).toNat = 1 from rfl, hok]
        refine bind_ok_iff.mpr ⟨(), require_of ?_, rfl⟩
        rw [hnumber]
        exact hle
      · show toInt32 (b.readChunkNum + 1) ≤ b.numberOfChunks
        rw [hnumber]
        exact hle

end Pointers

section Metas

variable {b : BackupFile} {files left : List StoredFile} {tail : List UInt8}

/-- The reader of file recipes stands before those of the last files. -/
structure ReadingMetas (b : BackupFile) (left : List StoredFile) : Prop where
  metas : b.metadataFp.rest = (left.map StoredFile.fileRecipeMeta).flatMap FileRecipeMeta.bytes
  numberOfFiles : b.readFileNum + left.length ≤ b.numberOfFiles
  int : -2 ^ 31 ≤ b.readFileNum

/-- A call returns the next file: its name, its chunk count and its size. -/
theorem ReadingMetas.next {f : StoredFile} (h : ReadingMetas b (f :: left)) (hname : 0 ∉ f.name)
    (hlen : f.name.length < 2 ^ 31) (hnum : f.pointers.length < 2 ^ 63)
    (hsize : (f.pointers.map ChunkPointer.size).sum < 2 ^ 63) :
    ∃ b', b.readNextFileRecipeMeta = .ok (f.fileRecipeMeta, b') ∧ ReadingMetas b' left := by
  have hmetas := h.metas
  have h₁ : b.metadataFp.rest = leInt 4 f.name.length ++ (f.name ++ (leInt 8 f.pointers.length ++
      (leInt 8 (f.pointers.map ChunkPointer.size).sum ++
        (left.map StoredFile.fileRecipeMeta).flatMap FileRecipeMeta.bytes))) := by
    rw [hmetas, List.map_cons, List.flatMap_cons, FileRecipeMeta.bytes]
    simp only [StoredFile.fileRecipeMeta, List.append_assoc]
  have h₂ := Stream.rest_skip h₁ (length_leInt 4 _)
  have h₃ := Stream.rest_skip h₂ rfl
  have h₄ := Stream.rest_skip h₃ (length_leInt 8 _)
  have h₅ := Stream.rest_skip h₄ (length_leInt 8 _)
  have hfiles := h.numberOfFiles
  rw [List.length_cons] at hfiles
  have hle : b.readFileNum ≤ b.numberOfFiles := by omega
  have hfilename : f.name.takeWhile (· != 0) = f.name := Text.cString_of_not_mem hname
  have hread := toInt32_le (show -2 ^ 31 ≤ b.readFileNum + 1 by have := h.int; omega)
  have hlow : -2 ^ 31 ≤ toInt32 (b.readFileNum + 1) := Int.le_bmod (by decide)
  refine ⟨{ b with
      metadataFp := b.metadataFp.skip 4 |>.skip f.name.length |>.skip 8 |>.skip 8
      readFileNum := toInt32 (b.readFileNum + 1) },
    bind_ok_iff.mpr ⟨(), require_of hle, ?_⟩, ?_⟩
  · rw [Stream.fread_eq h₁ (length_leInt 4 _)]
    simp only [ofLeInt_leInt_nat4 hlen, Int.toNat_natCast]
    rw [Stream.fread_eq h₂ rfl]
    simp only
    rw [Stream.fread_eq h₃ (length_leInt 8 _)]
    simp only
    rw [Stream.fread_eq h₄ (length_leInt 8 _)]
    simp only [ofLeInt_leInt_nat8 hnum, ofLeInt_leInt_nat8 hsize, Int.toNat_natCast, hfilename]
    rfl
  · exact ⟨h₅, by simp only; omega, hlow⟩

theorem ReadingMetas.successive (h : ReadingMetas b left)
    (hleft : ∀ f ∈ left, (0 ∉ f.name ∧ f.name.length < 2 ^ 31) ∧ f.pointers.length < 2 ^ 63 ∧
      (f.pointers.map ChunkPointer.size).sum < 2 ^ 63) :
    Destor.successive (fun b _ => b.readNextFileRecipeMeta) b left =
      .ok (left.map StoredFile.fileRecipeMeta) := by
  induction left generalizing b with
  | nil => rfl
  | cons f left ih =>
      obtain ⟨⟨⟨hname, hlen⟩, hnum, hsize⟩, hleft⟩ := List.forall_mem_cons.mp hleft
      obtain ⟨b', hok, h'⟩ := h.next hname hlen hnum hsize
      exact bind_ok_iff.mpr ⟨_, hok, bind_ok_iff.mpr ⟨_, ih h' hleft, rfl⟩⟩

end Metas

section Segments

variable {b : BackupFile} {s : Stream} {pointers : List ChunkPointer} {tail : List UInt8}

theorem readSegmentPointers_eq (hfits : ∀ cp ∈ pointers, cp.Fits)
    (hids : ∀ cp ∈ pointers, temporaryId < cp.id)
    (h : s.rest = pointers.flatMap ChunkPointer.bytes ++ tail) (kvpairs : FpMap ChunkPointer) :
    ∃ s' : Stream, BackupFile.readSegmentPointers pointers.length kvpairs s =
        .ok (pointers.foldl (fun m cp => m.insert cp.fp cp) kvpairs, s') ∧ s'.rest = tail := by
  induction pointers generalizing s kvpairs with
  | nil => exact ⟨s, rfl, h⟩
  | cons cp pointers ih =>
      obtain ⟨hcp, hfits⟩ := List.forall_mem_cons.mp hfits
      obtain ⟨hid, hids⟩ := List.forall_mem_cons.mp hids
      rw [List.flatMap_cons, List.append_assoc] at h
      obtain ⟨hread, hrest⟩ := readPointer_eq hcp h
      obtain ⟨s', hok, htail⟩ := ih hfits hids hrest (kvpairs.insert cp.fp cp)
      refine ⟨s', ?_, htail⟩
      rw [List.length_cons, BackupFile.readSegmentPointers, hread]
      exact bind_ok_iff.mpr ⟨(), require_of hid, hok⟩

theorem segmentFlag_fits (flag : Int) {n : Nat} (hflag : 0 ≤ flag ∧ flag < 2 ^ 63)
    (hn : n < 2 ^ 31) : (segmentFlag flag n).Fits := by
  constructor
  · show -2 ^ 63 ≤ 0 - flag
    omega
  · show 0 - flag < 2 ^ 63
    omega
  · exact hn

/-- A call where a segment starts returns its table. -/
theorem readNextSegment_eq (hfits : ∀ cp ∈ pointers, cp.Fits)
    (hids : ∀ cp ∈ pointers, temporaryId < cp.id) (hlen : pointers.length < 2 ^ 31)
    (h : b.recipeFp.rest = (encodeSegment pointers).flatMap ChunkPointer.bytes ++ tail) :
    ∃ sr b', b.readNextSegment = .ok (some sr, b') ∧ sr.kvpairs = segmentTable pointers ∧
      b'.recipeFp.rest = tail := by
  have hstart := segmentFlag_fits chunkSegmentStart (by decide) hlen
  have hend := segmentFlag_fits chunkSegmentEnd (by decide) (show 0 < 2 ^ 31 by decide)
  rw [encodeSegment, List.cons_append, List.flatMap_cons, List.flatMap_append,
    List.flatMap_singleton, List.append_assoc, List.append_assoc] at h
  obtain ⟨hread, h₁⟩ := readPointer_eq hstart h
  obtain ⟨s₂, hpointers, h₂⟩ := readSegmentPointers_eq hfits hids h₁ ∅
  obtain ⟨hreadEnd, h₃⟩ := readPointer_eq hend h₂
  have hmore : ¬ (b.recipeFp.rest.length < chunkPointerSize ∨
      (segmentFlag chunkSegmentStart pointers.length).id ≠ -chunkSegmentStart) := by
    rw [h, List.length_append, ChunkPointer.length_bytes]
    rintro (hshort | hflag)
    · omega
    · exact hflag (Int.zero_sub chunkSegmentStart)
  refine ⟨{ id := makeSegmentId b.bvNum b.recipeFp.pos pointers.length
            kvpairs := segmentTable pointers },
    { b with recipeFp := s₂.skip 20 |>.skip 8 |>.skip 4 }, ?_, rfl, h₃⟩
  unfold BackupFile.readNextSegment
  simp only [hread]
  rw [if_neg hmore]
  refine bind_ok_iff.mpr ⟨_, hpointers, ?_⟩
  simp only [hreadEnd]
  exact bind_ok_iff.mpr ⟨(), require_of rfl, rfl⟩

theorem readNextSegment_end (h : b.recipeFp.rest = []) :
    ∃ b', b.readNextSegment = .ok (none, b') := by
  have hshort : b.recipeFp.rest.length < chunkPointerSize := by
    rw [h]
    decide
  refine ⟨{ b with recipeFp := (BackupFile.readPointer b.recipeFp).2 }, ?_⟩
  unfold BackupFile.readNextSegment
  exact if_pos (Or.inl hshort)

/-- The tables of the segments, one after another, and then `NULL`. -/
theorem readSegments_eq {segments : List (List ChunkPointer)}
    (hfits : ∀ pointers ∈ segments, ∀ cp ∈ pointers, cp.Fits)
    (hids : ∀ pointers ∈ segments, ∀ cp ∈ pointers, temporaryId < cp.id)
    (hlen : ∀ pointers ∈ segments, pointers.length < 2 ^ 31)
    (h : b.recipeFp.rest = (encodeSegments segments).flatMap ChunkPointer.bytes)
    {calls : List Nat} (hcalls : calls.length = segments.length + 1) :
    ∃ srs : List SegmentRecipe, Destor.successive (fun b _ => b.readNextSegment) b calls =
        .ok (srs.map some ++ [none]) ∧
      List.Forall₂ (fun pointers sr => sr.kvpairs = segmentTable pointers) segments srs := by
  induction segments generalizing b calls with
  | nil =>
      obtain ⟨call, rfl⟩ := List.length_eq_one_iff.mp hcalls
      obtain ⟨b', hok⟩ := readNextSegment_end h
      exact ⟨[], bind_ok_iff.mpr ⟨_, hok, rfl⟩, .nil⟩
  | cons pointers segments ih =>
      obtain ⟨call, calls, rfl⟩ := List.exists_cons_of_length_eq_add_one hcalls
      obtain ⟨hfit, hfits⟩ := List.forall_mem_cons.mp hfits
      obtain ⟨hid, hids⟩ := List.forall_mem_cons.mp hids
      obtain ⟨hlen₁, hlen⟩ := List.forall_mem_cons.mp hlen
      rw [encodeSegments_cons, List.flatMap_append] at h
      obtain ⟨sr, b', hok, hsr, hrest⟩ := readNextSegment_eq hfit hid hlen₁ h
      obtain ⟨srs, hoks, hsrs⟩ := ih hfits hids hlen hrest (Nat.succ.inj hcalls)
      exact ⟨sr :: srs, bind_ok_iff.mpr ⟨_, hok, bind_ok_iff.mpr ⟨_, hoks, rfl⟩⟩,
        .cons hsr hsrs⟩

end Segments

section RoundTrip

variable {rb : RecordedBackup} {b : BackupFile} {bv : BackupVersion} {dir : RecipeDir}
  {files : VersionFiles} {path : List UInt8}

structure OpenedVersion (b : BackupFile) (bv : BackupVersion) : Prop where
  metas : b.metadataFp.rest = bv.metas.flatMap FileRecipeMeta.bytes
  recipe : b.recipeFp.rest = bv.recipe.flatMap ChunkPointer.bytes
  numberOfFiles : b.numberOfFiles = bv.numberOfFiles
  numberOfChunks : b.numberOfChunks = bv.numberOfChunks
  readFileNum : b.readFileNum = 0
  readChunkNum : b.readChunkNum = 0

/-- The header is read back field by field. -/
theorem openBackupVersion_holds (hdir : dir bv.bvNum = some files) (hholds : files.Holds bv path)
    (hnum : bv.bvNum < 2 ^ 31) (hfiles : bv.numberOfFiles < 2 ^ 63)
    (hchunks : bv.numberOfChunks < 2 ^ 63) (hpath : path.length < 2 ^ 31) :
    ∃ b, BackupFile.openBackupVersion dir bv.bvNum = .ok b ∧ OpenedVersion b bv := by
  have h₁ : (Stream.openRead files.metadata).rest = leInt 4 bv.bvNum ++ (leInt 4 0 ++
      (leInt 8 bv.numberOfFiles ++ (leInt 8 bv.numberOfChunks ++ (leInt 4 path.length ++
        (path ++ bv.metas.flatMap FileRecipeMeta.bytes))))) := by
    show files.metadata.drop 0 = _
    rw [List.drop_zero, hholds.metadata]
    simp only [List.append_assoc]
  have h₂ := Stream.rest_skip h₁ (length_leInt 4 _)
  have h₃ := Stream.rest_skip h₂ (length_leInt 4 _)
  have h₄ := Stream.rest_skip h₃ (length_leInt 8 _)
  have h₅ := Stream.rest_skip h₄ (length_leInt 8 _)
  have h₆ := Stream.rest_skip h₅ (length_leInt 4 _)
  have h₇ := Stream.rest_skip h₆ rfl
  unfold BackupFile.openBackupVersion
  simp only [hdir]
  rw [Stream.fread_eq h₁ (length_leInt 4 _)]
  simp only
  rw [Stream.fread_eq h₂ (length_leInt 4 _)]
  simp only
  rw [Stream.fread_eq h₃ (length_leInt 8 _)]
  simp only
  rw [Stream.fread_eq h₄ (length_leInt 8 _)]
  simp only
  rw [Stream.fread_eq h₅ (length_leInt 4 _)]
  simp only [ofLeInt_leInt_nat4 hnum, ofLeInt_leInt_nat4 hpath, ofLeInt_leInt_nat8 hfiles,
    ofLeInt_leInt_nat8 hchunks, Int.toNat_natCast]
  rw [Stream.fread_eq h₆ rfl]
  refine ⟨_, bind_ok_iff.mpr ⟨(), require_of trivial, rfl⟩, h₇, ?_, rfl, rfl, rfl, rfl⟩
  show files.recipe.drop 0 = _
  rw [List.drop_zero, hholds.recipe]

theorem mem_pointers_of_segment {segment : List Chunk} {cp : ChunkPointer}
    (hsegment : segment ∈ rb.segments) (hcp : cp ∈ recipePointers segment) :
    cp ∈ rb.pointers := by
  obtain ⟨c, hc, hnormal, rfl⟩ := mem_recipePointers.mp hcp
  have hmem : c ∈ rb.segments.flatten := List.mem_flatten.mpr ⟨segment, hsegment, hc⟩
  rw [rb.cut] at hmem
  obtain ⟨f, hf, hc⟩ := List.mem_flatMap.mp hmem
  rcases mem_storedFile_stream hc with rfl | rfl | ⟨cp, hpointer, rfl⟩
  · cases hnormal
  · cases hnormal
  · exact List.mem_flatMap.mpr ⟨f, hf, hpointer⟩

theorem RecordedBackup.Fits.pointer (h : rb.Fits) {cp : ChunkPointer} (hcp : cp ∈ rb.pointers) :
    cp.Fits := by
  obtain ⟨hlow, hhigh⟩ := h.ids cp hcp
  exact ⟨by omega, hhigh, h.sizes cp hcp⟩

theorem RecordedBackup.Fits.segment (h : rb.Fits) {segment : List Chunk}
    (hsegment : segment ∈ rb.segments) : (recipePointers segment).length < 2 ^ 20 := by
  have hsmall := h.small segment hsegment
  rwa [← length_recipePointers segment] at hsmall

theorem RecordedBackup.Fits.record (h : rb.Fits) {r : ChunkPointer}
    (hr : r ∈ encodeSegments (rb.segments.map recipePointers)) : r.Fits := by
  obtain ⟨pointers, hpointers, hr⟩ := List.mem_flatMap.mp hr
  obtain ⟨segment, hsegment, rfl⟩ := List.mem_map.mp hpointers
  have hlen := h.segment hsegment
  rw [encodeSegment, List.mem_append, List.mem_cons, List.mem_singleton] at hr
  rcases hr with (rfl | hr) | rfl
  · exact segmentFlag_fits chunkSegmentStart (by decide) (by omega)
  · exact h.pointer (mem_pointers_of_segment hsegment hr)
  · exact segmentFlag_fits chunkSegmentEnd (by decide) (by decide)

theorem RecordedBackup.Fits.filesize (h : rb.Fits) (hnum : rb.pointers.length < 2 ^ 31)
    {f : StoredFile} (hf : f ∈ rb.files) :
    f.pointers.length < 2 ^ 31 ∧ (f.pointers.map ChunkPointer.size).sum < 2 ^ 63 := by
  have hsub : f.pointers.Sublist rb.pointers :=
    List.sublist_flatten_of_mem (List.mem_map_of_mem hf)
  have hlen := hsub.length_le
  have hsum : (f.pointers.map ChunkPointer.size).sum ≤ f.pointers.length * 2 ^ 31 := by
    have hle := List.sum_le_card_nsmul (f.pointers.map ChunkPointer.size) (2 ^ 31) fun n hn => by
      obtain ⟨cp, hcp, rfl⟩ := List.mem_map.mp hn
      exact Nat.le_of_lt (h.sizes cp (hsub.subset hcp))
    rwa [List.length_map] at hle
  refine ⟨by omega, ?_⟩
  calc (f.pointers.map ChunkPointer.size).sum
      ≤ f.pointers.length * 2 ^ 31 := hsum
    _ ≤ (2 ^ 31 - 1) * 2 ^ 31 := Nat.mul_le_mul_right _ (by omega)
    _ < 2 ^ 63 := by decide

theorem roundTrips_of_opened (hfits : rb.Fits) (hnum : rb.pointers.length < 2 ^ 31)
    (hb : OpenedVersion b bv) (hrec : Recorded bv rb)
    (hrecipe : bv.recipe = encodeSegments (rb.segments.map recipePointers)) :
    RoundTrips rb b := by
  have hrecords : ∀ r ∈ bv.recipe, r.Fits := fun r hr => hfits.record (hrecipe ▸ hr)
  refine ⟨?_, fun ns _ => ?_, ?_⟩
  · have hreading : ReadingMetas b rb.files := by
      refine ⟨hrec.metas ▸ hb.metas, ?_, ?_⟩
      · rw [hb.readFileNum, hb.numberOfFiles, hrec.numberOfFiles]
        omega
      · rw [hb.readFileNum]
        decide
    apply hreading.successive
    intro f hf
    obtain ⟨hzero, hname⟩ := hfits.names f hf
    obtain ⟨hlen, hsize⟩ := hfits.filesize hnum hf
    rw [nameBound] at hname
    exact ⟨⟨hzero, by omega⟩, by omega, hsize⟩
  · have hreading : ReadingPointers b rb.pointers := by
      refine ⟨⟨bv.recipe, hb.recipe, hrecords, hrec.pointers⟩, ?_, ?_, ?_⟩
      · rw [hb.readChunkNum, hb.numberOfChunks, hrec.numberOfChunks, Int.zero_add]
      · rw [hb.readChunkNum]
      · rw [hb.numberOfChunks, hrec.numberOfChunks]
        omega
    exact hreading.successive ns
  · have hsegment : ∀ pointers ∈ rb.segments.map recipePointers,
        pointers.length < 2 ^ 31 ∧ ∀ cp ∈ pointers, cp ∈ rb.pointers := by
      intro pointers hpointers
      obtain ⟨segment, hsegment, rfl⟩ := List.mem_map.mp hpointers
      have hlen := hfits.segment hsegment
      exact ⟨by omega, fun cp hcp => mem_pointers_of_segment hsegment hcp⟩
    have hrest : b.recipeFp.rest =
        (encodeSegments (rb.segments.map recipePointers)).flatMap ChunkPointer.bytes := by
      rw [hb.recipe, hrecipe]
    have hcalls : (List.range (rb.segments.length + 1)).length =
        (rb.segments.map recipePointers).length + 1 := by
      rw [List.length_range, List.length_map]
    obtain ⟨srs, hok, hsrs⟩ := readSegments_eq
      (fun pointers h cp hcp => hfits.pointer ((hsegment pointers h).2 cp hcp))
      (fun pointers h cp hcp =>
        temporaryId_lt_of_nonneg (hfits.ids cp ((hsegment pointers h).2 cp hcp)).1)
      (fun pointers h => (hsegment pointers h).1) hrest hcalls
    refine ⟨srs, hok, ?_⟩
    rw [List.forall₂_map_left_iff] at hsrs
    apply hsrs.imp
    intro segment sr hsr fp
    rw [hsr, lookup_segmentTable]

/-- The counter of the chunks that have been read is an `int`: it meets the end of a version only if
the number of chunks is one. -/
theorem chunks_lt_of_end (hint : b.readChunkNum < 2 ^ 31) {ns : List Nat}
    {results : List (Option (List ChunkPointer × Int))}
    (hok : successive BackupFile.readNextNChunkPointers b ns = .ok results)
    (hend : none ∈ results) : b.numberOfChunks < 2 ^ 31 := by
  induction ns generalizing b results with
  | nil =>
      cases hok
      cases hend
  | cons n ns ih =>
      obtain ⟨⟨r, b'⟩, hcall, hok⟩ := bind_ok_iff.mp hok
      obtain ⟨rs, hrest, hok⟩ := bind_ok_iff.mp hok
      cases hok
      unfold BackupFile.readNextNChunkPointers at hcall
      by_cases heq : b.readChunkNum = b.numberOfChunks
      · rw [← heq]
        exact hint
      · simp only [if_neg heq] at hcall
        obtain ⟨-, -, hcall⟩ := bind_ok_iff.mp hcall
        have hnext : r ≠ none ∧ b'.readChunkNum < 2 ^ 31 ∧ b'.numberOfChunks = b.numberOfChunks := by
          cases hcall
          exact ⟨Option.some_ne_none _, Int.bmod_lt (by decide), rfl⟩
        obtain ⟨hsome, hint', hsame⟩ := hnext
        rw [← hsame]
        exact ih hint' hrest ((List.mem_cons.mp hend).resolve_left hsome.symm)

theorem none_mem_pointerPieces (left : List ChunkPointer) :
    none ∈ pointerPieces left (List.replicate (left.length + 1) 1) := by
  induction left with
  | nil => exact List.mem_cons_self
  | cons cp left ih => exact List.mem_cons_of_mem _ ih

theorem chunks_lt_of_roundTrips (hb : OpenedVersion b bv) (hrec : Recorded bv rb)
    (h : RoundTrips rb b) : rb.pointers.length < 2 ^ 31 := by
  have hones : ∀ n ∈ List.replicate (rb.pointers.length + 1) 1, 1 ≤ n ∧ n < 2 ^ 31 := by
    intro n hn
    rw [List.eq_of_mem_replicate hn]
    decide
  have hlt := chunks_lt_of_end (hb.readChunkNum ▸ by decide) (h.pointers _ hones)
    (none_mem_pointerPieces rb.pointers)
  rw [hb.numberOfChunks, hrec.numberOfChunks] at hlt
  omega

/-- Every backup is written, with every segment buffer full when it goes to the file, and its version
is opened. -/
theorem RecordedBackup.Fits.opened (hfits : rb.Fits) (dir : RecipeDir) {bvNum : Nat}
    (hnum : bvNum < 2 ^ 31) (hpath : path.length < 2 ^ 31) :
    ∃ dir' b bv, BackupFile.writeBackup dir bvNum path rb.segments = .ok dir' ∧
      BackupFile.openBackupVersion dir' bvNum = .ok b ∧ OpenedVersion b bv ∧ Recorded bv rb ∧
      bv.recipe = encodeSegments (rb.segments.map recipePointers) := by
  have hids : ∀ cp ∈ rb.pointers, 0 ≤ cp.id := fun cp hcp => (hfits.ids cp hcp).1
  obtain ⟨files, bv, hwrite, hrb, hholds, hbv, hrecipe⟩ := rb.writeBackup_holds dir bvNum path
    hids (fun f hf => (hfits.names f hf).2) hfits.small
  obtain ⟨bv', hrb', hrec⟩ := rb.write_recorded bvNum hids
  obtain rfl : bv = bv' := Except.ok.inj (hrb.symm.trans hrb')
  have hcut : (path.reverse.dropWhile (· != 47)).reverse.length < 2 ^ 31 := by
    have hle := (List.dropWhile_sublist (l := path.reverse) (· != 47)).length_le
    rw [List.length_reverse] at hle ⊢
    omega
  have hdir : Function.update dir (bvNum : Int) (some files) bv.bvNum = some files := by
    rw [hbv]
    exact Function.update_self _ _ _
  obtain ⟨b, hopen, hb⟩ := openBackupVersion_holds hdir hholds (hbv ▸ hnum)
    (hrec.numberOfFiles ▸ hfits.files_lt) (hrec.numberOfChunks ▸ hfits.pointers_lt) hcut
  rw [hbv] at hopen
  exact ⟨_, b, bv, hwrite, hopen, hb, hrec, hrecipe⟩

/-- What the filter thread wrote is read back as it was exactly if there are fewer than `2^31`
chunks. -/
theorem recipe_round_trip_iff (rb : RecordedBackup) (hfits : rb.Fits) (dir : RecipeDir)
    {bvNum : Nat} (hnum : bvNum < 2 ^ 31) {path : List UInt8} (hpath : path.length < 2 ^ 31) :
    (∃ dir' b, BackupFile.writeBackup dir bvNum path rb.segments = .ok dir' ∧
        BackupFile.openBackupVersion dir' bvNum = .ok b ∧ RoundTrips rb b) ↔
      rb.pointers.length < 2 ^ 31 := by
  obtain ⟨dir', b, bv, hwrite, hopen, hb, hrec, hrecipe⟩ := hfits.opened dir hnum hpath
  constructor
  · rintro ⟨dir'', b', hwrite', hopen', htrips⟩
    cases hwrite.symm.trans hwrite'
    cases hopen.symm.trans hopen'
    exact chunks_lt_of_roundTrips hb hrec htrips
  · intro hlt
    exact ⟨dir', b, hwrite, hopen, roundTrips_of_opened hfits hlt hb hrec hrecipe⟩

/-- A backup of `n` files with one chunk each, every file in a segment of its own. -/
def equalFiles (n : Nat) : RecordedBackup where
  files := List.replicate n { name := [97], pointers := [{ fp := .fill 0, id := 0, size := 1 }] }
  segments := List.replicate n (StoredFile.stream
    { name := [97], pointers := [{ fp := .fill 0, id := 0, size := 1 }] })
  cut := by rw [List.flatMap, List.map_replicate]

theorem pointers_equalFiles (n : Nat) :
    (equalFiles n).pointers = List.replicate n { fp := .fill 0, id := 0, size := 1 } := by
  induction n with
  | zero => rfl
  | succ n ih =>
      have hfiles : (equalFiles (n + 1)).pointers =
          { fp := .fill 0, id := 0, size := 1 } :: (equalFiles n).pointers := rfl
      rw [hfiles, ih, List.replicate_succ]

theorem equalFiles_fits {n : Nat} (h : n < 2 ^ 63) : (equalFiles n).Fits := by
  refine ⟨fun cp hcp => ?_, fun cp hcp => ?_, fun f hf => ?_, fun segment hs => ?_, ?_, ?_⟩
  · rw [pointers_equalFiles] at hcp
    rw [List.eq_of_mem_replicate hcp]
    decide
  · rw [pointers_equalFiles] at hcp
    rw [List.eq_of_mem_replicate hcp]
    decide
  · rw [List.eq_of_mem_replicate hf]
    decide
  · rw [List.eq_of_mem_replicate hs]
    decide
  · rwa [equalFiles, List.length_replicate]
  · rwa [pointers_equalFiles, List.length_replicate]

private def spanningFile : StoredFile :=
  { name := [97]
    pointers := [{ fp := .fill 1, id := 0, size := 2 }, { fp := .fill 2, id := 3, size := 1 },
      { fp := .fill 1, id := 0, size := 2 }] }

/-- A file over two segments with an empty one between them, and an empty file. -/
private def spanningBackup : RecordedBackup where
  files := [spanningFile, { name := [98], pointers := [] }]
  segments := [spanningFile.stream.take 2, [],
    spanningFile.stream.drop 2 ++ StoredFile.stream { name := [98], pointers := [] }]
  cut := rfl

theorem recipe_round_trip_iff_spanning : ∃ dir' b,
    BackupFile.writeBackup (fun _ => none) (0 : Nat) [47] spanningBackup.segments = .ok dir' ∧
      BackupFile.openBackupVersion dir' (0 : Nat) = .ok b ∧ RoundTrips spanningBackup b := by
  have hfits : spanningBackup.Fits :=
    ⟨by decide, by decide, by decide, by decide, by decide, by decide⟩
  exact (recipe_round_trip_iff spanningBackup hfits (fun _ => none) (by decide) (by decide)).mpr
    (by decide)

/-- With `2^31` chunks the counter of the reader wraps, and the end is never reported. -/
theorem pointers_without_end : (equalFiles (2 ^ 31)).Fits ∧
    ¬ ∃ dir' b, BackupFile.writeBackup (fun _ => none) (0 : Nat) [47]
        (equalFiles (2 ^ 31)).segments = .ok dir' ∧
      BackupFile.openBackupVersion dir' (0 : Nat) = .ok b ∧ RoundTrips (equalFiles (2 ^ 31)) b := by
  have hfits : (equalFiles (2 ^ 31)).Fits := equalFiles_fits (by decide)
  refine ⟨hfits, ?_⟩
  rintro ⟨dir', b, hwrite, hopen, htrips⟩
  have hpath : [(47 : UInt8)].length < 2 ^ 31 := by decide
  obtain ⟨dir'', b', bv, hwrite', hopen', hb, hrec, -⟩ :=
    hfits.opened (fun _ => none) (show 0 < 2 ^ 31 by decide) hpath
  cases hwrite.symm.trans hwrite'
  cases hopen.symm.trans hopen'
  have hlt := chunks_lt_of_roundTrips hb hrec htrips
  rw [pointers_equalFiles, List.length_replicate] at hlt
  exact absurd hlt (lt_irrefl _)

end RoundTrip

end Destor
