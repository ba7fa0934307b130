/- digest: The three segmenting methods, and that the segments partition the stream. -/

import Destor.Basic
import Destor.Library.Outcome

set_option autoImplicit false
set_option relaxedAutoImplicit false

namespace Destor

open Library.Outcome

namespace Segment

/-- `g_sequence_append(tmp->chunks, c)` without counting the chunk. -/
def appendSignal (s : Segment) (c : Chunk) : Segment := { s with chunks := s.chunks ++ [c] }

def appendNormal (s : Segment) (c : Chunk) : Segment :=
  { chunkNum := s.chunkNum + 1, chunks := s.chunks ++ [c] }

end Segment

def segmentFixed (cfg : Config) (tmp : Segment) (c : Chunk) : Option Segment × Segment :=
  if c.isNormal then
    let tmp := tmp.appendNormal c
    if tmp.chunkNum = cfg.segmentSize then (some tmp, newSegment) else (none, tmp)
  else (none, tmp.appendSignal c)

def segmentFileDefined (tmp : Segment) (c : Chunk) : Option Segment × Segment :=
  if c.flag.fileEnd then (some (tmp.appendSignal c), newSegment)
  else if c.flag.fileStart then (none, tmp.appendSignal c)
  else (none, tmp.appendNormal c)

/-- `segment_content_defined`. The configuration may give zero for the size, by which the head of a
fingerprint is divided. -/
def segmentContentDefined (cfg : Config) (tmp : Segment) (c : Chunk) :
    Except Abort (Option Segment × Segment) :=
  if c.isNormal then
    if tmp.chunkNum < cfg.segmentMin then .ok (none, tmp.appendNormal c)
    else do
      require (cfg.segmentSize ≠ 0) .segmentDivisorZero
      if c.fp.head % (cfg.segmentSize : Int) = 0 then return (some tmp, newSegment.appendNormal c)
      else
        let tmp := tmp.appendNormal c
        return if cfg.segmentMax ≤ tmp.chunkNum then (some tmp, newSegment) else (none, tmp)
  else .ok (none, tmp.appendSignal c)

/-- `segmenting`, the method that `init_segmenting_method` installs. -/
def segmenting (cfg : Config) (tmp : Segment) (c : Chunk) :
    Except Abort (Option Segment × Segment) :=
  match cfg.segmentAlgorithm with
  | .fixed => .ok (segmentFixed cfg tmp c)
  | .contentDefined => segmentContentDefined cfg tmp c
  | .fileDefined => .ok (segmentFileDefined tmp c)

/-- The segments the dedup thread makes of a stream; the end of the stream closes the last one,
empty or not. A division by zero comes before any segment is complete. -/
def segmentStream (cfg : Config) : Segment → List Chunk → Except Abort (List Segment)
  | tmp, [] => .ok [tmp]
  | tmp, c :: stream => do
      let (complete, tmp) ← segmenting cfg tmp c
      let segments ← segmentStream cfg tmp stream
      return complete.toList ++ segments

section Partition

variable {cfg : Config}

def Segment.Counted (s : Segment) : Prop := s.chunkNum = s.normals.length

theorem counted_newSegment : newSegment.Counted := rfl

theorem Segment.Counted.appendSignal {s : Segment} (h : s.Counted) {c : Chunk}
    (hc : c.isNormal = false) : (s.appendSignal c).Counted := by
  simp only [Segment.Counted, Segment.normals, Segment.appendSignal, List.filter_append] at *
  simp [hc, h]

theorem Segment.Counted.appendNormal {s : Segment} (h : s.Counted) {c : Chunk}
    (hc : c.isNormal = true) : (s.appendNormal c).Counted := by
  simp only [Segment.Counted, Segment.normals, Segment.appendNormal, List.filter_append] at *
  simp [hc, h]

/-- One call of the segmenting method: the chunk joins the completed or the open segment. -/
structure Segmented (tmp : Segment) (c : Chunk) (r : Option Segment × Segment) : Prop where
  chunks_eq : (r.1.map Segment.chunks).getD [] ++ r.2.chunks = tmp.chunks ++ [c]
  counted : tmp.Counted → (∀ s ∈ r.1, s.Counted) ∧ r.2.Counted

private theorem segmented_close {tmp s : Segment} {c : Chunk} (h : s.chunks = tmp.chunks ++ [c])
    (hcount : tmp.Counted → s.Counted) : Segmented tmp c (some s, newSegment) :=
  ⟨by simp [h, newSegment], fun ht => ⟨by simpa using hcount ht, counted_newSegment⟩⟩

private theorem segmented_extend {tmp s : Segment} {c : Chunk} (h : s.chunks = tmp.chunks ++ [c])
    (hcount : tmp.Counted → s.Counted) : Segmented tmp c (none, s) :=
  ⟨by simp [h], fun ht => ⟨by simp, hcount ht⟩⟩

def DividesByZero (cfg : Config) (a : Abort) : Prop :=
  a = .segmentDivisorZero ∧ cfg.segmentAlgorithm = .contentDefined ∧ cfg.segmentSize = 0

private theorem segmentContentDefined_segmented {tmp : Segment} {c : Chunk}
    {r : Option Segment × Segment} (h : segmentContentDefined cfg tmp c = .ok r) :
    Segmented tmp c r := by
  have hnormal : c.isNormal = true → tmp.Counted → (tmp.appendNormal c).Counted :=
    fun hc ht => ht.appendNormal hc
  unfold segmentContentDefined at h
  by_cases hc : c.isNormal = true
  · rw [if_pos hc] at h
    split at h
    · cases h
      exact segmented_extend rfl (hnormal hc)
    · obtain ⟨u, -, h⟩ := bind_ok_iff.mp h
      split at h
      · cases h
        exact ⟨rfl, fun ht => ⟨by simpa using ht, counted_newSegment.appendNormal hc⟩⟩
      · cases h
        split
        · exact segmented_close rfl (hnormal hc)
        · exact segmented_extend rfl (hnormal hc)
  · rw [if_neg hc] at h
    cases h
    exact segmented_extend rfl fun ht => ht.appendSignal (by simpa using hc)

theorem segmenting_segmented {tmp : Segment} {c : Chunk} {r : Option Segment × Segment}
    (h : segmenting cfg tmp c = .ok r) : Segmented tmp c r := by
  have hsignal : c.isNormal = false → tmp.Counted → (tmp.appendSignal c).Counted :=
    fun hc ht => ht.appendSignal hc
  have hnormal : c.isNormal = true → tmp.Counted → (tmp.appendNormal c).Counted :=
    fun hc ht => ht.appendNormal hc
  unfold segmenting at h
  cases halg : cfg.segmentAlgorithm with
  | fixed =>
      rw [halg] at h
      cases h
      simp only [segmentFixed]
      split
      · rename_i hc
        split
        · exact segmented_close rfl (hnormal hc)
        · exact segmented_extend rfl (hnormal hc)
      · rename_i hc
        exact segmented_extend rfl (hsignal (by simpa using hc))
  | contentDefined =>
      rw [halg] at h
      exact segmentContentDefined_segmented h
  | fileDefined =>
      rw [halg] at h
      cases h
      simp only [segmentFileDefined]
      split
      · exact segmented_close rfl (hsignal (by simp_all [Chunk.isNormal]))
      · split
        · exact segmented_extend rfl (hsignal (by simp_all [Chunk.isNormal]))
        · exact segmented_extend rfl (hnormal (by simp_all [Chunk.isNormal]))

theorem segmenting_dividesByZero {tmp : Segment} {c : Chunk} {a : Abort}
    (h : segmenting cfg tmp c = .error a) : DividesByZero cfg a := by
  unfold segmenting at h
  cases halg : cfg.segmentAlgorithm with
  | fixed | fileDefined =>
      rw [halg] at h
      cases h
  | contentDefined =>
      rw [halg] at h
      simp only [segmentContentDefined] at h
      split at h
      · split at h
        · cases h
        · rcases bind_error_iff.mp h with h | ⟨u, -, h⟩
          · obtain ⟨hsize, rfl⟩ := require_error_iff.mp h
            exact ⟨rfl, halg, not_not.mp hsize⟩
          · split at h
            · cases h
            · cases h
      · cases h

theorem segmentStream_cons_ok_iff {tmp : Segment} {c : Chunk} {stream : List Chunk}
    {segments : List Segment} :
    segmentStream cfg tmp (c :: stream) = .ok segments ↔
      ∃ complete tmp' rest, segmenting cfg tmp c = .ok (complete, tmp') ∧
        segmentStream cfg tmp' stream = .ok rest ∧ segments = complete.toList ++ rest := by
  rw [segmentStream, bind_ok_iff]
  constructor
  · rintro ⟨⟨complete, tmp'⟩, hone, h⟩
    obtain ⟨rest, hrest, heq⟩ := bind_ok_iff.mp h
    exact ⟨complete, tmp', rest, hone, hrest, (Except.ok.inj heq).symm⟩
  · rintro ⟨complete, tmp', rest, hone, hrest, rfl⟩
    exact ⟨(complete, tmp'), hone, bind_ok_iff.mpr ⟨rest, hrest, rfl⟩⟩

/-- A chunk that completes nothing joins the open segment. -/
theorem segmentStream_open {tmp tmp' : Segment} {c : Chunk} {stream : List Chunk}
    (hone : segmenting cfg tmp c = .ok (none, tmp')) :
    segmentStream cfg tmp (c :: stream) = segmentStream cfg tmp' stream := by
  rw [segmentStream, hone]
  cases hrest : segmentStream cfg tmp' stream with
  | error a => simp [bind, Except.bind, hrest]
  | ok rest => simp [bind, Except.bind, hrest, pure, Except.pure]

/-- The segments in order hold exactly the stream. -/
theorem segmentStream_chunks {tmp : Segment} {stream : List Chunk} {segments : List Segment}
    (h : segmentStream cfg tmp stream = .ok segments) :
    segments.flatMap Segment.chunks = tmp.chunks ++ stream := by
  induction stream generalizing tmp segments with
  | nil =>
      cases h
      simp
  | cons c stream ih =>
      obtain ⟨complete, tmp', rest, hone, hrest, rfl⟩ := segmentStream_cons_ok_iff.mp h
      have hchunks := (segmenting_segmented hone).chunks_eq
      rw [List.flatMap_append, ih hrest, ← List.append_assoc, ← List.singleton_append,
        ← List.append_assoc, ← hchunks]
      cases complete <;> simp

theorem segmentStream_counted {tmp : Segment} {stream : List Chunk} {segments : List Segment}
    (h : segmentStream cfg tmp stream = .ok segments) (htmp : tmp.Counted) :
    ∀ s ∈ segments, s.Counted := by
  induction stream generalizing tmp segments with
  | nil =>
      cases h
      simpa using htmp
  | cons c stream ih =>
      obtain ⟨complete, tmp', rest, hone, hrest, rfl⟩ := segmentStream_cons_ok_iff.mp h
      obtain ⟨hcomplete, htmp'⟩ := (segmenting_segmented hone).counted htmp
      intro s hs
      rcases List.mem_append.mp hs with hs | hs
      · exact hcomplete s (by simpa using hs)
      · exact ih hrest htmp' s hs

end Partition

section Divisor

variable {cfg : Config}

theorem segmentStream_dividesByZero {tmp : Segment} {stream : List Chunk} {a : Abort}
    (h : segmentStream cfg tmp stream = .error a) : DividesByZero cfg a := by
  induction stream generalizing tmp with
  | nil => cases h
  | cons c stream ih =>
      rcases bind_error_iff.mp h with hone | ⟨r, -, h⟩
      · exact segmenting_dividesByZero hone
      · rcases bind_error_iff.mp h with hrest | ⟨rest, -, h⟩
        · exact ih hrest
        · cases h

end Divisor

end Destor
