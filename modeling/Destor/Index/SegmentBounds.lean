/- digest: How large the segments are that a segmenting method completes before the end of the
   stream. -/

import Destor.Index.SegmentingMethod

set_option autoImplicit false
set_option relaxedAutoImplicit false

namespace Destor

open Library.Outcome

section Complete

variable {cfg : Config} {tmp : Segment} {c : Chunk} {stream : List Chunk} {segments : List Segment}

theorem segmentStream_ne_nil (h : segmentStream cfg tmp stream = .ok segments) :
    segments ≠ [] := by
  induction stream generalizing tmp segments with
  | nil =>
      cases h
      simp
  | cons c stream ih =>
      obtain ⟨complete, tmp', rest, -, hrest, rfl⟩ := segmentStream_cons_ok_iff.mp h
      exact List.append_ne_nil_of_right_ne_nil _ (ih hrest)

theorem dropLast_segmentStream_cons (h : segmentStream cfg tmp (c :: stream) = .ok segments) :
    ∃ complete tmp' rest, segmenting cfg tmp c = .ok (complete, tmp') ∧
      segmentStream cfg tmp' stream = .ok rest ∧
      segments.dropLast = complete.toList ++ rest.dropLast := by
  obtain ⟨complete, tmp', rest, hone, hrest, rfl⟩ := segmentStream_cons_ok_iff.mp h
  exact ⟨complete, tmp', rest, hone, hrest,
    List.dropLast_append_of_ne_nil (segmentStream_ne_nil hrest)⟩

/-- What every call keeps of the open segment, and then guarantees of a completed one. -/
theorem segmentStream_complete (unfinished complete : Segment → Prop)
    (hstep : ∀ tmp c found tmp', unfinished tmp → segmenting cfg tmp c = .ok (found, tmp') →
      (∀ s ∈ found, complete s) ∧ unfinished tmp')
    (h : segmentStream cfg tmp stream = .ok segments) (htmp : unfinished tmp) :
    ∀ s ∈ segments.dropLast, complete s := by
  induction stream generalizing tmp segments with
  | nil =>
      cases h
      simp
  | cons c stream ih =>
      obtain ⟨found, tmp', rest, hone, hrest, heq⟩ := dropLast_segmentStream_cons h
      obtain ⟨hcomplete, hopen⟩ := hstep tmp c found tmp' htmp hone
      rw [heq]
      intro s hs
      rcases List.mem_append.mp hs with hs | hs
      · exact hcomplete s (by simpa using hs)
      · exact ih hrest hopen s hs

/-- The segments completed before the end count their chunks with content. -/
theorem counted_of_mem_dropLast (h : segmentStream cfg newSegment stream = .ok segments)
    {s : Segment} (hs : s ∈ segments.dropLast) : s.chunkNum = s.normals.length :=
  segmentStream_counted h counted_newSegment s (List.dropLast_subset _ hs)

end Complete

section Fixed

variable {cfg : Config} {stream : List Chunk} {segments : List Segment}

end Fixed

section FileDefined

/-- A file in the stream: its start, its chunks with content, its end. -/
structure StreamFile where
  start : Chunk
  contents : List Chunk
  stop : Chunk
  fileStart : start.flag.fileStart = true ∧ start.flag.fileEnd = false
  normal : ∀ c ∈ contents, c.isNormal = true
  fileEnd : stop.flag.fileStart = false ∧ stop.flag.fileEnd = true

def StreamFile.chunks (file : StreamFile) : List Chunk :=
  file.start :: file.contents ++ [file.stop]

variable {cfg : Config}

end FileDefined

section ContentDefined

variable {cfg : Config} {stream : List Chunk} {segments : List Segment}

/-- A chunk before which `segment_content_defined` ends a segment that is large enough. -/
def Chunk.cutsSegment (cfg : Config) (c : Chunk) : Prop :=
  c.fp.head % (cfg.segmentSize : Int) = 0

instance (cfg : Config) (c : Chunk) : Decidable (c.cutsSegment cfg) :=
  inferInstanceAs (Decidable (c.fp.head % (cfg.segmentSize : Int) = 0))

section Steps

variable {tmp : Segment} {c : Chunk} {r : Option Segment × Segment}

theorem segmenting_signal (halg : cfg.segmentAlgorithm = .contentDefined)
    (hc : c.isNormal = false) : segmenting cfg tmp c = .ok (none, tmp.appendSignal c) := by
  simp [segmenting, halg, segmentContentDefined, hc]

theorem segmenting_small (halg : cfg.segmentAlgorithm = .contentDefined)
    (hc : c.isNormal = true) (h : tmp.chunkNum < cfg.segmentMin) :
    segmenting cfg tmp c = .ok (none, tmp.appendNormal c) := by
  simp [segmenting, halg, segmentContentDefined, hc, h]

private theorem segmenting_divided (halg : cfg.segmentAlgorithm = .contentDefined)
    (hc : c.isNormal = true) (h : cfg.segmentMin ≤ tmp.chunkNum)
    (hone : segmenting cfg tmp c = .ok r) :
    r = if c.cutsSegment cfg then (some tmp, newSegment.appendNormal c)
      else if cfg.segmentMax ≤ (tmp.appendNormal c).chunkNum then
        (some (tmp.appendNormal c), newSegment)
      else (none, tmp.appendNormal c) := by
  simp only [segmenting, halg, segmentContentDefined] at hone
  rw [if_pos hc, if_neg (Nat.not_lt.mpr h)] at hone
  obtain ⟨u, -, hone⟩ := bind_ok_iff.mp hone
  split at hone
  · rename_i hcut
    have hcut : c.cutsSegment cfg := hcut
    rw [if_pos hcut]
    exact (Except.ok.inj hone).symm
  · rename_i hcut
    have hcut : ¬ c.cutsSegment cfg := hcut
    rw [if_neg hcut]
    exact (Except.ok.inj hone).symm

theorem segmenting_cut (halg : cfg.segmentAlgorithm = .contentDefined)
    (hc : c.isNormal = true) (h : cfg.segmentMin ≤ tmp.chunkNum) (hcut : c.cutsSegment cfg)
    (hone : segmenting cfg tmp c = .ok r) : r = (some tmp, newSegment.appendNormal c) := by
  rw [segmenting_divided halg hc h hone, if_pos hcut]

theorem segmenting_large (halg : cfg.segmentAlgorithm = .contentDefined)
    (hc : c.isNormal = true) (h : cfg.segmentMin ≤ tmp.chunkNum) (hcut : ¬ c.cutsSegment cfg)
    (hone : segmenting cfg tmp c = .ok r) :
    r = if cfg.segmentMax ≤ (tmp.appendNormal c).chunkNum then (some (tmp.appendNormal c), newSegment)
      else (none, tmp.appendNormal c) := by
  rw [segmenting_divided halg hc h hone, if_neg hcut]

end Steps

@[simp] theorem chunkNum_appendNormal (s : Segment) (c : Chunk) :
    (s.appendNormal c).chunkNum = s.chunkNum + 1 := rfl

@[simp] theorem chunkNum_newSegment : newSegment.chunkNum = 0 := rfl

/-- No segment is completed below the minimum. -/
theorem segmentMin_le (halg : cfg.segmentAlgorithm = .contentDefined)
    (h : segmentStream cfg newSegment stream = .ok segments) :
    ∀ s ∈ segments.dropLast, cfg.segmentMin ≤ s.chunkNum := by
  refine segmentStream_complete (fun _ => True) (fun s => cfg.segmentMin ≤ s.chunkNum) ?_ h trivial
  intro tmp c found tmp' _ hone
  refine ⟨?_, trivial⟩
  cases hc : c.isNormal with
  | false =>
      rw [segmenting_signal halg hc] at hone
      cases hone
      simp
  | true =>
      by_cases hmin : tmp.chunkNum < cfg.segmentMin
      · rw [segmenting_small halg hc hmin] at hone
        cases hone
        simp
      · by_cases hcut : c.cutsSegment cfg
        · cases segmenting_cut halg hc (Nat.not_lt.mp hmin) hcut hone
          simpa using hmin
        · have hr := segmenting_large halg hc (Nat.not_lt.mp hmin) hcut hone
          split at hr
          · cases hr
            simp only [Option.mem_some_iff, forall_eq', chunkNum_appendNormal]
            omega
          · cases hr
            simp

/-- Below a larger maximum the open segment is cut in time. -/
theorem le_segmentMax_of_lt (halg : cfg.segmentAlgorithm = .contentDefined)
    (hmin : 1 ≤ cfg.segmentMin) (hlt : cfg.segmentMin < cfg.segmentMax)
    (h : segmentStream cfg newSegment stream = .ok segments) :
    ∀ s ∈ segments.dropLast, s.chunkNum ≤ cfg.segmentMax := by
  refine segmentStream_complete (fun s => s.chunkNum < cfg.segmentMax)
    (fun s => s.chunkNum ≤ cfg.segmentMax) ?_ h ?_
  · intro tmp c found tmp' htmp hone
    cases hc : c.isNormal with
    | false =>
        rw [segmenting_signal halg hc] at hone
        cases hone
        exact ⟨by simp, htmp⟩
    | true =>
        by_cases hsmall : tmp.chunkNum < cfg.segmentMin
        · rw [segmenting_small halg hc hsmall] at hone
          cases hone
          refine ⟨by simp, ?_⟩
          simp only [chunkNum_appendNormal]
          omega
        · by_cases hcut : c.cutsSegment cfg
          · cases segmenting_cut halg hc (Nat.not_lt.mp hsmall) hcut hone
            refine ⟨?_, ?_⟩
            · simp only [Option.mem_some_iff, forall_eq']
              omega
            · simp only [chunkNum_appendNormal, chunkNum_newSegment]
              omega
          · have hr := segmenting_large halg hc (Nat.not_lt.mp hsmall) hcut hone
            split at hr
            · cases hr
              refine ⟨?_, ?_⟩
              · simp only [Option.mem_some_iff, forall_eq', chunkNum_appendNormal]
                omega
              · simp only [chunkNum_newSegment]
                omega
            · rename_i hmax
              cases hr
              exact ⟨by simp, Nat.not_le.mp hmax⟩
  · simp only [chunkNum_newSegment]
    omega

abbrev contentOf (stream : List Chunk) : List Chunk := stream.filter Chunk.isNormal

def CutsWhenFull (cfg : Config) (room : Nat) (content : List Chunk) : Prop :=
  ∀ j c, content[room + j * cfg.segmentMax]? = some c → c.cutsSegment cfg

theorem cutsWhenFull_succ {room : Nat} {c : Chunk} {content : List Chunk} :
    CutsWhenFull cfg (room + 1) (c :: content) ↔ CutsWhenFull cfg room content := by
  have hindex : ∀ j, room + 1 + j * cfg.segmentMax = room + j * cfg.segmentMax + 1 := by
    intro j
    omega
  simp only [CutsWhenFull, hindex, List.getElem?_cons_succ]

theorem cutsWhenFull_zero {c : Chunk} {content : List Chunk} (hmax : 1 ≤ cfg.segmentMax) :
    CutsWhenFull cfg 0 (c :: content) ↔
      c.cutsSegment cfg ∧ CutsWhenFull cfg (cfg.segmentMax - 1) content := by
  have hindex : ∀ j, 0 + (j + 1) * cfg.segmentMax =
      cfg.segmentMax - 1 + j * cfg.segmentMax + 1 := by
    intro j
    rw [Nat.add_mul, Nat.one_mul]
    omega
  constructor
  · intro h
    refine ⟨h 0 c (by simp), ?_⟩
    intro j c' hj
    apply h (j + 1) c'
    rwa [hindex, List.getElem?_cons_succ]
  · rintro ⟨hcut, h⟩ j c' hj
    cases j with
    | zero =>
        have : c = c' := by simpa using hj
        exact this ▸ hcut
    | succ j =>
        rw [hindex, List.getElem?_cons_succ] at hj
        exact h j c' hj

/-- Where the bounds coincide, the segments stay within them as long as every chunk that follows a
full segment cuts it. -/
theorem le_segmentMax_iff (halg : cfg.segmentAlgorithm = .contentDefined)
    (hmin : 1 ≤ cfg.segmentMin) (heq : cfg.segmentMin = cfg.segmentMax) (tmp : Segment)
    (htmp : tmp.chunkNum ≤ cfg.segmentMax) (h : segmentStream cfg tmp stream = .ok segments) :
    (∀ s ∈ segments.dropLast, s.chunkNum ≤ cfg.segmentMax) ↔
      CutsWhenFull cfg (cfg.segmentMax - tmp.chunkNum) (contentOf stream) := by
  induction stream generalizing tmp segments with
  | nil =>
      cases h
      simp [CutsWhenFull]
  | cons c stream ih =>
      obtain ⟨found, tmp', rest, hone, hrest, hdrop⟩ := dropLast_segmentStream_cons h
      rw [hdrop]
      simp only [List.mem_append, Option.mem_toList, or_imp, forall_and]
      cases hc : c.isNormal with
      | false =>
          have hcontent : contentOf (c :: stream) = contentOf stream := by simp [hc]
          rw [segmenting_signal halg hc] at hone
          cases hone
          rw [hcontent, ih (tmp.appendSignal c) htmp hrest]
          simp [Segment.appendSignal]
      | true =>
          have hcontent : contentOf (c :: stream) = c :: contentOf stream := by simp [hc]
          rw [hcontent]
          by_cases hsmall : tmp.chunkNum < cfg.segmentMin
          · have hroom : cfg.segmentMax - tmp.chunkNum =
                cfg.segmentMax - (tmp.appendNormal c).chunkNum + 1 := by
              simp only [chunkNum_appendNormal]
              omega
            rw [segmenting_small halg hc hsmall] at hone
            cases hone
            rw [hroom, cutsWhenFull_succ,
              ih (tmp.appendNormal c) (by simp only [chunkNum_appendNormal]; omega) hrest]
            simp
          · have hfull : tmp.chunkNum = cfg.segmentMax := by omega
            have hle : cfg.segmentMin ≤ tmp.chunkNum := Nat.not_lt.mp hsmall
            rw [hfull, Nat.sub_self, cutsWhenFull_zero (heq ▸ hmin)]
            by_cases hcut : c.cutsSegment cfg
            · cases segmenting_cut halg hc hle hcut hone
              rw [ih (newSegment.appendNormal c)
                (by simp only [chunkNum_appendNormal, chunkNum_newSegment]; omega) hrest]
              simp [hcut, hfull]
            · have hover : cfg.segmentMax ≤ (tmp.appendNormal c).chunkNum := by
                simp only [chunkNum_appendNormal]
                omega
              have hr := segmenting_large halg hc hle hcut hone
              rw [if_pos hover] at hr
              cases hr
              refine iff_of_false ?_ ?_
              · rintro ⟨h, -⟩
                have := h (tmp.appendNormal c) rfl
                simp only [chunkNum_appendNormal] at this
                omega
              · exact fun h => hcut h.1

/-- Unless the method dies of a division by zero, a content-defined segment completed before the end
of the stream keeps both bounds, except where they coincide and a chunk that follows a full segment
does not cut it. -/
theorem segment_bounds_iff (cfg : Config) (halg : cfg.segmentAlgorithm = .contentDefined)
    (hmin : 1 ≤ cfg.segmentMin) (hmax : cfg.segmentMin ≤ cfg.segmentMax) (stream : List Chunk) :
    Ensures (DividesByZero cfg)
      (fun segments => (∀ s ∈ segments.dropLast,
          cfg.segmentMin ≤ s.normals.length ∧ s.normals.length ≤ cfg.segmentMax) ↔
        cfg.segmentMin < cfg.segmentMax ∨
          ∀ j c, (stream.filter Chunk.isNormal)[(j + 1) * cfg.segmentMax]? = some c →
            c.fp.head % (cfg.segmentSize : Int) = 0)
      (segmentStream cfg newSegment stream) := by
  cases h : segmentStream cfg newSegment stream with
  | error a => exact segmentStream_dividesByZero h
  | ok segments =>
      rw [ensures_ok]
      have hcounts : (∀ s ∈ segments.dropLast,
          cfg.segmentMin ≤ s.normals.length ∧ s.normals.length ≤ cfg.segmentMax) ↔
            ∀ s ∈ segments.dropLast, s.chunkNum ≤ cfg.segmentMax := by
        apply forall₂_congr
        intro s hs
        rw [← counted_of_mem_dropLast h hs]
        exact and_iff_right (segmentMin_le halg h s hs)
      rw [hcounts]
      rcases Nat.lt_or_eq_of_le hmax with hlt | heq
      · exact iff_of_true (le_segmentMax_of_lt halg hmin hlt h) (Or.inl hlt)
      · have hindex : ∀ j, (j + 1) * cfg.segmentMax = cfg.segmentMax - 0 + j * cfg.segmentMax := by
          intro j
          rw [Nat.add_mul, Nat.one_mul, Nat.sub_zero, Nat.add_comm]
        rw [le_segmentMax_iff halg hmin heq newSegment (Nat.zero_le _) h, heq]
        simp only [lt_irrefl, false_or, hindex]
        exact Iff.rfl

private def oneChunkSegments : Config :=
  { smallConfig .nearExact .logical with
    segmentAlgorithm := .contentDefined, segmentSize := 2, segmentMin := 1, segmentMax := 1 }

private def threeChunkStream (fps : List Fingerprint) : List Chunk :=
  Chunk.fileStart [97] :: fps.map (fun fp => Chunk.normal fp 8 []) ++ [Chunk.fileEnd]

/-- Three segments of one chunk, since the second and the third fingerprint are even. -/
theorem segment_bounds_iff_even_chunks : ∃ segments,
    segmentStream oneChunkSegments newSegment
      (threeChunkStream [.fill 1, .fill 2, .fill 4]) = .ok segments ∧ segments.length = 3 ∧
    ((∀ s ∈ segments.dropLast, oneChunkSegments.segmentMin ≤ s.normals.length ∧
        s.normals.length ≤ oneChunkSegments.segmentMax) ↔
      oneChunkSegments.segmentMin < oneChunkSegments.segmentMax ∨
        ∀ j c, ((threeChunkStream [.fill 1, .fill 2, .fill 4]).filter
            Chunk.isNormal)[(j + 1) * oneChunkSegments.segmentMax]? = some c →
          c.fp.head % (oneChunkSegments.segmentSize : Int) = 0) :=
  ⟨_, rfl, by decide, segment_bounds_iff oneChunkSegments rfl (by decide) (by decide)
    (threeChunkStream [.fill 1, .fill 2, .fill 4])⟩

/-- The second chunk joins the full segment before the size is compared with the maximum. -/
theorem segment_of_two_over_maximum : ∃ segments,
    segmentStream oneChunkSegments newSegment (threeChunkStream [.fill 1, .fill 3]) = .ok segments ∧
      ¬ ∀ s ∈ segments.dropLast, oneChunkSegments.segmentMin ≤ s.normals.length ∧
        s.normals.length ≤ oneChunkSegments.segmentMax :=
  ⟨_, rfl, by decide +kernel⟩

end ContentDefined

end Destor
