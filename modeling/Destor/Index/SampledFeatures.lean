/- digest: Which features the samplers return: the keys of normal chunks, and under minimum sampling
   those of the smallest fingerprints. -/

import Mathlib.Data.List.Induction
import Destor.Index.SamplingMethod

set_option autoImplicit false
set_option relaxedAutoImplicit false

namespace Destor

open Library.Outcome Library.SortedSeq

section Order

/-- The order in which `g_fingerprint_cmp` sorts, smaller ones first. -/
def Fingerprint.sortsAfter (a b : Fingerprint) : Bool := Fingerprint.lt b a

variable {a b : Fingerprint}

theorem Fingerprint.lt_false_iff : Fingerprint.lt a b = false ↔ b.bytes ≤ a.bytes :=
  decide_eq_false_iff_not

theorem Fingerprint.le_of_sortsAfter (h : Fingerprint.sortsAfter a b = true) : b.bytes ≤ a.bytes :=
  List.le_of_lt (of_decide_eq_true h)

theorem Fingerprint.le_of_not_sortsAfter (h : Fingerprint.sortsAfter a b = false) :
    a.bytes ≤ b.bytes := Fingerprint.lt_false_iff.mp h

/-- The fingerprints in ascending order. -/
theorem sorted_fingerprints (fps : List Fingerprint) :
    (sort Fingerprint.sortsAfter fps).Pairwise fun a b => a.bytes ≤ b.bytes := by
  apply sort_pairwise
  · exact fun _ _ _ hab hbc => List.le_trans hab hbc
  · exact fun _ _ _ _ h => Fingerprint.le_of_sortsAfter h
  · exact fun _ _ _ _ h => Fingerprint.le_of_not_sortsAfter h

/-- Their order does not depend on the one in which they came. -/
theorem sort_fingerprints_perm {fps fps' : List Fingerprint} (h : fps'.Perm fps) :
    sort Fingerprint.sortsAfter fps' = sort Fingerprint.sortsAfter fps := by
  apply sort_eq_of_perm _ _ _ _ (sorted_fingerprints fps)
  · exact h.trans (sort_perm _ _).symm
  · exact fun _ _ _ hab hbc => List.le_trans hab hbc
  · exact fun _ _ _ _ h => Fingerprint.le_of_sortsAfter h
  · exact fun _ _ _ _ h => Fingerprint.le_of_not_sortsAfter h
  · exact fun _ _ _ _ hab hba => Fingerprint.ext (List.le_antisymm hab hba)

end Order

section Candidates

variable {num : Nat} {candidates : List Fingerprint} {x : Fingerprint}

/-- The bounded candidate list takes in `x` as a sorted list would that is cut at the bound. -/
theorem offerCandidate_eq_take (hlength : candidates.length ≤ num)
    (hsorted : candidates.Pairwise fun a b => a.bytes ≤ b.bytes) :
    offerCandidate Fingerprint.lt num candidates x =
      (insertSorted Fingerprint.sortsAfter x candidates).take num := by
  have hinserted : (insertSorted Fingerprint.sortsAfter x candidates).length =
      candidates.length + 1 := length_insertSorted _ x candidates
  rw [offerCandidate]
  change (if _ then if _ then (insertSorted Fingerprint.sortsAfter x candidates).dropLast
    else insertSorted Fingerprint.sortsAfter x candidates else candidates) = _
  split
  · split
    · have hfull : (insertSorted Fingerprint.sortsAfter x candidates).length - 1 = num := by omega
      rw [← hfull]
      exact List.dropLast_eq_take
    · exact (List.take_of_length_le (by omega)).symm
  · rename_i hnot
    obtain ⟨hfull, hlast⟩ := not_or.mp hnot
    have hnum : candidates.length = num := by omega
    -- nothing sorts after `x`: the last candidate is the largest and not above it
    have hle : ∀ a ∈ candidates, Fingerprint.sortsAfter a x = false := by
      intro a ha
      have hne := List.ne_nil_of_mem ha
      have hx : Fingerprint.lt x (candidates.getLast hne) = false := by
        rw [Bool.eq_false_iff]
        exact fun hlt => hlast ⟨_, List.getLast?_eq_getLast_of_ne_nil hne, hlt⟩
      have hlastle := Fingerprint.lt_false_iff.mp hx
      have hale : a.bytes ≤ (candidates.getLast hne).bytes := by
        have hsplit := List.dropLast_append_getLast hne
        rw [← hsplit] at ha hsorted
        rcases List.mem_append.mp ha with hinit | hend
        · exact (List.pairwise_append.mp hsorted).2.2 a hinit _ (List.mem_singleton.mpr rfl)
        · rw [List.mem_singleton.mp hend]
          exact List.le_refl _
      exact Fingerprint.lt_false_iff.mpr (List.le_trans hale hlastle)
    rw [insertSorted_eq_concat _ hle, ← hnum, List.take_left]

theorem foldl_offerCandidate_eq (num : Nat) (chunks : List Chunk) :
    chunks.foldl (fun candidates c => offerCandidate Fingerprint.lt num candidates c.fp) [] =
      (sort Fingerprint.sortsAfter (chunks.map Chunk.fp)).take num := by
  induction chunks using List.reverseRec with
  | nil => rw [List.foldl_nil, List.map_nil, sort, List.foldl_nil, List.take_nil]
  | append_singleton chunks c ih =>
      rw [List.foldl_concat, ih, List.map_append, List.map_singleton, sort_concat,
        take_insertSorted]
      apply offerCandidate_eq_take
      · exact List.length_take_le _ _
      · exact (sorted_fingerprints _).sublist (List.take_sublist _ _)

/-- The bounded list grows by one element up to its bound. -/
theorem length_offerCandidate {α : Type} {lt : α → α → Bool} {candidates : List α} {x : α}
    (h : candidates.length ≤ num) :
    (offerCandidate lt num candidates x).length = min num (candidates.length + 1) := by
  rw [offerCandidate]
  split
  · split
    · rw [List.length_dropLast, length_insertSorted]
      omega
    · rw [length_insertSorted]
      omega
  · rename_i hnot
    have hfull := (not_or.mp hnot).1
    omega

end Candidates

section Number

variable {ratio count n : Nat}

/-- `n` is the integer nearest to `count / ratio`, of two as near the smaller one. -/
structure RoundsTo (count ratio n : Nat) : Prop where
  le : 2 * count ≤ 2 * (n * ratio) + ratio
  lt : 2 * (n * ratio) < 2 * count + ratio

/-- How many features minimum sampling looks for. -/
def FeatureNum (ratio count n : Nat) : Prop :=
  if ratio = 0 ∨ count ≤ ratio then n = 1 else RoundsTo count ratio n

theorem featureNum_spec (cfg : Config) (chunks : List Chunk) (hcount : count ≠ 0) :
    FeatureNum cfg.samplingRatio count (featureNum cfg chunks count) := by
  rw [FeatureNum, featureNum]
  dsimp only
  rw [if_neg hcount]
  split
  · rename_i hone
    rw [if_neg (by omega)]
  · rename_i hmany
    have hratio : 0 < cfg.samplingRatio ∧ cfg.samplingRatio < count := by omega
    rw [if_pos ⟨by omega, hratio.2⟩]
    have hdiv := Nat.div_add_mod count cfg.samplingRatio
    have hmod := Nat.mod_lt count hratio.1
    rw [Nat.mul_comm] at hdiv
    generalize hq : count / cfg.samplingRatio * cfg.samplingRatio = product at hdiv
    split
    · refine ⟨?_, ?_⟩
      · rw [Nat.add_mul, hq]
        omega
      · rw [Nat.add_mul, hq]
        omega
    · refine ⟨?_, ?_⟩
      · rw [hq]
        omega
      · rw [hq]
        omega

theorem featureNum_pos (cfg : Config) (chunks : List Chunk) (chunkNum : Nat) :
    1 ≤ featureNum cfg chunks chunkNum := by
  rw [featureNum]
  dsimp only
  generalize (if chunkNum = 0 then chunks.length else chunkNum) = count
  split
  · rename_i hmany
    have hdiv := Nat.div_pos (Nat.le_of_lt hmany.2) (Nat.pos_of_ne_zero hmany.1)
    split
    · omega
    · exact hdiv
  · exact Nat.le_refl 1

end Number

section Minimum

/-- The chunks of a sequence that are not file boundaries. -/
def normalChunks (chunks : List Chunk) : List Chunk := chunks.filter Chunk.isNormal

def Smallest (n : Nat) (fps smallest : List Fingerprint) : Prop :=
  ∃ larger, fps.Perm (smallest ++ larger) ∧ smallest.length = min n fps.length ∧
    ∀ a ∈ smallest, ∀ b ∈ larger, a.bytes ≤ b.bytes

variable {cfg : Config} {chunks chunks' : List Chunk}

private theorem smallest_take (n : Nat) (fps : List Fingerprint) :
    Smallest n fps ((sort Fingerprint.sortsAfter fps).take n) := by
  have hsorted := sorted_fingerprints fps
  have hperm := sort_perm Fingerprint.sortsAfter fps
  refine ⟨(sort Fingerprint.sortsAfter fps).drop n, ?_, ?_, ?_⟩
  · rw [List.take_append_drop]
    exact hperm.symm
  · rw [List.length_take, hperm.length_eq]
  · rw [← List.take_append_drop n (sort Fingerprint.sortsAfter fps)] at hsorted
    exact (List.pairwise_append.mp hsorted).2.2

private theorem take_ne_nil {α : Type} {l : List α} {n : Nat} (hl : l ≠ []) (hn : 1 ≤ n) :
    l.take n ≠ [] := by
  have hpos := List.length_pos_iff.mpr hl
  apply List.length_pos_iff.mp
  rw [List.length_take]
  omega

/-- Features that some element has are not replaced by the placeholder. -/
theorem orDummy_of_ne_nil {features : List Key} (h : features ≠ []) :
    orDummy cfg features = features := if_neg h

theorem foldl_addFeature_ne_nil {α : Type} (key : α → Key) {l : List α} (h : l ≠ []) :
    l.foldl (fun features a => addFeature features (key a)) [] ≠ [] := by
  obtain ⟨a, ha⟩ := List.exists_mem_of_ne_nil l h
  exact List.ne_nil_of_mem ((mem_foldl_addFeature key l).mpr (.inr ⟨a, ha, rfl⟩))

theorem indexSamplingMin_eq (hnormal : normalChunks chunks ≠ []) (chunkNum : Nat) :
    indexSamplingMin cfg chunks chunkNum =
      ((sort Fingerprint.sortsAfter ((normalChunks chunks).map Chunk.fp)).take
        (featureNum cfg chunks chunkNum)).foldl
          (fun features fp => addFeature features (cfg.key fp)) [] := by
  have hsorted : sort Fingerprint.sortsAfter ((normalChunks chunks).map Chunk.fp) ≠ [] := by
    intro hnil
    have hlength :=
      (sort_perm Fingerprint.sortsAfter ((normalChunks chunks).map Chunk.fp)).length_eq
    rw [hnil, List.length_map] at hlength
    exact hnormal (List.length_eq_zero_iff.mp hlength.symm)
  rw [indexSamplingMin, foldl_offerCandidate_eq]
  exact orDummy_of_ne_nil
    (foldl_addFeature_ne_nil _ (take_ne_nil hsorted (featureNum_pos cfg chunks chunkNum)))

/-- With its number of normal chunks, minimum sampling returns the keys of the smallest fingerprints
of a sequence, and the same features for every sequence with these normal chunks. -/
theorem min_sampling_smallest (cfg : Config) (chunks : List Chunk)
    (hnormal : normalChunks chunks ≠ []) :
    (∃ n smallest, FeatureNum cfg.samplingRatio (normalChunks chunks).length n ∧
      Smallest n ((normalChunks chunks).map Chunk.fp) smallest ∧
      (indexSamplingMin cfg chunks (normalChunks chunks).length).Nodup ∧
      ∀ k, k ∈ indexSamplingMin cfg chunks (normalChunks chunks).length ↔
        ∃ fp ∈ smallest, k = fp.bytes.take cfg.indexKeySize) ∧
    ∀ chunks', (normalChunks chunks').Perm (normalChunks chunks) →
      indexSamplingMin cfg chunks' (normalChunks chunks').length =
        indexSamplingMin cfg chunks (normalChunks chunks).length := by
  have hcount : (normalChunks chunks).length ≠ 0 :=
    fun hzero => hnormal (List.length_eq_zero_iff.mp hzero)
  constructor
  · refine ⟨_, _, featureNum_spec cfg chunks hcount, smallest_take _ _, ?_, fun k => ?_⟩
    · rw [indexSamplingMin_eq hnormal]
      exact nodup_foldl_addFeature _ _ List.nodup_nil
    · rw [indexSamplingMin_eq hnormal, mem_foldl_addFeature]
      constructor
      · rintro (hnil | hfp)
        · exact absurd hnil List.not_mem_nil
        · exact hfp
      · exact .inr
  · intro chunks' hperm
    have hlength := hperm.length_eq
    have hnormal' : normalChunks chunks' ≠ [] := by
      intro hnil
      rw [hnil, List.length_nil] at hlength
      exact hcount hlength.symm
    have hnum : featureNum cfg chunks' (normalChunks chunks).length =
        featureNum cfg chunks (normalChunks chunks).length := by
      rw [featureNum, featureNum, if_neg hcount, if_neg hcount]
    rw [indexSamplingMin_eq hnormal', indexSamplingMin_eq hnormal, hlength, hnum,
      sort_fingerprints_perm (hperm.map Chunk.fp)]

/-- Two chunks of a file, and the same chunks the other way round with no boundaries. -/
theorem min_sampling_smallest_two_chunks :
    indexSamplingMin (smallConfig .exact .logical)
        [.normal (.fill 2) 1 [], .normal (.fill 1) 1 []] 2 =
      indexSamplingMin (smallConfig .exact .logical)
        [.fileStart [], .normal (.fill 1) 1 [], .normal (.fill 2) 1 [], .fileEnd] 2 := by
  have hlaw := (min_sampling_smallest (smallConfig .exact .logical)
    [.fileStart [], .normal (.fill 1) 1 [], .normal (.fill 2) 1 [], .fileEnd] (by decide)).2
  exact hlaw [.normal (.fill 2) 1 [], .normal (.fill 1) 1 []] (List.Perm.swap _ _ [])

end Minimum

section Features

variable {cfg : Config} {chunks : List Chunk} {features : List Key}

def FromNormal (cfg : Config) (chunks : List Chunk) (features : List Key) : Prop :=
  ∀ k ∈ features, ∃ c ∈ chunks, c.isNormal = true ∧ k = c.fp.bytes.take cfg.indexKeySize

private theorem fromNormal_foldl {α : Type} {key : α → Key} {l : List α}
    (h : ∀ a ∈ l, ∃ c ∈ chunks, c.isNormal = true ∧ key a = cfg.key c.fp) :
    FromNormal cfg chunks (l.foldl (fun features a => addFeature features (key a)) []) := by
  intro k hk
  rcases (mem_foldl_addFeature key l).mp hk with hnil | ⟨a, ha, rfl⟩
  · exact absurd hnil List.not_mem_nil
  · exact h a ha

theorem fromNormal_min (hnormal : normalChunks chunks ≠ []) (chunkNum : Nat) :
    FromNormal cfg chunks (indexSamplingMin cfg chunks chunkNum) := by
  rw [indexSamplingMin_eq hnormal]
  apply fromNormal_foldl
  intro fp hfp
  obtain ⟨c, hc, rfl⟩ := List.mem_map.mp ((mem_sort _).mp (List.mem_of_mem_take hfp))
  obtain ⟨hmem, hn⟩ := List.mem_filter.mp hc
  exact ⟨c, hmem, hn, rfl⟩

private theorem length_anchors (num : Nat) (l : List Chunk) :
    (l.foldl (anchorStep num) { pre := List.replicate 9 (Fingerprint.fill 0xff)
                                count := 0, anchors := [] }).anchors.length = min num l.length := by
  induction l using List.reverseRec with
  | nil => exact (Nat.min_zero num).symm
  | append_singleton l c ih =>
      rw [List.foldl_concat, anchorStep, length_offerCandidate (by omega), ih, List.length_append,
        List.length_singleton]
      omega

theorem fromNormal_optimizedMin (hnormal : normalChunks chunks ≠ []) (chunkNum : Nat) :
    FromNormal cfg chunks (indexSamplingOptimizedMin cfg chunks chunkNum) := by
  have hinv := anchorInv_foldl (featureNum cfg chunks chunkNum) (normalChunks chunks)
  have hlength := length_anchors (featureNum cfg chunks chunkNum) (normalChunks chunks)
  have hnum := featureNum_pos cfg chunks chunkNum
  have hpos := List.length_pos_iff.mpr hnormal
  rw [indexSamplingOptimizedMin, orDummy_of_ne_nil]
  · apply fromNormal_foldl
    intro a ha
    obtain ⟨c, hc, heq⟩ := hinv.anchors_mem a ha
    obtain ⟨hmem, hn⟩ := List.mem_filter.mp hc
    exact ⟨c, hmem, hn, by rw [heq]⟩
  · apply foldl_addFeature_ne_nil
    apply List.length_pos_iff.mp
    rw [normalChunks] at hlength hpos
    omega

theorem foldl_addFeatureIf_eq {α : Type} (selected : α → Bool) (key : α → Key) (l : List α)
    (fs : List Key) :
    l.foldl (fun features a => addFeatureIf (selected a) features (key a)) fs =
      (l.filter selected).foldl (fun features a => addFeature features (key a)) fs := by
  induction l generalizing fs with
  | nil => rfl
  | cons a l ih =>
      rw [List.foldl_cons, ih, addFeatureIf, List.filter_cons]
      split
      · rw [List.foldl_cons]
      · rfl

/-- Random sampling falls back to the zero key exactly where its rule selects no normal chunk. -/
theorem indexSamplingRandom_spec (hratio : cfg.samplingRatio ≠ 0) (hkey : cfg.indexKeySize ≤ 20)
    (hmethod : cfg.samplingMethod = .random) :
    ∃ features, indexSamplingRandom cfg chunks = .ok features ∧
      ((∃ c ∈ normalChunks chunks, c.fp.head % (cfg.samplingRatio : Int) = 0) →
        FromNormal cfg chunks features) ∧
      ((∀ c ∈ normalChunks chunks, c.fp.head % (cfg.samplingRatio : Int) ≠ 0) →
        features = [List.replicate cfg.indexKeySize 0]) := by
  have hsampled := foldl_addFeatureIf_eq
    (fun c : Chunk => c.fp.head % (cfg.samplingRatio : Int) == 0) (fun c => cfg.key c.fp)
    (normalChunks chunks) []
  refine ⟨orDummy cfg _, bind_ok_iff.mpr ⟨(), require_of hratio, rfl⟩, fun hsome => ?_,
    fun hnone => ?_⟩
  · obtain ⟨c, hc, hhead⟩ := hsome
    have hne : ((normalChunks chunks).filter fun c =>
        c.fp.head % (cfg.samplingRatio : Int) == 0) ≠ [] :=
      List.ne_nil_of_mem (List.mem_filter.mpr ⟨hc, beq_iff_eq.mpr hhead⟩)
    rw [normalChunks] at hsampled hne
    rw [hsampled, orDummy_of_ne_nil (foldl_addFeature_ne_nil _ hne)]
    apply fromNormal_foldl
    intro a ha
    obtain ⟨hmem, hn⟩ := List.mem_filter.mp (List.mem_of_mem_filter ha)
    exact ⟨a, hmem, hn, rfl⟩
  · have hnil : ((normalChunks chunks).filter fun c =>
        c.fp.head % (cfg.samplingRatio : Int) == 0) = [] := by
      rw [List.filter_eq_nil_iff]
      exact fun c hc hhead => hnone c hc (beq_iff_eq.mp hhead)
    rw [normalChunks] at hsampled hnil
    rw [hsampled, hnil, List.foldl_nil, orDummy, if_pos rfl, Config.key, Config.fillerFp, hmethod]
    change [(List.replicate 20 0).take cfg.indexKeySize] = _
    rw [List.take_replicate, Nat.min_eq_left hkey]

/-- Uniform sampling takes the elements at multiples of the ratio, whatever they are. -/
theorem indexSamplingUniform_spec (hratio : cfg.samplingRatio ≠ 0) (hne : chunks ≠ [])
    (chunkNum : Nat) : ∃ features, indexSamplingUniform cfg chunks chunkNum = .ok features ∧
      ∀ k ∈ features, ∃ (i : Nat) (c : Chunk), chunks[i]? = some c ∧ i % cfg.samplingRatio = 0 ∧
        k = c.fp.bytes.take cfg.indexKeySize := by
  have hsampled := foldl_addFeatureIf_eq
    (fun ci : Chunk × Nat => ci.2 % cfg.samplingRatio == 0) (fun ci => cfg.key ci.1.fp)
    chunks.zipIdx []
  have hfirst : (chunks.zipIdx.filter fun ci => ci.2 % cfg.samplingRatio == 0) ≠ [] := by
    obtain ⟨c, l, rfl⟩ := List.exists_cons_of_ne_nil hne
    apply List.ne_nil_of_mem (a := (c, 0))
    apply List.mem_filter.mpr
    refine ⟨List.mem_cons_self, beq_iff_eq.mpr (Nat.zero_mod _)⟩
  have hfeatures := foldl_addFeature_ne_nil (fun ci : Chunk × Nat => cfg.key ci.1.fp) hfirst
  rw [← hsampled] at hfeatures
  refine ⟨orDummy cfg _, bind_ok_iff.mpr ⟨(), require_of hratio, bind_ok_iff.mpr
    ⟨(), require_of fun hnil => absurd hnil hfeatures, rfl⟩⟩, fun k hk => ?_⟩
  rw [orDummy_of_ne_nil hfeatures, hsampled] at hk
  rcases (mem_foldl_addFeature _ _).mp hk with hnil | ⟨ci, hci, rfl⟩
  · exact absurd hnil List.not_mem_nil
  · obtain ⟨hmem, hmod⟩ := List.mem_filter.mp hci
    exact ⟨ci.2, ci.1, List.mem_zipIdx_iff_getElem?.mp hmem, beq_iff_eq.mp hmod, rfl⟩

/-- What the samplers' features come from: always from normal chunks under the two minimum
samplings; from normal chunks under random sampling if its rule selects one, and the zero key if it
does not; from normal chunks under uniform sampling if no selected position holds a file
boundary. -/
def FeaturesFrom (cfg : Config) (chunks : List Chunk) (features : List Key) : Prop :=
  match cfg.samplingMethod with
  | .min => FromNormal cfg chunks features
  | .optimizedMin => FromNormal cfg chunks features
  | .random =>
    ((∃ c ∈ normalChunks chunks, c.fp.head % (cfg.samplingRatio : Int) = 0) →
      FromNormal cfg chunks features) ∧
    ((∀ c ∈ normalChunks chunks, c.fp.head % (cfg.samplingRatio : Int) ≠ 0) →
      features = [List.replicate cfg.indexKeySize 0])
  | .uniform =>
    (∀ (i : Nat) (c : Chunk), chunks[i]? = some c → i % cfg.samplingRatio = 0 →
      c.isNormal = true) → FromNormal cfg chunks features

/-- A sequence with a normal chunk is sampled, and its features come from the data. -/
theorem sampled_features_from (cfg : Config) (chunks : List Chunk) (chunkNum : Nat)
    (hratio : 1 ≤ cfg.samplingRatio) (hkey : 1 ≤ cfg.indexKeySize ∧ cfg.indexKeySize ≤ 20)
    (hnormal : ∃ c ∈ chunks, c.isNormal = true) :
    ∃ features, sampling cfg chunks chunkNum = .ok features ∧
      FeaturesFrom cfg chunks features := by
  obtain ⟨c, hc, hn⟩ := hnormal
  have hne : normalChunks chunks ≠ [] :=
    List.ne_nil_of_mem (List.mem_filter.mpr ⟨hc, hn⟩)
  have hpos : cfg.samplingRatio ≠ 0 := by omega
  rw [sampling]
  unfold FeaturesFrom
  cases hmethod : cfg.samplingMethod with
  | random => exact indexSamplingRandom_spec hpos hkey.2 hmethod
  | min => exact ⟨_, rfl, fromNormal_min hne chunkNum⟩
  | optimizedMin => exact ⟨_, rfl, fromNormal_optimizedMin hne chunkNum⟩
  | uniform =>
      obtain ⟨features, hok, hmem⟩ :=
        indexSamplingUniform_spec hpos (List.ne_nil_of_mem hc) chunkNum
      refine ⟨features, hok, fun hselected k hk => ?_⟩
      obtain ⟨i, c, hi, hmod, heq⟩ := hmem k hk
      exact ⟨c, List.mem_of_getElem? hi, hselected i c hi hmod, heq⟩

/-- Random sampling with ratio two. -/
def oneInTwo : Config :=
  { smallConfig .exact .logical with
    samplingMethod := .random
    samplingRatio := 2 }

/-- The rule selects the second chunk of a file. -/
theorem sampled_features_from_selected :
    ∃ features, sampling oneInTwo
        [.fileStart [], .normal (.fill 1) 1 [], .normal (.fill 2) 1 [], .fileEnd] 2 = .ok features ∧
      FromNormal oneInTwo
        [.fileStart [], .normal (.fill 1) 1 [], .normal (.fill 2) 1 [], .fileEnd] features := by
  obtain ⟨features, hok, hfrom⟩ := sampled_features_from oneInTwo
    [.fileStart [], .normal (.fill 1) 1 [], .normal (.fill 2) 1 [], .fileEnd] 2 (by decide)
    (by decide) ⟨.normal (.fill 1) 1 [], by decide, rfl⟩
  exact ⟨features, hok, hfrom.1 ⟨.normal (.fill 2) 1 [], by decide, by decide⟩⟩

/-- A single chunk that the rule does not select leaves a zero key among the features. -/
theorem unselected_chunk_placeholder :
    ¬ ∀ (cfg : Config) (chunks : List Chunk) (chunkNum : Nat) (features : List Key),
      1 ≤ cfg.samplingRatio → 1 ≤ cfg.indexKeySize ∧ cfg.indexKeySize ≤ 20 →
        (∃ c ∈ chunks, c.isNormal = true) → sampling cfg chunks chunkNum = .ok features →
          FromNormal cfg chunks features := by
  intro hall
  have hzero := hall oneInTwo [.normal (.fill 1) 1 []] 1 [List.replicate 20 0] (by decide)
    (by decide) ⟨_, List.mem_singleton.mpr rfl, rfl⟩ rfl
  obtain ⟨c, hc, -, heq⟩ := hzero _ (List.mem_singleton.mpr rfl)
  rw [List.mem_singleton.mp hc] at heq
  exact absurd heq (by decide)

end Features

section Source
variable {cfg : Config} {chunks : List Chunk} {features : List Key}

/-- The samplers see nothing of a chunk but its fingerprint and whether it is a file boundary. -/
theorem sampling_map (f : Chunk → Chunk) (hnormal : ∀ c, (f c).isNormal = c.isNormal)
    (hfp : ∀ c, (f c).fp = c.fp) (chunkNum : Nat) :
    sampling cfg (chunks.map f) chunkNum = sampling cfg chunks chunkNum := by
  have hfilter : (chunks.map f).filter Chunk.isNormal = (chunks.filter Chunk.isNormal).map f := by
    rw [List.filter_map]
    exact congrArg (List.map f) (List.filter_congr fun c _ => hnormal c)
  have hnum : featureNum cfg (chunks.map f) chunkNum = featureNum cfg chunks chunkNum := by
    rw [featureNum, featureNum, List.length_map]
  have hanchor : ∀ num s c, anchorStep num s (f c) = anchorStep num s c := by
    intro num s c
    simp only [anchorStep, anchorCandidate, hfp]
  rw [sampling, sampling]
  cases cfg.samplingMethod with
  | random => simp only [indexSamplingRandom, hfilter, List.foldl_map, hfp]
  | min => simp only [indexSamplingMin, hfilter, hnum, List.foldl_map, hfp]
  | uniform =>
      simp only [indexSamplingUniform, List.zipIdx_map, List.foldl_map, Prod.map, hfp, id]
  | optimizedMin =>
      simp only [indexSamplingOptimizedMin, hfilter, hnum, List.foldl_map, hanchor]

/-- Where no chunk is a file boundary, the features are keys of the chunks, unless random sampling
selects none of them. -/
theorem sampling_normal_cases {chunkNum : Nat} (hkey : cfg.indexKeySize ≤ 20) (hne : chunks ≠ [])
    (hnormal : ∀ c ∈ chunks, c.isNormal = true)
    (h : sampling cfg chunks chunkNum = .ok features) :
    FromNormal cfg chunks features ∨ (cfg.samplingMethod = .random ∧
      ∀ c ∈ chunks, c.fp.head % (cfg.samplingRatio : Int) ≠ 0) := by
  have hsame : normalChunks chunks = chunks := List.filter_eq_self.mpr hnormal
  have hchunks : normalChunks chunks ≠ [] := by
    rw [hsame]
    exact hne
  rw [sampling] at h
  cases hmethod : cfg.samplingMethod with
  | random =>
      rw [hmethod] at h
      obtain ⟨_, hratio, -⟩ := bind_ok_iff.mp h
      obtain ⟨features', hok, hspec⟩ :=
        indexSamplingRandom_spec (require_ok_iff.mp hratio) hkey hmethod
      obtain rfl := Except.ok.inj (hok.symm.trans h)
      rw [hsame] at hspec
      obtain ⟨hsome, -⟩ := hspec
      by_cases hselected : ∃ c ∈ chunks, c.fp.head % (cfg.samplingRatio : Int) = 0
      · exact Or.inl (hsome hselected)
      · exact Or.inr ⟨rfl, fun c hc hhead => hselected ⟨c, hc, hhead⟩⟩
  | min =>
      rw [hmethod] at h
      obtain rfl := Except.ok.inj h
      exact Or.inl (fromNormal_min hchunks chunkNum)
  | optimizedMin =>
      rw [hmethod] at h
      obtain rfl := Except.ok.inj h
      exact Or.inl (fromNormal_optimizedMin hchunks chunkNum)
  | uniform =>
      rw [hmethod] at h
      obtain ⟨_, hratio, -⟩ := bind_ok_iff.mp h
      obtain ⟨features', hok, hmem⟩ :=
        indexSamplingUniform_spec (require_ok_iff.mp hratio) hne chunkNum
      obtain rfl := Except.ok.inj (hok.symm.trans h)
      apply Or.inl
      intro k hk
      obtain ⟨i, c, hi, -, heq⟩ := hmem k hk
      have hc := List.mem_of_getElem? hi
      exact ⟨c, hc, hnormal c hc, heq⟩
end Source
end Destor
