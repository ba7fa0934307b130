/- digest: The four samplers and which keys their feature sets can hold. -/

import Destor.Basic
import Destor.Library.SortedSeq

set_option autoImplicit false
set_option relaxedAutoImplicit false

namespace Destor

open Library.Outcome Library.SortedSeq

/-- A feature: the first `index_key_size` bytes of a fingerprint. -/
abbrev Key := List UInt8

instance : LawfulBEq Key := inferInstance

namespace Config

/-- The bytes of a fingerprint that `g_feature_equal` compares. -/
def key (cfg : Config) (fp : Fingerprint) : Key := fp.bytes.take cfg.indexKeySize

/-- The fingerprint whose key a sampler inserts when it selects nothing. -/
def fillerFp (cfg : Config) : Fingerprint :=
  match cfg.samplingMethod with
  | .random => Fingerprint.fill 0x00
  | .uniform => Fingerprint.fill 0x00
  | .min => Fingerprint.fill 0xff
  | .optimizedMin => Fingerprint.fill 0xff

end Config

/-- `g_hash_table_insert` into a feature set. -/
def addFeature (features : List Key) (key : Key) : List Key :=
  if key ∈ features then features else features ++ [key]

/-- Inserts the key of a fingerprint that the sampling rule selects. -/
def addFeatureIf (selected : Bool) (features : List Key) (key : Key) : List Key :=
  if selected then addFeature features key else features

def orDummy (cfg : Config) (features : List Key) : List Key :=
  if features = [] then [cfg.key cfg.fillerFp] else features

/-- How many features `index_sampling_min` and `index_sampling_optimized_min` look for. -/
def featureNum (cfg : Config) (chunks : List Chunk) (chunkNum : Nat) : Nat :=
  let chunkNum := if chunkNum = 0 then chunks.length else chunkNum
  if cfg.samplingRatio ≠ 0 ∧ cfg.samplingRatio < chunkNum then
    let remain := chunkNum % cfg.samplingRatio
    if cfg.samplingRatio < remain * 2 then chunkNum / cfg.samplingRatio + 1
    else chunkNum / cfg.samplingRatio
  else 1

/-- Keeps the least `num` elements of a sorted sequence when `x` arrives. -/
def offerCandidate {α : Type} (lt : α → α → Bool) (num : Nat) (candidates : List α) (x : α) :
    List α :=
  if candidates.length < num ∨ (∃ last ∈ candidates.getLast?, lt x last = true) then
    if num < candidates.length + 1 then (insertSorted (fun a b => lt b a) x candidates).dropLast
    else insertSorted (fun a b => lt b a) x candidates
  else candidates

def indexSamplingMin (cfg : Config) (chunks : List Chunk) (chunkNum : Nat) : List Key :=
  let candidates := (chunks.filter Chunk.isNormal).foldl
    (fun candidates c =>
      offerCandidate Fingerprint.lt (featureNum cfg chunks chunkNum) candidates c.fp) []
  orDummy cfg (candidates.foldl (fun features fp => addFeature features (cfg.key fp)) [])

/-- `struct anchor` of `index_sampling_optimized_min`. -/
structure Anchor where
  anchor : Fingerprint
  candidate : Fingerprint
deriving DecidableEq

/-- The loop state of `index_sampling_optimized_min`: the last nine fingerprints, most recent
first, the number of chunks seen and the anchors. -/
structure AnchorState where
  pre : List Fingerprint
  count : Nat
  anchors : List Anchor

/-- The candidate paired with a new anchor: the fingerprint eight chunks before, or the first
one of a shorter run. -/
def anchorCandidate (s : AnchorState) (c : Chunk) : Fingerprint :=
  (c.fp :: s.pre.take 8).getD (if 8 ≤ s.count then 8 else s.count) default

/-- `index_sampling_optimized_min`: one iteration of the anchor loop. -/
def anchorStep (num : Nat) (s : AnchorState) (c : Chunk) : AnchorState :=
  { pre := c.fp :: s.pre.take 8
    count := s.count + 1
    anchors := offerCandidate (fun a b => Fingerprint.lt a.anchor b.anchor) num s.anchors
      { anchor := c.fp, candidate := anchorCandidate s c } }

def indexSamplingOptimizedMin (cfg : Config) (chunks : List Chunk) (chunkNum : Nat) : List Key :=
  let s := (chunks.filter Chunk.isNormal).foldl (anchorStep (featureNum cfg chunks chunkNum))
    { pre := List.replicate 9 (Fingerprint.fill 0xff), count := 0, anchors := [] }
  orDummy cfg (s.anchors.foldl (fun features a => addFeature features (cfg.key a.candidate)) [])

def indexSamplingRandom (cfg : Config) (chunks : List Chunk) : Except Abort (List Key) := do
  require (cfg.samplingRatio ≠ 0) .samplingRatioZero
  return orDummy cfg ((chunks.filter Chunk.isNormal).foldl (fun features c =>
    addFeatureIf (c.fp.head % (cfg.samplingRatio : Int) == 0) features (cfg.key c.fp)) [])

def indexSamplingUniform (cfg : Config) (chunks : List Chunk) (chunkNum : Nat) :
    Except Abort (List Key) := do
  require (cfg.samplingRatio ≠ 0) .samplingRatioZero
  let features := chunks.zipIdx.foldl (fun features ci =>
    addFeatureIf (ci.2 % cfg.samplingRatio == 0) features (cfg.key ci.1.fp)) []
  require (features = [] → chunkNum = 0) .uniformFeatureMissing
  return orDummy cfg features

def sampling (cfg : Config) (chunks : List Chunk) (chunkNum : Nat) : Except Abort (List Key) :=
  match cfg.samplingMethod with
  | .random => indexSamplingRandom cfg chunks
  | .optimizedMin => .ok (indexSamplingOptimizedMin cfg chunks chunkNum)
  | .min => .ok (indexSamplingMin cfg chunks chunkNum)
  | .uniform => indexSamplingUniform cfg chunks chunkNum

section FeatureSets

variable {cfg : Config}

theorem mem_addFeature {features : List Key} {key k : Key} :
    k ∈ addFeature features key ↔ k ∈ features ∨ k = key := by
  unfold addFeature
  split <;> simp_all

theorem nodup_addFeature {features : List Key} (key : Key) (h : features.Nodup) :
    (addFeature features key).Nodup := by
  unfold addFeature
  split
  · exact h
  · rename_i hkey
    rw [List.nodup_append]
    refine ⟨h, List.nodup_singleton _, ?_⟩
    rintro a ha b hb rfl
    exact hkey (List.mem_singleton.mp hb ▸ ha)

theorem nodup_orDummy {features : List Key} (h : features.Nodup) :
    (orDummy cfg features).Nodup := by
  unfold orDummy
  split
  · exact List.nodup_singleton _
  · exact h

theorem mem_orDummy {features : List Key} {k : Key} (h : k ∈ orDummy cfg features) :
    k ∈ features ∨ (features = [] ∧ k = cfg.key cfg.fillerFp) := by
  unfold orDummy at h
  split at h
  · exact Or.inr ⟨by assumption, List.mem_singleton.mp h⟩
  · exact Or.inl h

theorem mem_orDummy_of_mem {features : List Key} {k : Key} (h : k ∈ features) :
    k ∈ orDummy cfg features := by
  unfold orDummy
  split
  · simp_all
  · exact h

private theorem nodup_foldl_features {α : Type} (step : List Key → α → List Key)
    (hstep : ∀ fs a, fs.Nodup → (step fs a).Nodup) (l : List α) {fs : List Key}
    (h : fs.Nodup) : (l.foldl step fs).Nodup := by
  induction l generalizing fs with
  | nil => exact h
  | cons a l ih => exact ih (hstep fs a h)

/-- Every feature of a fold was there before or comes from an element. -/
theorem mem_foldl_features {α : Type} (step : List Key → α → List Key) (key : α → Key)
    (hstep : ∀ fs a k, k ∈ step fs a → k ∈ fs ∨ k = key a) (l : List α) {fs : List Key}
    {k : Key} (h : k ∈ l.foldl step fs) : k ∈ fs ∨ ∃ a ∈ l, k = key a := by
  induction l generalizing fs with
  | nil => exact Or.inl h
  | cons a l ih =>
      rcases ih h with h | ⟨b, hb, hk⟩
      · rcases hstep fs a k h with h | h
        · exact Or.inl h
        · exact Or.inr ⟨a, List.mem_cons_self, h⟩
      · exact Or.inr ⟨b, List.mem_cons_of_mem _ hb, hk⟩

theorem mem_foldl_addFeature {α : Type} (key : α → Key) (l : List α) {fs : List Key} {k : Key} :
    k ∈ l.foldl (fun fs a => addFeature fs (key a)) fs ↔ k ∈ fs ∨ ∃ a ∈ l, k = key a := by
  induction l generalizing fs with
  | nil => simp
  | cons a l ih => simp [ih, mem_addFeature, or_assoc]

theorem nodup_foldl_addFeature {α : Type} (key : α → Key) (l : List α) {fs : List Key}
    (h : fs.Nodup) : (l.foldl (fun fs a => addFeature fs (key a)) fs).Nodup :=
  nodup_foldl_features _ (fun _ _ h => nodup_addFeature _ h) l h

theorem addFeatureIf_ne_nil {selected : Bool} {features : List Key} (key : Key)
    (h : features ≠ [] ∨ selected = true) : addFeatureIf selected features key ≠ [] := by
  unfold addFeatureIf
  split
  · exact List.ne_nil_of_mem (mem_addFeature.mpr (Or.inr rfl))
  · simp_all

theorem foldl_addFeatureIf_ne_nil {α : Type} (selected : α → Bool) (key : α → Key)
    (l : List α) {fs : List Key} (h : fs ≠ []) :
    l.foldl (fun fs a => addFeatureIf (selected a) fs (key a)) fs ≠ [] := by
  induction l generalizing fs with
  | nil => exact h
  | cons a l ih => exact ih (addFeatureIf_ne_nil _ (Or.inl h))

private theorem mem_foldl_addFeature_of_mem {α : Type} (key : α → Key) (l : List α)
    {fs : List Key} {k : Key} (h : k ∈ fs ∨ ∃ a ∈ l, k = key a) :
    k ∈ l.foldl (fun fs a => addFeatureIf true fs (key a)) fs := by
  induction l generalizing fs with
  | nil => simpa using h
  | cons a l ih =>
      apply ih
      rcases h with h | ⟨b, hb, hk⟩
      · exact Or.inl (mem_addFeature.mpr (Or.inl h))
      · rcases List.mem_cons.mp hb with rfl | hb
        · exact Or.inl (mem_addFeature.mpr (Or.inr hk))
        · exact Or.inr ⟨b, hb, hk⟩

end FeatureSets

section Candidates

variable {α : Type} {lt : α → α → Bool} {num : Nat}

theorem mem_offerCandidate {candidates : List α} {x y : α}
    (h : y ∈ offerCandidate lt num candidates x) : y = x ∨ y ∈ candidates := by
  unfold offerCandidate at h
  split at h
  · split at h
    · exact (mem_insertSorted _).mp (List.dropLast_subset _ h)
    · exact (mem_insertSorted _).mp h
  · exact Or.inr h

theorem mem_foldl_offerCandidate {β : Type} (f : β → α) (l : List β)
    {candidates : List α} {y : α}
    (h : y ∈ l.foldl (fun cs b => offerCandidate lt num cs (f b)) candidates) :
    y ∈ candidates ∨ ∃ b ∈ l, y = f b := by
  induction l generalizing candidates with
  | nil => exact Or.inl h
  | cons b l ih =>
      rcases ih h with h | ⟨b', hb', hy⟩
      · rcases mem_offerCandidate h with h | h
        · exact Or.inr ⟨b, List.mem_cons_self, h⟩
        · exact Or.inl h
      · exact Or.inr ⟨b', List.mem_cons_of_mem _ hb', hy⟩

/-- Every fingerprint the anchor loop remembers was offered by a chunk, the unused slots of the
window aside, and those are never picked as candidates. -/
structure AnchorInv (seen : List Chunk) (s : AnchorState) : Prop where
  count_eq : s.count = seen.length
  pre_length : s.pre.length = 9
  pre_mem : ∀ i, i < s.count → i < 9 → ∃ c ∈ seen, s.pre.getD i default = c.fp
  anchors_mem : ∀ a ∈ s.anchors, ∃ c ∈ seen, a.candidate = c.fp

private theorem AnchorInv.step {seen : List Chunk} {s : AnchorState} (h : AnchorInv seen s)
    (c : Chunk) : AnchorInv (seen ++ [c]) (anchorStep num s c) := by
  have hcount := h.count_eq
  have hpre : ∀ i, i < s.count + 1 → i < 9 →
      ∃ c' ∈ seen ++ [c], (c.fp :: s.pre.take 8).getD i default = c'.fp := by
    intro i hi hi9
    cases i with
    | zero => exact ⟨c, by simp, rfl⟩
    | succ i =>
        obtain ⟨c', hc', heq⟩ := h.pre_mem i (by omega) (by omega)
        refine ⟨c', by simp [hc'], ?_⟩
        rw [← heq]
        simp [List.getD_eq_getElem?_getD, show i < 8 by omega]
  refine ⟨by simp [anchorStep, hcount], by simp [anchorStep, h.pre_length], hpre, ?_⟩
  intro a ha
  simp only [anchorStep] at ha
  rcases mem_offerCandidate ha with rfl | ha
  · simp only [anchorCandidate]
    split
    · exact hpre 8 (by omega) (by omega)
    · exact hpre s.count (by omega) (by omega)
  · obtain ⟨c', hc', heq⟩ := h.anchors_mem a ha
    exact ⟨c', by simp [hc'], heq⟩

theorem anchorInv_foldl (num : Nat) (l : List Chunk) :
    AnchorInv l (l.foldl (anchorStep num)
      { pre := List.replicate 9 (Fingerprint.fill 0xff), count := 0, anchors := [] }) := by
  have main : ∀ (l seen : List Chunk) (s : AnchorState), AnchorInv seen s →
      AnchorInv (seen ++ l) (l.foldl (anchorStep num) s) := by
    intro l
    induction l with
    | nil => intro seen s h; simpa using h
    | cons c l ih =>
        intro seen s h
        have := ih (seen ++ [c]) (anchorStep num s c) (h.step c)
        rwa [List.append_assoc] at this
  exact main l [] _ ⟨rfl, rfl, by simp, by simp⟩

end Candidates

section Sampled

variable {cfg : Config}

def Config.samples (cfg : Config) (c : Chunk) : Prop :=
  c.isNormal = true ∨ cfg.samplingMethod = .uniform

/-- What every sampler guarantees of its features: no key twice, and each key belongs to a
sampled chunk or is the sampler's filler. -/
structure Sampled (cfg : Config) (chunks : List Chunk) (features : List Key) : Prop where
  nodup : features.Nodup
  mem : ∀ k ∈ features,
    (∃ c ∈ chunks, cfg.samples c ∧ k = cfg.key c.fp) ∨ k = cfg.key cfg.fillerFp

private theorem sampled_of_foldl {α : Type} (chunks : List Chunk) (l : List α)
    (step : List Key → α → List Key) (key : α → Key)
    (hnodup : ∀ fs a, fs.Nodup → (step fs a).Nodup)
    (hstep : ∀ fs a k, k ∈ step fs a → k ∈ fs ∨ k = key a)
    (hmem : ∀ a ∈ l, ∃ c ∈ chunks, cfg.samples c ∧ key a = cfg.key c.fp) :
    Sampled cfg chunks (orDummy cfg (l.foldl step [])) := by
  refine ⟨nodup_orDummy (nodup_foldl_features step hnodup l List.nodup_nil), ?_⟩
  intro k hk
  rcases mem_orDummy hk with hk | ⟨-, hk⟩
  · rcases mem_foldl_features step key hstep l hk with hk | ⟨a, ha, rfl⟩
    · simp at hk
    · exact Or.inl (hmem a ha)
  · exact Or.inr hk

private theorem addFeature_steps {α : Type} (key : α → Key) :
    (∀ fs a, fs.Nodup → (addFeature fs (key a)).Nodup) ∧
      ∀ fs a k, k ∈ addFeature fs (key a) → k ∈ fs ∨ k = key a :=
  ⟨fun _ _ h => nodup_addFeature _ h, fun _ _ _ h => mem_addFeature.mp h⟩

private theorem addFeatureIf_steps {α : Type} (selected : α → Bool) (key : α → Key) :
    (∀ fs a, fs.Nodup → (addFeatureIf (selected a) fs (key a)).Nodup) ∧
      ∀ fs a k, k ∈ addFeatureIf (selected a) fs (key a) → k ∈ fs ∨ k = key a := by
  refine ⟨fun fs a h => ?_, fun fs a k h => ?_⟩
  · unfold addFeatureIf
    split
    · exact nodup_addFeature _ h
    · exact h
  · unfold addFeatureIf at h
    split at h
    · exact mem_addFeature.mp h
    · exact Or.inl h

private theorem ratio_allowed (cfg : Config) : cfg.samplingRatio ≠ 0 ∨
    (Abort.samplingRatioZero = .samplingRatioZero ∧ cfg.samplingRatio = 0) := by
  by_cases h : cfg.samplingRatio = 0
  · exact Or.inr ⟨rfl, h⟩
  · exact Or.inl h

/-- The samplers fail only on a zero ratio, and otherwise deliver a sampled feature set. -/
theorem sampling_ensures (cfg : Config) (chunks : List Chunk) {chunkNum : Nat}
    (hnum : chunks = [] → chunkNum = 0) :
    Ensures (fun a => a = .samplingRatioZero ∧ cfg.samplingRatio = 0) (Sampled cfg chunks)
      (sampling cfg chunks chunkNum) := by
  unfold sampling
  cases hmethod : cfg.samplingMethod with
  | random =>
      refine Ensures.bind (ensures_require (ratio_allowed cfg)) (fun _ _ => ?_)
      obtain ⟨hnodup, hstep⟩ := addFeatureIf_steps
        (fun c : Chunk => c.fp.head % (cfg.samplingRatio : Int) == 0) (fun c => cfg.key c.fp)
      apply sampled_of_foldl chunks _ _ (fun c : Chunk => cfg.key c.fp) hnodup hstep
      intro c hc
      exact ⟨c, (List.mem_filter.mp hc).1, Or.inl (List.mem_filter.mp hc).2, rfl⟩
  | min =>
      obtain ⟨hnodup, hstep⟩ := addFeature_steps (fun fp : Fingerprint => cfg.key fp)
      apply sampled_of_foldl chunks _ _ (fun fp : Fingerprint => cfg.key fp) hnodup hstep
      intro fp hfp
      rcases mem_foldl_offerCandidate (fun c : Chunk => c.fp) _ hfp with h | ⟨c, hc, rfl⟩
      · simp at h
      · exact ⟨c, (List.mem_filter.mp hc).1, Or.inl (List.mem_filter.mp hc).2, rfl⟩
  | uniform =>
      refine Ensures.bind (ensures_require (ratio_allowed cfg)) (fun _ hratio => ?_)
      refine Ensures.bind (ensures_require (Or.inl ?_)) (fun _ _ => ?_)
      · intro hempty
        apply hnum
        cases chunks with
        | nil => rfl
        | cons c l =>
            -- the first element has index zero, so it is always selected
            refine absurd hempty (foldl_addFeatureIf_ne_nil
              (fun ci : Chunk × Nat => ci.2 % cfg.samplingRatio == 0) _ (l.zipIdx 1) ?_)
            exact addFeatureIf_ne_nil _ (Or.inr (by simp))
      · obtain ⟨hnodup, hstep⟩ := addFeatureIf_steps
          (fun ci : Chunk × Nat => ci.2 % cfg.samplingRatio == 0) (fun ci => cfg.key ci.1.fp)
        refine sampled_of_foldl chunks _ _ (fun ci : Chunk × Nat => cfg.key ci.1.fp)
          hnodup hstep ?_
        intro ci hci
        exact ⟨ci.1, List.fst_mem_of_mem_zipIdx hci, Or.inr hmethod, rfl⟩
  | optimizedMin =>
      obtain ⟨hnodup, hstep⟩ := addFeature_steps (fun a : Anchor => cfg.key a.candidate)
      apply sampled_of_foldl chunks _ _ (fun a : Anchor => cfg.key a.candidate) hnodup hstep
      intro a ha
      obtain ⟨c, hc, heq⟩ := (anchorInv_foldl _ (chunks.filter Chunk.isNormal)).anchors_mem a ha
      exact ⟨c, (List.mem_filter.mp hc).1, Or.inl (List.mem_filter.mp hc).2, by rw [heq]⟩

theorem sampling_uniform_all {chunks : List Chunk} {chunkNum : Nat}
    (hmethod : cfg.samplingMethod = .uniform) (hratio : cfg.samplingRatio = 1)
    {features : List Key} (h : sampling cfg chunks chunkNum = .ok features) :
    ∀ c ∈ chunks, cfg.key c.fp ∈ features := by
  simp only [sampling, hmethod, indexSamplingUniform, hratio, bind_ok_iff, Nat.mod_one,
    beq_self_eq_true] at h
  obtain ⟨-, -, -, -, h⟩ := h
  cases h
  intro c hc
  refine mem_orDummy_of_mem (mem_foldl_addFeature_of_mem
    (fun ci : Chunk × Nat => cfg.key ci.1.fp) _ ?_)
  obtain ⟨i, hi, rfl⟩ := List.getElem_of_mem hc
  exact Or.inr ⟨(chunks[i], i), by simp [List.mem_iff_getElem?], rfl⟩

/-- With ratio one a chunk sequence that is not empty yields no other feature. -/
theorem sampling_uniform_only {chunks : List Chunk} {chunkNum : Nat}
    (hmethod : cfg.samplingMethod = .uniform) (hratio : cfg.samplingRatio = 1)
    (hne : chunks ≠ []) {features : List Key} (h : sampling cfg chunks chunkNum = .ok features) :
    ∀ k ∈ features, ∃ c ∈ chunks, k = cfg.key c.fp := by
  simp only [sampling, hmethod, indexSamplingUniform, hratio, bind_ok_iff, Nat.mod_one,
    beq_self_eq_true] at h
  obtain ⟨-, -, -, -, h⟩ := h
  cases h
  intro k hk
  obtain ⟨-, hstep⟩ := addFeatureIf_steps (fun _ : Chunk × Nat => true)
    (fun ci => cfg.key ci.1.fp)
  rcases mem_orDummy hk with hk | ⟨hnil, -⟩
  · rcases mem_foldl_features _ (fun ci : Chunk × Nat => cfg.key ci.1.fp) hstep _ hk with
      hk | ⟨ci, hci, rfl⟩
    · simp at hk
    · exact ⟨ci.1, List.fst_mem_of_mem_zipIdx hci, rfl⟩
  · obtain ⟨c, hc⟩ := List.exists_mem_of_ne_nil _ hne
    obtain ⟨i, hi, rfl⟩ := List.getElem_of_mem hc
    have hmem := mem_foldl_addFeature_of_mem (fun ci : Chunk × Nat => cfg.key ci.1.fp)
      chunks.zipIdx (Or.inr (a := cfg.key chunks[i].fp ∈ ([] : List Key))
        ⟨(chunks[i], i), by simp [List.mem_iff_getElem?], rfl⟩)
    rw [hnil] at hmem
    simp at hmem

end Sampled

end Destor
