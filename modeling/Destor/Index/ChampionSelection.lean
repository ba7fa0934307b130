/- digest: The segments that similarity detection prefetches are the greedy choice, whatever the
   order in which the hash tables deliver features and candidates. -/

import Mathlib.Data.List.Dedup
import Mathlib.Data.List.Induction
import Destor.Index.SimilarityDetection
import Destor.Library.Greedy

set_option autoImplicit false
set_option relaxedAutoImplicit false

namespace Destor

open Library.Outcome Library.SortedSeq Library.Greedy

section Coverage

def listed (kv : KvStore) (key : Key) : List Int :=
  ((kvstoreLookup kv key).getD []).takeWhile (· ≠ temporaryId)

def sharedFeatures (kv : KvStore) (features : List Key) (id : Int) : List Key :=
  features.filter fun key => id ∈ listed kv key

def uncovered (kv : KvStore) (features : List Key) (chosen : List Int) (id : Int) : List Key :=
  (sharedFeatures kv features id).filter fun key => ∀ c ∈ chosen, c ∉ listed kv key

def candidateSegments (kv : KvStore) (features : List Key) : List Int :=
  (features.flatMap (listed kv)).dedup

/-- Segment `a` covers more features than `b` once `chosen` are covered, or as many and its id is
larger. -/
def CoversMore (kv : KvStore) (features : List Key) (chosen : List Int) (a b : Int) : Prop :=
  (uncovered kv features chosen b).length < (uncovered kv features chosen a).length ∨
    (uncovered kv features chosen b).length = (uncovered kv features chosen a).length ∧ b < a

variable {kv : KvStore} {features features' : List Key} {chosen : List Int} {a b : Int}

theorem mem_sharedFeatures {key : Key} {id : Int} :
    key ∈ sharedFeatures kv features id ↔ key ∈ features ∧ id ∈ listed kv key := by
  rw [sharedFeatures, List.mem_filter, decide_eq_true_iff]

theorem mem_candidateSegments {id : Int} :
    id ∈ candidateSegments kv features ↔ sharedFeatures kv features id ≠ [] := by
  rw [candidateSegments, List.mem_dedup, List.mem_flatMap]
  constructor
  · rintro ⟨key, hkey, hid⟩
    exact List.ne_nil_of_mem (mem_sharedFeatures.mpr ⟨hkey, hid⟩)
  · intro hne
    obtain ⟨key, hkey⟩ := List.exists_mem_of_ne_nil _ hne
    exact ⟨key, (mem_sharedFeatures.mp hkey).1, (mem_sharedFeatures.mp hkey).2⟩

theorem CoversMore.asymm (h : CoversMore kv features chosen a b) :
    ¬ CoversMore kv features chosen b a := by
  rw [CoversMore] at h ⊢
  omega

theorem length_uncovered_perm (h : features'.Perm features) (id : Int) :
    (uncovered kv features' chosen id).length = (uncovered kv features chosen id).length :=
  ((h.filter _).filter _).length_eq

theorem coversMore_perm (h : features'.Perm features) :
    CoversMore kv features' chosen a b ↔ CoversMore kv features chosen a b := by
  rw [CoversMore, CoversMore, length_uncovered_perm h, length_uncovered_perm h]

theorem mem_candidateSegments_perm (h : features'.Perm features) {id : Int} :
    id ∈ candidateSegments kv features' ↔ id ∈ candidateSegments kv features := by
  rw [candidateSegments, candidateSegments, List.mem_dedup, List.mem_dedup,
    (h.flatMap_right _).mem_iff]

end Coverage

section Collecting

variable {source : IndexSource} {similar : IdMap (List Key)}

/-- Entries as the store has them: no segment twice, and the slots with segments first. -/
def KvEntries (kv : KvStore) : Prop :=
  ∀ key value, kv.lookup key = some value → ∃ (ids : List Int) (n : Nat),
    value = ids ++ List.replicate n temporaryId ∧ ids.Nodup ∧ ∀ id ∈ ids, id ≠ temporaryId

def Collected (kv : KvStore) (features : List Key) (similar : IdMap (List Key)) : Prop :=
  ∀ id fs, similar.lookup id = some fs ↔ fs = sharedFeatures kv features id ∧ fs ≠ []

theorem nodup_listed (hkv : KvEntries source.kv) (key : Key) : (listed source.kv key).Nodup := by
  rw [listed, kvstoreLookup]
  cases hvalue : source.kv.lookup key with
  | none => exact List.nodup_nil
  | some value =>
      obtain ⟨ids, n, heq, hnodup, hids⟩ := hkv key value hvalue
      rw [Option.getD_some, takeWhile_of_shape heq hids]
      exact hnodup

theorem addSimilars_eq (key : Key) :
    addSimilars source similar key = foldE (addSimilar key) similar (listed source.kv key) := by
  rw [addSimilars, listed]
  cases kvstoreLookup source.kv key with
  | none => rfl
  | some value => rfl

/-- A feature is added to each segment that is listed for it, and to no segment twice. -/
theorem foldE_addSimilar {key : Key} {ids : List Int} (hnodup : ids.Nodup)
    (hfresh : ∀ id ∈ ids, key ∉ (similar.lookup id).getD []) :
    ∃ similar', foldE (addSimilar key) similar ids = .ok similar' ∧
      ∀ id, similar'.lookup id =
        if id ∈ ids then some ((similar.lookup id).getD [] ++ [key]) else similar.lookup id := by
  induction ids generalizing similar with
  | nil => exact ⟨similar, rfl, fun id => (if_neg List.not_mem_nil).symm⟩
  | cons i ids ih =>
      obtain ⟨hi, hrest⟩ := List.nodup_cons.mp hnodup
      obtain ⟨hkey, hfresh⟩ := List.forall_mem_cons.mp hfresh
      have hfresh' : ∀ id ∈ ids,
          key ∉ ((similar.insert i ((similar.lookup i).getD [] ++ [key])).lookup id).getD [] := by
        intro id hid
        rw [AList.lookup_insert_ne (ne_of_mem_of_not_mem hid hi)]
        exact hfresh id hid
      obtain ⟨similar', hok, hlookup⟩ := ih hrest hfresh'
      refine ⟨similar', bind_ok_iff.mpr ⟨_, bind_ok_iff.mpr ⟨(), require_of hkey, rfl⟩, hok⟩,
        fun id => ?_⟩
      rw [hlookup]
      by_cases hid : id = i
      · rw [hid, if_neg hi, if_pos List.mem_cons_self, AList.lookup_insert]
      · simp only [AList.lookup_insert_ne hid, List.mem_cons, hid, false_or]

/-- The assertion that a feature is not counted twice holds throughout the collection. -/
theorem collected_foldE (hkv : KvEntries source.kv) {features : List Key}
    (hnodup : features.Nodup) :
    ∃ similar, foldE (addSimilars source) ∅ features = .ok similar ∧
      Collected source.kv features similar := by
  induction features using List.reverseRec with
  | nil =>
      refine ⟨∅, rfl, fun id fs => ?_⟩
      rw [AList.lookup_empty]
      constructor
      · exact fun h => absurd h (Option.some_ne_none fs).symm
      · exact fun h => absurd h.1 h.2
  | append_singleton features key ih =>
      obtain ⟨hinit, -, hdisjoint⟩ := List.nodup_append.mp hnodup
      obtain ⟨similar, hok, hcollected⟩ := ih hinit
      have hshared : ∀ id, (similar.lookup id).getD [] = sharedFeatures source.kv features id := by
        intro id
        cases hlookup : similar.lookup id with
        | none =>
            by_contra hne
            have hsome := (hcollected id _).mpr ⟨rfl, fun hnil => hne hnil.symm⟩
            rw [hlookup] at hsome
            exact absurd hsome (Option.some_ne_none _).symm
        | some fs => exact ((hcollected id fs).mp hlookup).1
      have hfresh : ∀ id ∈ listed source.kv key, key ∉ (similar.lookup id).getD [] := by
        intro id _ hmem
        rw [hshared] at hmem
        exact hdisjoint key (mem_sharedFeatures.mp hmem).1 key (List.mem_singleton.mpr rfl) rfl
      obtain ⟨similar', hok', hlookup⟩ := foldE_addSimilar (nodup_listed hkv key) hfresh
      refine ⟨similar', ?_, fun id fs => ?_⟩
      · rw [foldE_append, hok]
        refine bind_ok_iff.mpr ⟨similar, rfl, bind_ok_iff.mpr ⟨similar', ?_, rfl⟩⟩
        exact (addSimilars_eq key).trans hok'
      · rw [hlookup, sharedFeatures, List.filter_append, ← sharedFeatures]
        split
        · rename_i hid
          have hkeep : [key].filter (fun key => id ∈ listed source.kv key) = [key] :=
            List.filter_eq_self.mpr fun k hk =>
              decide_eq_true ((List.mem_singleton.mp hk).symm ▸ hid)
          rw [hshared, hkeep, Option.some_inj]
          constructor
          · rintro rfl
            exact ⟨rfl, List.append_ne_nil_of_right_ne_nil _ (List.cons_ne_nil _ _)⟩
          · exact fun h => h.1.symm
        · rename_i hid
          have hdrop : [key].filter (fun key => id ∈ listed source.kv key) = [] :=
            List.filter_eq_nil_iff.mpr fun k hk hlisted =>
              hid (List.mem_singleton.mp hk ▸ of_decide_eq_true hlisted)
          rw [hdrop, List.append_nil]
          exact hcollected id fs

end Collecting

section Selecting

variable {source : IndexSource} {kv : KvStore} {features : List Key} {chosen : List Int}

def selectedTops : Nat → List SimilarSegment → List Int
  | 0, _ => []
  | _ + 1, [] => []
  | n + 1, top :: rest =>
      top.id :: selectedTops n (sort segmentSortsAfter (rest.map (featuresTrim top)))

theorem selectTop_eq (cfg : Config) (source : IndexSource) (n : Nat) (seq : List SimilarSegment)
    (cache : LruCache CacheUnit) :
    selectTop cfg source n seq cache =
      foldE (fingerprintCachePrefetch cfg source) cache (selectedTops n seq) := by
  induction n generalizing seq cache with
  | zero => rw [selectTop, selectedTops, foldE]
  | succ n ih =>
      cases seq with
      | nil => rw [selectTop, selectedTops, foldE]
      | cons top rest =>
          rw [selectTop, selectedTops, foldE]
          exact bind_congr fun cache => ih _ cache

theorem length_selectedTops {n : Nat} {seq : List SimilarSegment} (h : n ≤ seq.length) :
    (selectedTops n seq).length = n := by
  induction n generalizing seq with
  | zero => rw [selectedTops, List.length_nil]
  | succ n ih =>
      cases seq with
      | nil => exact absurd h (Nat.not_succ_le_zero n)
      | cons top rest =>
          rw [selectedTops, List.length_cons, ih]
          rw [(sort_perm _ _).length_eq, List.length_map]
          exact Nat.le_of_succ_le_succ h

/-- The sequence holds the candidates that are not chosen, each with the features it still has, in
the order of the comparator. -/
structure Remaining (kv : KvStore) (features : List Key) (chosen : List Int)
    (seq : List SimilarSegment) : Prop where
  nodup : (seq.map SimilarSegment.id).Nodup
  mem_iff : ∀ id, id ∈ seq.map SimilarSegment.id ↔
    id ∈ candidateSegments kv features ∧ id ∉ chosen
  left : ∀ s ∈ seq, s.features = uncovered kv features chosen s.id
  sorted : seq.Pairwise fun a b => segmentSortsAfter a b = false

theorem segmentSortsAfter_iff {a b : SimilarSegment} :
    segmentSortsAfter a b = true ↔ a.features.length < b.features.length ∨
      a.features.length = b.features.length ∧ a.id < b.id := by
  rw [segmentSortsAfter]
  split
  · rw [decide_eq_true_iff]
    omega
  · rw [decide_eq_true_iff]
    omega

theorem sort_segments_pairwise (l : List SimilarSegment) :
    (sort segmentSortsAfter l).Pairwise fun a b => segmentSortsAfter a b = false := by
  apply sort_pairwise
  · intro a b c hab hbc
    rw [Bool.eq_false_iff, Ne, segmentSortsAfter_iff] at hab hbc ⊢
    omega
  · intro a _ b _ hab
    rw [Bool.eq_false_iff, Ne, segmentSortsAfter_iff]
    rw [segmentSortsAfter_iff] at hab
    omega
  · exact fun a _ b _ h => h

/-- The candidates in any order, sorted: nothing is chosen yet. -/
theorem remaining_sort {similar : IdMap (List Key)} (h : Collected kv features similar)
    {entries : List ((_ : Int) × List Key)} (hperm : entries.Perm similar.entries) :
    Remaining kv features [] (sort segmentSortsAfter
      (entries.map fun e => { id := e.1, features := e.2 })) := by
  have hids : ((sort segmentSortsAfter (entries.map fun e =>
      ({ id := e.1, features := e.2 } : SimilarSegment))).map SimilarSegment.id).Perm
        similar.keys := by
    apply ((sort_perm _ _).map _).trans
    rw [List.map_map]
    exact hperm.map _
  constructor
  · exact hids.nodup_iff.mpr similar.nodupKeys
  · intro id
    rw [hids.mem_iff, mem_candidateSegments, and_iff_left List.not_mem_nil]
    constructor
    · intro hmem
      obtain ⟨fs, hfs⟩ := Option.isSome_iff_exists.mp (AList.lookup_isSome.mpr hmem)
      obtain ⟨rfl, hne⟩ := (h id fs).mp hfs
      exact hne
    · intro hne
      apply AList.lookup_isSome.mp
      rw [(h id _).mpr ⟨rfl, hne⟩]
      rfl
  · intro s hs
    obtain ⟨e, he, rfl⟩ := List.mem_map.mp ((mem_sort _).mp hs)
    have hlookup : similar.lookup e.1 = some e.2 :=
      AList.mem_lookup_iff.mpr (hperm.mem_iff.mp he)
    rw [((h e.1 e.2).mp hlookup).1, uncovered, List.filter_eq_self.mpr]
    intro key _
    exact decide_eq_true fun c hc => absurd hc List.not_mem_nil
  · exact sort_segments_pairwise _

variable {top : SimilarSegment} {rest : List SimilarSegment}

/-- The first segment of the sequence is the best one. -/
theorem Remaining.best (h : Remaining kv features chosen (top :: rest)) :
    Best (· ∈ candidateSegments kv features) (CoversMore kv features) chosen top.id := by
  obtain ⟨hmem, hfresh⟩ := (h.mem_iff top.id).mp List.mem_cons_self
  refine ⟨hmem, hfresh, fun b hb hbfresh hne => ?_⟩
  obtain ⟨s, hs, rfl⟩ := List.mem_map.mp ((h.mem_iff b).mpr ⟨hb, hbfresh⟩)
  rcases List.mem_cons.mp hs with rfl | hrest
  · exact absurd rfl hne
  · have hbefore := (List.pairwise_cons.mp h.sorted).1 s hrest
    rw [Bool.eq_false_iff, Ne, segmentSortsAfter_iff, h.left top List.mem_cons_self,
      h.left s hs] at hbefore
    rw [CoversMore]
    omega

/-- Trimming by a chosen segment leaves what neither it nor the earlier ones cover. -/
theorem filter_uncovered (id : Int) :
    (uncovered kv features chosen id).filter
        (fun key => key ∉ uncovered kv features chosen top.id) =
      uncovered kv features (chosen ++ [top.id]) id := by
  rw [uncovered, uncovered, uncovered, List.filter_filter]
  apply List.filter_congr
  intro key hkey
  have hfeature := (mem_sharedFeatures.mp hkey).1
  rw [← Bool.decide_and, decide_eq_decide, List.mem_filter, mem_sharedFeatures,
    decide_eq_true_iff, List.forall_mem_append, List.forall_mem_singleton]
  tauto

theorem Remaining.choose (h : Remaining kv features chosen (top :: rest)) :
    Remaining kv features (chosen ++ [top.id])
      (sort segmentSortsAfter (rest.map (featuresTrim top))) := by
  obtain ⟨htop, hnodup⟩ := List.nodup_cons.mp h.nodup
  have hids : ((sort segmentSortsAfter (rest.map (featuresTrim top))).map SimilarSegment.id).Perm
      (rest.map SimilarSegment.id) := by
    refine ((sort_perm _ _).map _).trans (List.Perm.of_eq ?_)
    rw [List.map_map]
    rfl
  constructor
  · exact hids.nodup_iff.mpr hnodup
  · intro id
    have hiff := h.mem_iff id
    rw [List.map_cons, List.mem_cons] at hiff
    rw [hids.mem_iff, List.mem_append, List.mem_singleton, not_or, ← and_assoc, ← hiff]
    constructor
    · exact fun hid => ⟨.inr hid, ne_of_mem_of_not_mem hid htop⟩
    · exact fun hid => hid.1.resolve_left hid.2
  · intro s hs
    obtain ⟨s', hs', rfl⟩ := List.mem_map.mp ((mem_sort _).mp hs)
    rw [featuresTrim, h.left top List.mem_cons_self, h.left s' (List.mem_cons_of_mem top hs')]
    exact filter_uncovered s'.id
  · exact sort_segments_pairwise _

theorem Remaining.greedy {seq : List SimilarSegment} (h : Remaining kv features chosen seq)
    (n : Nat) : GreedyChoice (· ∈ candidateSegments kv features) (CoversMore kv features) chosen
      (selectedTops n seq) := by
  induction n generalizing seq chosen with
  | zero =>
      rw [selectedTops]
      exact .done chosen
  | succ n ih =>
      cases seq with
      | nil => exact .done chosen
      | cons top rest =>
          rw [selectedTops]
          exact .choose h.best (ih h.choose)

theorem Remaining.length_eq {seq : List SimilarSegment} (h : Remaining kv features [] seq) :
    seq.length = (candidateSegments kv features).length := by
  have hperm : (seq.map SimilarSegment.id).Perm (candidateSegments kv features) := by
    apply (List.perm_ext_iff_of_nodup h.nodup (List.nodup_dedup _)).mpr
    intro id
    rw [h.mem_iff, and_iff_left List.not_mem_nil]
    rfl
  rw [← hperm.length_eq, List.length_map]

end Selecting

section Claim

/-- The second half of `top_segment_select`, over the candidates as the hash table delivers them. -/
def selectCandidates (cfg : Config) (source : IndexSource) (cache : LruCache CacheUnit)
    (entries : List ((_ : Int) × List Key)) : Except Abort (LruCache CacheUnit) :=
  let seq := sort segmentSortsAfter (entries.map fun e => { id := e.1, features := e.2 })
  selectTop cfg source (min seq.length cfg.segmentSelectionNum) seq cache

/-- `top_segment_select` collects the candidates and selects among them. -/
theorem topSegmentSelect_eq {cfg : Config} {source : IndexSource} {cache : LruCache CacheUnit}
    {features : List Key} {similar : IdMap (List Key)}
    (h : foldE (addSimilars source) ∅ features = .ok similar) :
    topSegmentSelect cfg source cache features =
      selectCandidates cfg source cache similar.entries := by
  rw [topSegmentSelect, h]
  rfl

/-- The segments prefetched are the greedy choice of at most `k` candidates: each shares the most
features that the ones before it do not cover, of two such the one with the larger id. They are the
same in every order of the features and of the candidates, and no feature is counted twice. -/
theorem top_segments_greedy (cfg : Config) (source : IndexSource) (cache : LruCache CacheUnit)
    (features : List Key) (hkv : KvEntries source.kv) (hnodup : features.Nodup) :
    ∃ ids : List Int,
      ids.length = min cfg.segmentSelectionNum (candidateSegments source.kv features).length ∧
      (∀ (i : Nat) (hi : i < ids.length), Best (· ∈ candidateSegments source.kv features)
        (CoversMore source.kv features) (ids.take i) ids[i]) ∧
      ∀ features', features'.Perm features →
        topSegmentSelect cfg source cache features' =
          foldE (fingerprintCachePrefetch cfg source) cache ids ∧
        ∃ similar, foldE (addSimilars source) ∅ features' = .ok similar ∧
          ∀ entries, entries.Perm similar.entries →
            selectCandidates cfg source cache entries =
              foldE (fingerprintCachePrefetch cfg source) cache ids := by
  obtain ⟨similar₀, -, hcollected₀⟩ := collected_foldE hkv hnodup
  have hremaining₀ := remaining_sort hcollected₀ (List.Perm.refl _)
  have hlength₀ := hremaining₀.length_eq
  have hgreedy₀ := hremaining₀.greedy
    (min cfg.segmentSelectionNum (candidateSegments source.kv features).length)
  have hids₀ := length_selectedTops
    ((Nat.min_le_right cfg.segmentSelectionNum _).trans_eq hlength₀.symm)
  refine ⟨_, hids₀, fun i hi => hgreedy₀.best_getElem i hi, fun features' hperm => ?_⟩
  obtain ⟨similar, hok, hcollected⟩ := collected_foldE hkv (hperm.nodup_iff.mpr hnodup)
  -- a greedy choice is determined by its length, so the order of delivery plays no part
  have hselect : ∀ entries, entries.Perm similar.entries →
      selectCandidates cfg source cache entries =
        foldE (fingerprintCachePrefetch cfg source) cache (selectedTops
          (min cfg.segmentSelectionNum (candidateSegments source.kv features).length)
          (sort segmentSortsAfter
            (similar₀.entries.map fun e => { id := e.1, features := e.2 }))) := by
    intro entries hentries
    have hremaining := remaining_sort hcollected hentries
    have hcount : (candidateSegments source.kv features').length =
        (candidateSegments source.kv features).length :=
      ((List.perm_ext_iff_of_nodup (List.nodup_dedup _) (List.nodup_dedup _)).mpr
        fun id => mem_candidateSegments_perm hperm).length_eq
    have hlength := hremaining.length_eq.trans hcount
    have hgreedy := (hremaining.greedy
      (min cfg.segmentSelectionNum (candidateSegments source.kv features).length)).congr
        (fun id => mem_candidateSegments_perm hperm) fun _ _ _ => coversMore_perm hperm
    have hids := length_selectedTops
      ((Nat.min_le_right cfg.segmentSelectionNum _).trans_eq hlength.symm)
    rw [selectCandidates, selectTop_eq, hlength, Nat.min_comm,
      hgreedy.unique (fun _ _ _ h => h.asymm) hgreedy₀ (hids.trans hids₀.symm)]
  refine ⟨?_, similar, hok, hselect⟩
  rw [topSegmentSelect_eq hok]
  exact hselect similar.entries (List.Perm.refl _)

/-- Two segments that share two of the three features each; one of them is chosen. -/
theorem top_segments_greedy_two_segments :
    let a : Key := List.replicate 20 1
    let b : Key := List.replicate 20 2
    let c : Key := List.replicate 20 3
    let kv : KvStore := ((AList.insert a [7] ∅).insert b [7, 9]).insert c [9, temporaryId]
    ∃ ids : List Int, ids.length = 1 ∧ ∀ (i : Nat) (hi : i < ids.length),
      Best (· ∈ candidateSegments kv [a, b, c]) (CoversMore kv [a, b, c]) (ids.take i) ids[i] := by
  intro a b c kv
  have hkv : KvEntries kv := by
    intro key value hlookup
    by_cases hc : key = c
    · rw [hc, AList.lookup_insert] at hlookup
      cases hlookup
      exact ⟨[9], 1, rfl, by decide, by decide⟩
    · rw [AList.lookup_insert_ne hc] at hlookup
      by_cases hb : key = b
      · rw [hb, AList.lookup_insert] at hlookup
        cases hlookup
        exact ⟨[7, 9], 0, rfl, by decide, by decide⟩
      · rw [AList.lookup_insert_ne hb] at hlookup
        by_cases ha : key = a
        · rw [ha, AList.lookup_insert] at hlookup
          cases hlookup
          exact ⟨[7], 0, rfl, by decide, by decide⟩
        · rw [AList.lookup_insert_ne ha, AList.lookup_empty] at hlookup
          exact absurd hlookup (Option.some_ne_none value).symm
  obtain ⟨ids, hlength, hbest, -⟩ := top_segments_greedy (smallConfig .nearExact .logical)
    ⟨⟨∅, 0⟩, [], createBackupVersion 0, kv⟩ (.newLruCache 1) [a, b, c] hkv (by decide)
  exact ⟨ids, hlength.trans (by decide), hbest⟩

end Claim

end Destor
