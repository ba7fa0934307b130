/- digest: The walk of a deletion over the units that go: what it leaves of each entry, and when it
   does not fail. -/

import Destor.Index.ListedUnits
import Destor.StoreInvariant

set_option autoImplicit false
set_option relaxedAutoImplicit false

namespace Destor

open Library.Outcome

namespace CacheUnit

def fps : CacheUnit → List Fingerprint
  | containerMeta cm => cm.map.keys
  | segmentRecipe sr => sr.kvpairs.keys

theorem mem_fps {u : CacheUnit} {fp : Fingerprint} : fp ∈ u.fps ↔ u.holds fp = true := by
  cases u with
  | containerMeta cm => exact AList.mem_keys.symm.trans AList.lookup_isSome.symm
  | segmentRecipe sr => exact AList.mem_keys.symm.trans AList.lookup_isSome.symm

def HasKey (cfg : Config) (u : CacheUnit) (k : Key) : Prop := ∃ fp ∈ u.fps, cfg.key fp = k

instance (cfg : Config) (u : CacheUnit) (k : Key) : Decidable (u.HasKey cfg k) :=
  inferInstanceAs (Decidable (∃ fp ∈ u.fps, _))

end CacheUnit

def deleteWalk (cfg : Config) (kv : KvStore) (units : List CacheUnit) : Except Abort KvStore :=
  foldE (fun kv u => deleteEntries cfg kv u.fps u.id) kv units

def Reaches (cfg : Config) (units : List CacheUnit) (k : Key) (id : Int) : Prop :=
  ∃ u ∈ units, u.id = id ∧ u.HasKey cfg k

instance (cfg : Config) (units : List CacheUnit) (k : Key) (id : Int) :
    Decidable (Reaches cfg units k id) :=
  inferInstanceAs (Decidable (∃ u ∈ units, _))

/-- The units that go stand at the end of an entry, the first one of the walk as the last. -/
def GoFromEnd (gone ids : List Int) : Prop :=
  ∃ kept, ids = kept ++ (gone.filter (· ∈ ids)).reverse

section Walk

variable {cfg : Config} {unit : Int → Prop} {kv kv' : KvStore} {k : Key} {id : Int}
  {fps : List Fingerprint} {units : List CacheUnit}

theorem deleteEntries_listed (h : KvShape cfg unit kv) (hassigned : ∀ i, unit i → i ≠ temporaryId)
    (hid : id ≠ temporaryId) (hok : deleteEntries cfg kv fps id = .ok kv') :
    KvShape cfg unit kv' ∧ ∀ k, listedIds kv' k =
      (listedIds kv k).filter fun i => decide ¬ (id = i ∧ ∃ fp ∈ fps, cfg.key fp = k) := by
  induction fps generalizing kv with
  | nil =>
      cases hok
      refine ⟨h, fun k => (List.filter_eq_self.mpr fun i _ => decide_eq_true ?_).symm⟩
      rintro ⟨-, fp, hfp, -⟩
      exact List.not_mem_nil hfp
  | cons fp fps ih =>
      obtain ⟨kv₁, hkv₁, hrest⟩ := bind_ok_iff.mp hok
      obtain ⟨hshape, hlisted⟩ := ih (h.indexDelete hassigned hkv₁) hrest
      refine ⟨hshape, fun k => ?_⟩
      rw [hlisted, listedIds_indexDelete h hassigned hid hkv₁]
      by_cases hk : k = cfg.key fp
      · rw [if_pos hk, List.filter_filter]
        apply List.filter_congr
        intro i _
        rw [← Bool.decide_and, decide_eq_decide, List.exists_mem_cons_iff]
        constructor
        · rintro ⟨-, hne⟩ ⟨heq, -⟩
          exact hne heq.symm
        · intro hnot
          refine ⟨?_, fun heq => hnot ⟨heq.symm, Or.inl hk.symm⟩⟩
          rintro ⟨heq, hrest⟩
          exact hnot ⟨heq, Or.inr hrest⟩
      · rw [if_neg hk]
        apply List.filter_congr
        intro i _
        rw [decide_eq_decide, List.exists_mem_cons_iff, or_iff_right (Ne.symm hk)]

theorem reaches_cons {u : CacheUnit} :
    Reaches cfg (u :: units) k id ↔ (u.id = id ∧ u.HasKey cfg k) ∨ Reaches cfg units k id :=
  List.exists_mem_cons_iff _ _ _

/-- The walk takes out of each entry the units it comes to the entry with. -/
theorem deleteWalk_listed (h : KvShape cfg unit kv) (hassigned : ∀ i, unit i → i ≠ temporaryId)
    (hids : ∀ u ∈ units, u.id ≠ temporaryId) (hok : deleteWalk cfg kv units = .ok kv') :
    KvShape cfg unit kv' ∧ ∀ k, listedIds kv' k =
      (listedIds kv k).filter fun i => decide ¬ Reaches cfg units k i := by
  induction units generalizing kv with
  | nil =>
      cases hok
      refine ⟨h, fun k => (List.filter_eq_self.mpr fun i _ => decide_eq_true ?_).symm⟩
      rintro ⟨u, hu, -⟩
      exact List.not_mem_nil hu
  | cons u units ih =>
      obtain ⟨hu, hunits⟩ := List.forall_mem_cons.mp hids
      obtain ⟨kv₁, hkv₁, hrest⟩ := bind_ok_iff.mp hok
      obtain ⟨hshape₁, hlisted₁⟩ := deleteEntries_listed h hassigned hu hkv₁
      obtain ⟨hshape, hlisted⟩ := ih hshape₁ hunits hrest
      refine ⟨hshape, fun k => ?_⟩
      rw [hlisted, hlisted₁, List.filter_filter]
      apply List.filter_congr
      intro i _
      rw [← Bool.decide_and, decide_eq_decide, reaches_cons, not_or]
      exact and_comm

/-- The deletion of one unit does not fail where every entry that the walk comes to lists it last. -/
theorem deleteEntries_ok (h : KvShape cfg unit kv) (hassigned : ∀ i, unit i → i ≠ temporaryId)
    (hid : id ≠ temporaryId)
    (hlast : ∀ k, id ∈ listedIds kv k → ∃ init, listedIds kv k = init ++ [id])
    (fps : List Fingerprint) : ∃ kv', deleteEntries cfg kv fps id = .ok kv' := by
  induction fps generalizing kv with
  | nil => exact ⟨kv, rfl⟩
  | cons fp fps ih =>
      obtain ⟨kv₁, hkv₁⟩ := indexDelete_ok h hassigned hid (hlast (cfg.key fp))
      have hlast₁ : ∀ k, id ∈ listedIds kv₁ k → ∃ init, listedIds kv₁ k = init ++ [id] := by
        intro k hmem
        rw [listedIds_indexDelete h hassigned hid hkv₁] at hmem ⊢
        split at hmem
        · exact absurd rfl (of_decide_eq_true (List.mem_filter.mp hmem).2)
        · rename_i hk
          rw [if_neg hk]
          exact hlast k hmem
      obtain ⟨kv', hkv'⟩ := ih (h.indexDelete hassigned hkv₁) hlast₁
      exact ⟨kv', bind_ok_iff.mpr ⟨kv₁, hkv₁, hkv'⟩⟩

private theorem GoFromEnd.last {gone ids : List Int} (h : GoFromEnd (id :: gone) ids)
    (hid : id ∈ ids) : ∃ init, ids = init ++ [id] := by
  obtain ⟨kept, hkept⟩ := h
  rw [List.filter_cons, if_pos (decide_eq_true hid), List.reverse_cons, ← List.append_assoc] at hkept
  exact ⟨_, hkept⟩

private theorem GoFromEnd.tail {gone ids : List Int} (h : GoFromEnd (id :: gone) ids)
    (hnodup : (id :: gone).Nodup) (hdistinct : ids.Nodup) :
    GoFromEnd gone (ids.filter (· ≠ id)) := by
  obtain ⟨hnew, hgone⟩ := List.nodup_cons.mp hnodup
  obtain ⟨kept, hkept⟩ := h
  have hmem : ∀ i ∈ gone, i ∈ ids.filter (· ≠ id) ↔ i ∈ ids := by
    intro i hi
    rw [List.mem_filter, decide_eq_true_eq]
    exact and_iff_left (ne_of_mem_of_not_mem hi hnew)
  have hfilter : gone.filter (· ∈ ids.filter (· ≠ id)) = gone.filter (· ∈ ids) :=
    List.filter_congr fun i hi => decide_eq_decide.mpr (hmem i hi)
  refine ⟨kept, ?_⟩
  rw [hfilter]
  by_cases hid : id ∈ ids
  · rw [List.filter_cons, if_pos (decide_eq_true hid), List.reverse_cons, ← List.append_assoc]
      at hkept
    generalize kept ++ (gone.filter (· ∈ ids)).reverse = init at hkept ⊢
    subst hkept
    have hlast := (List.nodup_append.mp hdistinct).2.2
    rw [List.filter_append, List.filter_eq_self.mpr fun a ha =>
      decide_eq_true (hlast a ha id (List.mem_singleton.mpr rfl)), List.filter_eq_nil_iff.mpr,
      List.append_nil]
    intro a ha
    rw [List.mem_singleton.mp ha]
    exact fun h => absurd rfl (of_decide_eq_true h)
  · rw [List.filter_cons, if_neg (fun h => hid (of_decide_eq_true h))] at hkept
    rw [List.filter_eq_self.mpr fun a ha => decide_eq_true (ne_of_mem_of_not_mem ha hid)]
    exact hkept

/-- The walk does not fail where it comes to every entry of a unit that goes, and these stand at the end
of each entry. -/
theorem deleteWalk_ok (h : KvShape cfg unit kv) (hassigned : ∀ i, unit i → i ≠ temporaryId)
    (hids : ∀ u ∈ units, u.id ≠ temporaryId) (hnodup : (units.map CacheUnit.id).Nodup)
    (hreach : ∀ k i, i ∈ listedIds kv k → i ∈ units.map CacheUnit.id → Reaches cfg units k i)
    (hend : ∀ k, GoFromEnd (units.map CacheUnit.id) (listedIds kv k)) :
    ∃ kv', deleteWalk cfg kv units = .ok kv' := by
  induction units generalizing kv with
  | nil => exact ⟨kv, rfl⟩
  | cons u units ih =>
      obtain ⟨hu, hunits⟩ := List.forall_mem_cons.mp hids
      obtain ⟨hnew, hrest⟩ := List.nodup_cons.mp hnodup
      obtain ⟨kv₁, hkv₁⟩ := deleteEntries_ok h hassigned hu
        (fun k hmem => (hend k).last hmem) u.fps
      obtain ⟨hshape₁, hlisted₁⟩ := deleteEntries_listed h hassigned hu hkv₁
      -- the first unit is in no entry any more, and the others stay where they are
      have hfilter : ∀ k, listedIds kv₁ k = (listedIds kv k).filter (· ≠ u.id) := by
        intro k
        rw [hlisted₁]
        apply List.filter_congr
        intro i hi
        rw [decide_eq_decide]
        constructor
        · rintro hnot rfl
          obtain ⟨u', hu', hid, hfp⟩ := hreach k u.id hi List.mem_cons_self
          rcases List.mem_cons.mp hu' with rfl | hu'
          · exact hnot ⟨rfl, hfp⟩
          · exact hnew (List.mem_map.mpr ⟨u', hu', hid⟩)
        · exact fun hne heq => hne heq.1.symm
      have hreach₁ : ∀ k i, i ∈ listedIds kv₁ k → i ∈ units.map CacheUnit.id → Reaches cfg units k i := by
        intro k i hi hmem
        rw [hfilter] at hi
        obtain ⟨hi, hne⟩ := List.mem_filter.mp hi
        obtain ⟨u', hu', rfl, hfp⟩ := hreach k i hi (List.mem_cons_of_mem _ hmem)
        rcases List.mem_cons.mp hu' with rfl | hu'
        · exact absurd rfl (of_decide_eq_true hne)
        · exact ⟨u', hu', rfl, hfp⟩
      have hend₁ : ∀ k, GoFromEnd (units.map CacheUnit.id) (listedIds kv₁ k) := by
        intro k
        rw [hfilter]
        exact (hend k).tail hnodup ((h.decreasing hassigned k).imp fun h => Int.ne_of_gt h)
      obtain ⟨kv', hkv'⟩ := ih hshape₁ hunits hrest hreach₁ hend₁
      exact ⟨kv', bind_ok_iff.mpr ⟨kv₁, hkv₁, hkv'⟩⟩

end Walk

section Containers

variable {cfg : Config} {pool : ContainerPool} {kv : KvStore} {ids : List Int}

def containerUnits (pool : ContainerPool) (ids : List Int) : List CacheUnit :=
  ids.filterMap fun id =>
    (pool.containers.lookup id).map fun c => .containerMeta c.toContainerMeta

theorem mem_containerUnits {u : CacheUnit} :
    u ∈ containerUnits pool ids ↔ ∃ id ∈ ids, ∃ c, pool.containers.lookup id = some c ∧
      .containerMeta c.toContainerMeta = u := by
  rw [containerUnits, List.mem_filterMap]
  exact exists_congr fun id => and_congr_right fun _ => Option.map_eq_some_iff

theorem containerUnits_ids (hwf : pool.WellFormed)
    (hfound : ∀ id ∈ ids, ∃ c, pool.containers.lookup id = some c) :
    (containerUnits pool ids).map CacheUnit.id = ids := by
  induction ids with
  | nil => rfl
  | cons id ids ih =>
      obtain ⟨⟨c, hc⟩, hrest⟩ := List.forall_mem_cons.mp hfound
      rw [containerUnits, List.filterMap_cons, hc]
      exact congrArg₂ List.cons (hwf.id_eq id c hc) (ih hrest)

/-- `do_delete` under physical locality walks over the reclaimed containers. -/
theorem deleteContainers_eq (hwf : pool.WellFormed)
    (hfound : ∀ id ∈ ids, ∃ c, pool.containers.lookup id = some c) :
    deleteContainers cfg pool kv ids = deleteWalk cfg kv (containerUnits pool ids) := by
  induction ids generalizing kv with
  | nil => rfl
  | cons id ids ih =>
      obtain ⟨⟨c, hc⟩, hrest⟩ := List.forall_mem_cons.mp hfound
      have hunits : containerUnits pool (id :: ids) =
          .containerMeta c.toContainerMeta :: containerUnits pool ids := by
        rw [containerUnits, List.filterMap_cons, hc]
        rfl
      have hstep : (retrieveContainerMetaById pool id >>= fun cm =>
          deleteEntries cfg kv cm.map.keys id) = deleteEntries cfg kv
            (CacheUnit.containerMeta c.toContainerMeta).fps
            (CacheUnit.containerMeta c.toContainerMeta).id := by
        rw [retrieveContainerMetaById_of_holds hc]
        exact congrArg (deleteEntries cfg kv _) (hwf.id_eq id c hc).symm
      rw [hunits, deleteContainers, foldE, hstep, deleteWalk, foldE]
      exact congrArg _ (funext fun kv₁ => ih hrest)

end Containers

section Segments

variable {cfg : Config} {kv : KvStore} {bvNum off : Nat} {segments : List (List ChunkPointer)}

def recipeUnits (bvNum : Nat) (segments : List (List ChunkPointer)) : List CacheUnit :=
  (segmentRecipes bvNum 0 segments).map .segmentRecipe

theorem length_le_encodeSegments (segments : List (List ChunkPointer)) :
    segments.length ≤ (encodeSegments segments).length := by
  induction segments with
  | nil => exact Nat.le_refl 0
  | cons pointers segments ih =>
      rw [encodeSegments_cons, List.length_append, length_encodeSegment, List.length_cons]
      omega

theorem exists_firstSegment (bvNum off : Nat) {pointers : List ChunkPointer}
    (hids : ∀ cp ∈ pointers, temporaryId < cp.id) (rest : List ChunkPointer) :
    ∃ sr, readNextSegment bvNum off (encodeSegment pointers ++ rest) = .ok (some (sr, rest)) ∧
      ∀ segments, segmentRecipes bvNum off (pointers :: segments) =
        sr :: segmentRecipes bvNum (off + (encodeSegment pointers).length) segments :=
  ⟨_, readNextSegment_encode hids rest, fun _ => rfl⟩

theorem deleteSegments_eq {fuel : Nat} (hfuel : segments.length ≤ fuel)
    (hids : ∀ pointers ∈ segments, ∀ cp ∈ pointers, temporaryId < cp.id) :
    deleteSegments cfg bvNum fuel off (encodeSegments segments) kv =
      deleteWalk cfg kv ((segmentRecipes bvNum off segments).map .segmentRecipe) := by
  induction segments generalizing fuel off kv with
  | nil => cases fuel <;> rfl
  | cons pointers segments ih =>
      obtain ⟨hhead, htail⟩ := List.forall_mem_cons.mp hids
      obtain ⟨fuel, rfl⟩ : ∃ n, fuel = n + 1 := ⟨fuel - 1, by
        rw [List.length_cons] at hfuel
        omega⟩
      obtain ⟨sr, hread, hrecipes⟩ :=
        exists_firstSegment bvNum off hhead (encodeSegments segments)
      have hoff : off + ((encodeSegment pointers ++ encodeSegments segments).length -
          (encodeSegments segments).length) = off + (encodeSegment pointers).length := by
        rw [List.length_append, Nat.add_sub_cancel]
      rw [encodeSegments_cons, deleteSegments, hread, hrecipes, List.map_cons, deleteWalk, foldE]
      change (deleteEntries cfg kv sr.kvpairs.keys sr.id >>= fun kv₁ => deleteSegments cfg bvNum fuel
        (off + ((encodeSegment pointers ++ encodeSegments segments).length -
          (encodeSegments segments).length)) (encodeSegments segments) kv₁) = _
      rw [hoff]
      exact congrArg _ (funext fun kv₁ => ih (Nat.le_of_succ_le_succ hfuel) htail)

theorem mem_recipeUnits {u : CacheUnit} :
    u ∈ recipeUnits bvNum segments ↔
      ∃ sr ∈ segmentRecipes bvNum 0 segments, .segmentRecipe sr = u :=
  List.mem_map

end Segments

section SegmentOrder

variable {cfg : Config} {sc : Scope} {sound : Int → Fingerprint → Prop} {oldest bvNum : Nat}
  {pool : ContainerPool} {versions : List BackupVersion} {segments : List (List ChunkPointer)}
  {u u' : CacheUnit}

theorem RecipeFits.ascending (h : RecipeFits bvNum segments) :
    ((recipeUnits bvNum segments).map CacheUnit.id).Pairwise (· < ·) := by
  have main : ∀ rest before, before ++ rest = segments →
      (segmentRecipes bvNum (encodeSegments before).length rest).Pairwise (·.id < ·.id) := by
    intro rest
    induction rest with
    | nil => exact fun _ _ => List.Pairwise.nil
    | cons pointers rest ih =>
        intro before hsplit
        have hnext : (before ++ [pointers]) ++ rest = segments := by
          rw [List.append_assoc]
          exact hsplit
        have hlength : (encodeSegments (before ++ [pointers])).length =
            (encodeSegments before).length + (encodeSegment pointers).length := by
          rw [encodeSegments_append, encodeSegments_cons, encodeSegments_nil, List.append_nil,
            List.length_append]
        have hrest := ih (before ++ [pointers]) hnext
        rw [hlength] at hrest
        rw [segmentRecipes]
        refine List.Pairwise.cons (fun sr hsr => ?_) hrest
        obtain ⟨before', pointers', after, rfl, hof⟩ := mem_segmentRecipes.mp hsr
        have hfits : RecipeFits bvNum (before ++ pointers :: (before' ++ pointers' :: after)) :=
          hsplit ▸ h
        have hfits' : RecipeFits bvNum ((before ++ pointers :: before') ++ pointers' :: after) := by
          rw [List.append_assoc]
          exact hfits
        have hoff : chunkPointerSize * ((encodeSegments before).length +
            (encodeSegment pointers).length + (encodeSegments before').length) =
              segmentOffset (before ++ pointers :: before') := by
          rw [segmentOffset, encodeSegments_append, encodeSegments_cons, List.length_append,
            List.length_append, Nat.add_assoc]
        rw [hof.id_eq, hoff]
        exact makeSegmentId_lt hfits.segmentId hfits'.segmentId
          (Or.inr ⟨rfl, segmentOffset_lt rfl⟩)
  rw [recipeUnits, List.map_map, List.pairwise_map]
  exact main segments [] rfl

theorem Scope.StoreUnit.version {sr : SegmentRecipe}
    (hversions : VersionsInv cfg oldest sound versions)
    (h : sc.StoreUnit cfg pool versions (.segmentRecipe sr)) :
    ∃ b segments, b ∈ versions ∧ sc.oldest ≤ b.bvNum ∧ b.recipe = encodeSegments segments ∧
      RecipeFits b.bvNum segments ∧ .segmentRecipe sr ∈ recipeUnits b.bvNum segments := by
  obtain ⟨hloc, b, hb, hle, segments, hrecipe, hsr⟩ := h
  obtain ⟨segments', hrecipe', -, hfits⟩ := hversions.recipe b hb
  obtain rfl := encodeSegments_injective (hrecipe'.symm.trans hrecipe)
  exact ⟨b, segments', hb, hle, hrecipe, hfits hloc, mem_recipeUnits.mpr ⟨sr, hsr, rfl⟩⟩

theorem idToBnum_recipeUnits {n : Nat} {segments : List (List ChunkPointer)} {u : CacheUnit}
    (h : RecipeFits n segments) (hu : u ∈ recipeUnits n segments) : idToBnum u.id = n := by
  obtain ⟨sr, hsr, rfl⟩ := mem_recipeUnits.mp hu
  obtain ⟨before, pointers, after, rfl, hof⟩ := mem_segmentRecipes.mp hsr
  rw [Nat.zero_add] at hof
  exact (congrArg idToBnum hof.id_eq).trans (idToBnum_makeSegmentId h.segmentId)

/-- A segment of an older version has a smaller id. -/
theorem recipeUnits_lt {bvNum' : Nat} {segments' : List (List ChunkPointer)}
    (h : RecipeFits bvNum segments) (h' : RecipeFits bvNum' segments') (hlt : bvNum < bvNum')
    (hu : u ∈ recipeUnits bvNum segments) (hu' : u' ∈ recipeUnits bvNum' segments') :
    u.id < u'.id := by
  obtain ⟨sr, hsr, rfl⟩ := mem_recipeUnits.mp hu
  obtain ⟨sr', hsr', rfl⟩ := mem_recipeUnits.mp hu'
  obtain ⟨before, pointers, after, rfl, hof⟩ := mem_segmentRecipes.mp hsr
  obtain ⟨before', pointers', after', rfl, hof'⟩ := mem_segmentRecipes.mp hsr'
  rw [Nat.zero_add] at hof hof'
  show sr.id < sr'.id
  rw [hof.id_eq, hof'.id_eq]
  exact makeSegmentId_lt h.segmentId h'.segmentId (Or.inl hlt)

/-- Versions with one number are the same. -/
theorem VersionsInv.eq_of_num (h : VersionsInv cfg oldest sound versions) {b b' : BackupVersion}
    (hb : b ∈ versions) (hb' : b' ∈ versions) (hnum : b.bvNum = b'.bvNum) : b = b' := by
  obtain ⟨i, hi⟩ := List.mem_iff_getElem?.mp hb
  obtain ⟨j, hj⟩ := List.mem_iff_getElem?.mp hb'
  have hij : i = j := (h.num i b hi).symm.trans (hnum.trans (h.num j b' hj))
  subst hij
  exact Option.some.inj (hi.symm.trans hj)

theorem Scope.StoreUnit.eq_of_id (hversions : VersionsInv cfg oldest sound versions)
    (h : sc.StoreUnit cfg pool versions u) (h' : sc.StoreUnit cfg pool versions u')
    (hid : u.id = u'.id) : u = u' := by
  cases u with
  | containerMeta cm =>
      cases u' with
      | containerMeta cm' =>
          obtain ⟨-, -, c, hc, rfl⟩ := h
          obtain ⟨-, -, c', hc', rfl⟩ := h'
          have hid : c.toContainerMeta.id = c'.toContainerMeta.id := hid
          rw [hid] at hc
          rw [Option.some.inj (hc.symm.trans hc')]
      | segmentRecipe sr => exact absurd (h.1.symm.trans h'.1) Locality.noConfusion
  | segmentRecipe sr =>
      cases u' with
      | containerMeta cm' => exact absurd (h.1.symm.trans h'.1) Locality.noConfusion
      | segmentRecipe sr' =>
          obtain ⟨b, segments, hb, -, hrecipe, hfits, hsr⟩ := h.version hversions
          obtain ⟨b', segments', hb', -, hrecipe', hfits', hsr'⟩ := h'.version hversions
          rcases Nat.lt_trichotomy b.bvNum b'.bvNum with hlt | heq | hlt
          · exact absurd hid (Int.ne_of_lt (recipeUnits_lt hfits hfits' hlt hsr hsr'))
          · obtain rfl := hversions.eq_of_num hb hb' heq
            obtain rfl := encodeSegments_injective (hrecipe.symm.trans hrecipe')
            have hnodup := hfits.ascending.imp fun h => Int.ne_of_lt h
            exact List.inj_on_of_nodup_map hnodup hsr hsr' hid
          · exact absurd hid (Int.ne_of_gt (recipeUnits_lt hfits' hfits hlt hsr' hsr))

end SegmentOrder

/-- `do_delete`. The reclaimed containers are visited in the order in which their table is iterated,
here `order`. -/
def doDeleteIn (order : List Int → List Int) (cfg : Config) (store : Store) (jobid : Nat) :
    Except Abort Store := do
  let (invalid, manifest, _) ← truncManifest id store.manifest jobid
  let bv ← openBackupVersion store.backups jobid
  let kv ← deleteUnits cfg store bv (order invalid)
  return { store with htable := kv, manifest := some manifest }

/-- The containers that the manifest marks with `jobid` or an earlier backup. -/
def expiredContainers (file : Option (List Char)) (jobid : Int) : List Int :=
  ((readManifest (file.getD [])).filter (·.time ≤ jobid)).map ManifestRecord.id

theorem mem_expiredContainers {file : Option (List Char)} {jobid c : Int} :
    c ∈ expiredContainers file jobid ↔
      ∃ t, { id := c, time := t } ∈ readManifest (file.getD []) ∧ t ≤ jobid := by
  rw [expiredContainers, List.mem_map]
  constructor
  · rintro ⟨r, hr, rfl⟩
    obtain ⟨hmem, hle⟩ := List.mem_filter.mp hr
    exact ⟨r.time, hmem, of_decide_eq_true hle⟩
  · rintro ⟨t, hmem, hle⟩
    exact ⟨_, List.mem_filter.mpr ⟨hmem, decide_eq_true hle⟩, rfl⟩

theorem DistinctIds.expired {file : Option (List Char)}
    (h : DistinctIds (readManifest (file.getD []))) (jobid : Int) :
    (expiredContainers file jobid).Nodup := h.filter _

end Destor
