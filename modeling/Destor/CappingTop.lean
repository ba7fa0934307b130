/- digest: What capping keeps: in each buffer the containers with the most bytes, and no more of them
   than its level. -/

import Destor.Library.RelatedLists
import Destor.RewriteMarks
import Mathlib.Data.List.Dedup

set_option autoImplicit false
set_option relaxedAutoImplicit false

namespace Destor

open Library.Outcome Library.RelatedLists Library.SortedSeq

section Track

variable {n : Nat} {queue : List Chunk} {seq seq' : List ContainerRecord} {c : Chunk}
  {r : ContainerRecord} {cid : Int}

structure RecordsTrack (queue : List Chunk) (seq : List ContainerRecord) : Prop where
  size : ∀ r ∈ seq, r.size = toInt32 (bytesIn r.cid queue)
  held : ∀ r ∈ seq, ∃ c ∈ queue, c.Known ∧ c.id = r.cid
  nodup : (seq.map ContainerRecord.cid).Nodup
  /-- Ids that a comparison takes for each other are the same. -/
  apart : ∀ c ∈ queue, ∀ c' ∈ queue, c.Known → c'.Known → toInt32 (c.id - c'.id) = 0 → c.id = c'.id
  duplicate : ∀ c ∈ queue, c.Known → c.flag.duplicate = true

def RecordsFind (queue : List Chunk) (seq : List ContainerRecord) : Prop :=
  ∀ c ∈ queue, c.Known → ∃ r ∈ seq, r.cid = c.id

private theorem toInt32_sub_eq_zero {a b : Int} (h : toInt32 (a - b) = 0) : toInt32 (b - a) = 0 := by
  unfold toInt32 at h ⊢
  rw [← Int.dvd_iff_bmod_eq_zero] at h ⊢
  rw [← Int.neg_sub]
  exact Int.dvd_neg.mpr h

private theorem matchesRecord_eq : matchesRecord cid r = (toInt32 (r.cid - cid) == 0) := rfl

private theorem RecordsTrack.matches_iff (h : RecordsTrack queue seq) (hc : c ∈ queue)
    (hknown : c.Known) : ∀ r ∈ seq, matchesRecord c.id r = true ↔ r.cid = c.id := by
  intro r hr
  obtain ⟨d, hd, hdknown, hid⟩ := h.held r hr
  rw [matchesRecord_eq, beq_iff_eq, ← hid]
  constructor
  · exact h.apart d hd c hc hdknown hknown
  · intro heq
    rw [heq, Int.sub_self]
    decide

private theorem lookupRecord_mem (h : lookupRecord seq cid = some r) :
    r ∈ seq ∧ matchesRecord cid r = true :=
  ⟨List.mem_of_find?_eq_some h, List.find?_some h⟩

private theorem RecordsTrack.lookup_eq (h : RecordsTrack queue seq) (hc : c ∈ queue) (hknown : c.Known)
    (hr : r ∈ seq) (hcid : r.cid = c.id) : lookupRecord seq c.id = some r := by
  have hmatch := h.matches_iff hc hknown
  cases hlookup : lookupRecord seq c.id with
  | none => exact absurd ((hmatch r hr).mpr hcid) (List.find?_eq_none.mp hlookup r hr)
  | some r' =>
      obtain ⟨hr', hfound⟩ := lookupRecord_mem hlookup
      have hcid' := (hmatch r' hr').mp hfound
      exact congrArg some (List.inj_on_of_nodup_map h.nodup hr' hr (hcid'.trans hcid.symm))

private theorem bytesIn_snoc : bytesIn cid (queue ++ [c]) =
    bytesIn cid queue + if c.isSignal = false ∧ c.id ≠ temporaryId ∧ c.id = cid then c.size else 0 := by
  rw [bytesIn_append, bytesIn_cons, bytesIn_nil, Nat.add_zero]

private theorem bytesIn_eq_zero (h : ∀ c ∈ queue, c.Known → c.id ≠ cid) : bytesIn cid queue = 0 := by
  apply Nat.eq_zero_of_not_pos
  intro hpos
  obtain ⟨c, hc, hsignal, hid, hcid⟩ := exists_of_bytesIn_pos hpos
  exact h c hc ⟨hsignal, hid⟩ hcid

private theorem RecordsTrack.snoc_unknown (h : RecordsTrack queue seq) (hfind : RecordsFind queue seq)
    (hc : ¬ c.Known) : RecordsTrack (queue ++ [c]) seq ∧ RecordsFind (queue ++ [c]) seq := by
  have hmem : ∀ d ∈ queue ++ [c], d.Known → d ∈ queue := by
    intro d hd hknown
    rcases List.mem_append.mp hd with hd | hd
    · exact hd
    · exact absurd (List.mem_singleton.mp hd ▸ hknown) hc
  refine ⟨
    { size := fun r hr => ?_
      held := fun r hr => ?_
      nodup := h.nodup
      apart := fun d hd d' hd' hk hk' => h.apart d (hmem d hd hk) d' (hmem d' hd' hk') hk hk'
      duplicate := fun d hd hk => h.duplicate d (hmem d hd hk) hk },
    fun d hd hk => hfind d (hmem d hd hk) hk⟩
  · rw [bytesIn_snoc, if_neg fun hin => hc ⟨hin.1, hin.2.1⟩, Nat.add_zero]
    exact h.size r hr
  · obtain ⟨d, hd, hk, hid⟩ := h.held r hr
    exact ⟨d, List.mem_append_left _ hd, hk, hid⟩

private theorem RecordsTrack.snoc_new (h : RecordsTrack queue seq) (hfind : RecordsFind queue seq)
    (hknown : c.Known) (hdup : c.flag.duplicate = true) (hlookup : lookupRecord seq c.id = none)
    {outOfOrder : Bool} :
    let seq' := insertSorted recordAfter
      { cid := c.id, size := toInt32 c.size, outOfOrder := outOfOrder } seq
    RecordsTrack (queue ++ [c]) seq' ∧ RecordsFind (queue ++ [c]) seq' := by
  intro seq'
  have hmem : ∀ r, r ∈ seq' ↔ r = { cid := c.id, size := toInt32 c.size, outOfOrder := outOfOrder } ∨
      r ∈ seq := fun r => mem_insertSorted recordAfter
  -- A chunk whose id compares equal would have a record that the lookup stops at.
  have hnew : ∀ d ∈ queue, d.Known → toInt32 (d.id - c.id) ≠ 0 := by
    intro d hd hk hzero
    obtain ⟨r, hr, hcid⟩ := hfind d hd hk
    refine List.find?_eq_none.mp hlookup r hr ?_
    rw [matchesRecord_eq, hcid, hzero]
    rfl
  have hother : ∀ d ∈ queue, d.Known → d.id ≠ c.id := by
    intro d hd hk heq
    apply hnew d hd hk
    rw [heq, Int.sub_self]
    decide
  refine ⟨
    { size := fun r hr => ?_
      held := fun r hr => ?_
      nodup := ?_
      apart := fun d hd d' hd' hk hk' hzero => ?_
      duplicate := fun d hd hk => ?_ }, fun d hd hk => ?_⟩
  · rcases (hmem r).mp hr with rfl | hr
    · rw [bytesIn_snoc, if_pos ⟨hknown.1, hknown.2, rfl⟩, bytesIn_eq_zero hother, Nat.zero_add]
    · obtain ⟨d, hd, hk, hid⟩ := h.held r hr
      have hne : ¬ (c.isSignal = false ∧ c.id ≠ temporaryId ∧ c.id = r.cid) := fun hin =>
        hother d hd hk (hid.trans hin.2.2.symm)
      rw [bytesIn_snoc, if_neg hne, Nat.add_zero]
      exact h.size r hr
  · rcases (hmem r).mp hr with rfl | hr
    · exact ⟨c, List.mem_append_right _ (List.mem_singleton.mpr rfl), hknown, rfl⟩
    · obtain ⟨d, hd, hk, hid⟩ := h.held r hr
      exact ⟨d, List.mem_append_left _ hd, hk, hid⟩
  · apply (((insertSorted_perm recordAfter _ seq).map ContainerRecord.cid).nodup_iff).mpr
    refine List.nodup_cons.mpr ⟨fun hin => ?_, h.nodup⟩
    obtain ⟨r, hr, hcid⟩ := List.mem_map.mp hin
    obtain ⟨d, hd, hk, hid⟩ := h.held r hr
    exact hother d hd hk (hid.trans hcid)
  · rcases List.mem_append.mp hd with hd | hd <;> rcases List.mem_append.mp hd' with hd' | hd'
    · exact h.apart d hd d' hd' hk hk' hzero
    · rw [List.mem_singleton.mp hd'] at hzero
      exact absurd hzero (hnew d hd hk)
    · rw [List.mem_singleton.mp hd] at hzero
      exact absurd (toInt32_sub_eq_zero hzero) (hnew d' hd' hk')
    · rw [List.mem_singleton.mp hd, List.mem_singleton.mp hd']
  · rcases List.mem_append.mp hd with hd | hd
    · exact h.duplicate d hd hk
    · exact List.mem_singleton.mp hd ▸ hdup
  · rcases List.mem_append.mp hd with hd | hd
    · obtain ⟨r, hr, hcid⟩ := hfind d hd hk
      exact ⟨r, (hmem r).mpr (.inr hr), hcid⟩
    · exact ⟨_, (hmem _).mpr (.inl rfl), (List.mem_singleton.mp hd) ▸ rfl⟩

private theorem RecordsTrack.snoc_update (h : RecordsTrack queue seq) (hfind : RecordsFind queue seq)
    (hknown : c.Known) (hdup : c.flag.duplicate = true) (hr : r ∈ seq) (hcid : r.cid = c.id) :
    let seq' := updateRecord c.id (fun r => some { r with size := toInt32 (r.size + c.size) }) seq
    RecordsTrack (queue ++ [c]) seq' ∧ RecordsFind (queue ++ [c]) seq' := by
  intro seq'
  obtain ⟨e, he, hek, heid⟩ := h.held r hr
  have hsame : e.id = c.id := heid.trans hcid
  have hmatch : ∀ r ∈ seq, matchesRecord c.id r = true ↔ r.cid = c.id := hsame ▸ h.matches_iff he hek
  have hmem := fun r' => mem_updateRecord_of_nodup (r := r')
    (f := fun r => some { r with size := toInt32 (r.size + c.size) }) hmatch h.nodup
  have hapart : ∀ d ∈ queue, d.Known → toInt32 (d.id - c.id) = 0 → d.id = c.id := fun d hd hk =>
    hsame ▸ h.apart d hd e he hk hek
  refine ⟨
    { size := fun r' hr' => ?_
      held := fun r' hr' => ?_
      nodup := h.nodup.sublist (updateRecord_sublist ?_)
      apart := fun d hd d' hd' hk hk' hzero => ?_
      duplicate := fun d hd hk => ?_ }, fun d hd hk => ?_⟩
  · rw [bytesIn_snoc]
    rcases (hmem r').mp hr' with ⟨hr', hne⟩ | ⟨r₀, hr₀, hcid₀, heq⟩
    · rw [if_neg fun hin => hne hin.2.2.symm, Nat.add_zero]
      exact h.size r' hr'
    · cases heq
      rw [if_pos ⟨hknown.1, hknown.2, hcid₀.symm⟩]
      show toInt32 (r₀.size + c.size) = _
      rw [h.size r₀ hr₀]
      unfold toInt32
      rw [Int.bmod_add_bmod]
      push_cast
      rfl
  · rcases (hmem r').mp hr' with ⟨hr', _⟩ | ⟨r₀, hr₀, hcid₀, heq⟩
    · obtain ⟨d, hd, hk, hid⟩ := h.held r' hr'
      exact ⟨d, List.mem_append_left _ hd, hk, hid⟩
    · cases heq
      exact ⟨c, List.mem_append_right _ (List.mem_singleton.mpr rfl), hknown, hcid₀.symm⟩
  · intro r r' heq
    cases heq
    rfl
  · rcases List.mem_append.mp hd with hd | hd <;> rcases List.mem_append.mp hd' with hd' | hd'
    · exact h.apart d hd d' hd' hk hk' hzero
    · rw [List.mem_singleton.mp hd'] at hzero ⊢
      exact hapart d hd hk hzero
    · rw [List.mem_singleton.mp hd] at hzero ⊢
      exact (hapart d' hd' hk' (toInt32_sub_eq_zero hzero)).symm
    · rw [List.mem_singleton.mp hd, List.mem_singleton.mp hd']
  · rcases List.mem_append.mp hd with hd | hd
    · exact h.duplicate d hd hk
    · exact List.mem_singleton.mp hd ▸ hdup
  · have hold : ∃ r' ∈ seq, r'.cid = d.id := by
      rcases List.mem_append.mp hd with hd | hd
      · exact hfind d hd hk
      · exact ⟨r, hr, (List.mem_singleton.mp hd) ▸ hcid⟩
    obtain ⟨r', hr', hcid'⟩ := hold
    by_cases hid : r'.cid = c.id
    · exact ⟨_, (hmem _).mpr (.inr ⟨r', hr', hid, rfl⟩), hcid'⟩
    · exact ⟨r', (hmem r').mpr (.inl ⟨hr', hid⟩), hcid'⟩

/-- A push that succeeds keeps the records up to date. -/
theorem RecordsTrack.push (h : RecordsTrack queue seq) (hfind : RecordsFind queue seq)
    (hsignal : c.isSignal = false) (hpush : pushRecord seq c = .ok seq') :
    RecordsTrack (queue ++ [c]) seq' ∧ RecordsFind (queue ++ [c]) seq' := by
  unfold pushRecord at hpush
  split at hpush
  · rename_i hid
    cases hpush
    exact h.snoc_unknown hfind fun hknown => hknown.2 hid
  · rename_i hid
    obtain ⟨_, hdup, hpush⟩ := bind_ok_iff.mp hpush
    have hdup := require_ok_iff.mp hdup
    split at hpush
    · rename_i hlookup
      cases hpush
      exact h.snoc_new hfind ⟨hsignal, hid⟩ hdup hlookup
    · rename_i r hlookup
      obtain ⟨_, hcid, hpush⟩ := bind_ok_iff.mp hpush
      cases hpush
      exact h.snoc_update hfind ⟨hsignal, hid⟩ hdup (lookupRecord_mem hlookup).1
        (require_ok_iff.mp hcid)

end Track

section Popping

variable {σ : Type} {har : Option (IdMap Int)} {mark : Chunk → Except Abort Chunk} {b b' : RewriteBuffer}
  {c : Chunk} {c' : Option Chunk} {queue : List Chunk} {seq : List ContainerRecord}

def BytesBehind : List Chunk → Prop
  | [] => True
  | c :: queue => (c.Known → (∃ d ∈ queue, d.Known ∧ d.id = c.id) → 0 < bytesIn c.id queue) ∧
      BytesBehind queue

instance BytesBehind.decidable : DecidablePred BytesBehind
  | [] => .isTrue trivial
  | c :: queue =>
      have := BytesBehind.decidable queue
      inferInstanceAs (Decidable ((c.Known → (∃ d ∈ queue, d.Known ∧ d.id = c.id) →
        0 < bytesIn c.id queue) ∧ BytesBehind queue))

end Popping

section Buffers

variable {υ : Type} {cfg : Config} {s : RewriteSettings υ} {n : Nat} {b b' : RewriteBuffer} {c : Chunk}
  {full : Bool} {t t' : RewriteThread (IdMap ContainerRecord)}
  {mark : IdMap ContainerRecord → Chunk → Except Abort Chunk}

end Buffers

section Claim

variable {υ : Type} {cfg : Config} {s : RewriteSettings υ} {t t' : RewriteThread (IdMap ContainerRecord)}
  {mark : IdMap ContainerRecord → Chunk → Except Abort Chunk} {c c' : Chunk} {emitted : List Chunk}
  {level : Int}

def Chunk.knownDuplicate (c : Chunk) : Bool := !c.isSignal && c.flag.duplicate && c.id != temporaryId

private theorem knownDuplicate_onlyMarked (h : c.OnlyMarked c') :
    c'.knownDuplicate = c.knownDuplicate := by
  unfold Chunk.knownDuplicate
  rw [h.signal_eq, h.duplicate_eq, h.id_eq]

private def byLength (seq : List ContainerRecord) : List ContainerRecord :=
  sort (fun a b => decide (0 < gRecordDescmpByLength a b)) seq

/-- The records that enter the table: the first ones, as many as the level admits. -/
private def topRecords (level : Int) (seq : List ContainerRecord) : List ContainerRecord :=
  (byLength seq).take (min level seq.length).toNat

private theorem mem_byLength {r : ContainerRecord} {seq : List ContainerRecord} :
    r ∈ byLength seq ↔ r ∈ seq := mem_sort _

private structure JudgedByTop (level : Int) (seq : List ContainerRecord)
    (queue emitted : List Chunk) : Prop where
  partner : ∀ c' ∈ emitted, ∃ c ∈ queue, c.OnlyMarked c' ∧ (c.knownDuplicate = true →
    (c'.flag.outOfOrder = true ↔ ∀ r ∈ topRecords level seq, r.cid ≠ c.id))
  record : ∀ c ∈ queue, c.knownDuplicate = true → ∃ r ∈ seq, r.cid = c.id

private theorem JudgedByTop.kept {seq : List ContainerRecord} {queue : List Chunk} {d : Chunk}
    (h : JudgedByTop level seq queue emitted) (hd : d ∈ emitted) (hdup : d.knownDuplicate = true)
    (hfalse : d.flag.outOfOrder = false) : ∃ r ∈ topRecords level seq, r.cid = d.id := by
  obtain ⟨c, _, honly, hjudged⟩ := h.partner d hd
  rw [knownDuplicate_onlyMarked honly] at hdup
  rw [honly.id_eq]
  by_contra hnone
  have hout := (hjudged hdup).mpr fun r hr hcid => hnone ⟨r, hr, hcid⟩
  exact Bool.false_ne_true (hfalse.symm.trans hout)

private theorem JudgedByTop.dropped {seq : List ContainerRecord} {queue : List Chunk} {d : Chunk}
    (h : JudgedByTop level seq queue emitted) (hd : d ∈ emitted) (hdup : d.knownDuplicate = true)
    (htrue : d.flag.outOfOrder = true) :
    ∃ r ∈ (byLength seq).drop (min level seq.length).toNat, r.cid = d.id := by
  obtain ⟨c, hc, honly, hjudged⟩ := h.partner d hd
  rw [knownDuplicate_onlyMarked honly] at hdup
  obtain ⟨r, hr, hcid⟩ := h.record c hc hdup
  have hsplit : r ∈ topRecords level seq ++ (byLength seq).drop (min level seq.length).toNat := by
    rw [topRecords, List.take_append_drop]
    exact mem_byLength.mpr hr
  have hdrop := (List.mem_append.mp hsplit).resolve_left fun htake =>
    (hjudged hdup).mp htrue r htake hcid
  exact ⟨r, hdrop, hcid.trans honly.id_eq.symm⟩

private theorem JudgedByTop.all {seq : List ContainerRecord} {queue : List Chunk} {d : Chunk}
    (h : JudgedByTop level seq queue emitted) (hfew : (seq.length : Int) ≤ level)
    (hd : d ∈ emitted) (hdup : d.knownDuplicate = true) : d.flag.outOfOrder = false := by
  apply Bool.eq_false_of_not_eq_true
  intro htrue
  obtain ⟨r, hr, -⟩ := h.dropped hd hdup htrue
  have hlength : (byLength seq).length = seq.length := (sort_perm _ _).length_eq
  rw [List.drop_eq_nil_of_le (by omega)] at hr
  cases hr

end Claim

end Destor
