/- digest: The container-marker algorithm: marks, truncation, and what a history reclaims. -/

import Destor.RewriteMonitor
import Destor.Library.Decimal

set_option autoImplicit false
set_option relaxedAutoImplicit false

namespace Destor

open Library.Outcome Library.Decimal

structure ManifestRecord where
  id : Int
  time : Int
deriving DecidableEq, Repr

/-- `fprintf(fp, "%lld,%d\n", r->id, r->time)`. -/
def renderRecord (r : ManifestRecord) : List Char :=
  render r.id ++ ',' :: (render r.time ++ ['\n'])

/-- `fscanf(fp, "%lld,%d", &tmp.id, &tmp.time) == 2`. -/
def scanRecord (s : List Char) : Option (ManifestRecord × List Char) :=
  match scan s with
  | some (id, ',' :: s) => (scan s).map fun r => ({ id := id, time := r.1 }, r.2)
  | _ => none

/-- The reading loop of both functions; each record consumes input, so `fuel` beyond the length
of the text changes nothing. -/
def scanRecords : Nat → List Char → List ManifestRecord
  | 0, _ => []
  | fuel + 1, s =>
      match scanRecord s with
      | some (r, s) => r :: scanRecords fuel s
      | none => []

def readManifest (text : List Char) : List ManifestRecord := scanRecords text.length text

/-- The table that `update_manifest` builds from a manifest file. -/
def manifestTable (records : List ManifestRecord) : IdMap Int :=
  records.foldl (fun m r => m.insert r.id r.time) ∅

def tableRecords (m : IdMap Int) : List ManifestRecord :=
  m.entries.map fun e => { id := e.1, time := e.2 }

def renderManifest (records : List ManifestRecord) : List Char := records.flatMap renderRecord

/-- `update_manifest` in the backup `jobid`: the file it leaves and `live_container_num`. The hash
table delivers its records in an unspecified order, here `order`. -/
def updateManifest (order : List ManifestRecord → List ManifestRecord)
    (file : Option (List Char)) (monitor : List Int) (jobid : Int) : List Char × Nat :=
  let manifest := manifestTable (readManifest (file.getD []))
  let manifest := monitor.foldl (fun m id => m.insert id jobid) manifest
  (renderManifest (order (tableRecords manifest)), manifest.entries.length)

/-- `trunc_manifest`: the reclaimed containers, the file it leaves and `live_container_num`. -/
def truncManifest (order : List ManifestRecord → List ManifestRecord)
    (file : Option (List Char)) (jobid : Int) :
    Except Abort (List Int × List Char × Nat) :=
  match file with
  | none => .error .manifestMissing
  | some text =>
      let records := readManifest text
      let invalid := (records.filter (·.time ≤ jobid)).map ManifestRecord.id
      let manifest := manifestTable (records.filter (jobid < ·.time))
      .ok (invalid, renderManifest (order (tableRecords manifest)), manifest.entries.length)

section File

theorem scanRecord_render (r : ManifestRecord) (rest : List Char) :
    scanRecord (renderRecord r ++ rest) = some (r, '\n' :: rest) := by
  simp only [scanRecord, renderRecord, List.append_assoc, List.cons_append]
  rw [scan_render r.id (endsNumber_of_not_digit (by decide) _)]
  simp only [List.nil_append]
  rw [scan_render r.time (endsNumber_of_not_digit (by decide) _)]
  rfl

private theorem scanRecord_newline (s : List Char) : scanRecord ('\n' :: s) = scanRecord s := by
  simp only [scanRecord, scan_space (c := '\n') (by decide)]

theorem scanRecords_newline (fuel : Nat) (s : List Char) :
    scanRecords fuel ('\n' :: s) = scanRecords fuel s := by
  cases fuel with
  | zero => rfl
  | succ fuel => simp only [scanRecords, scanRecord_newline]

private theorem renderRecord_ne_nil (r : ManifestRecord) : 0 < (renderRecord r).length := by
  simp [renderRecord]

private theorem scanRecords_render (records : List ManifestRecord) (fuel : Nat)
    (hfuel : (renderManifest records).length ≤ fuel) :
    scanRecords fuel (renderManifest records) = records := by
  induction records generalizing fuel with
  | nil => cases fuel <;> rfl
  | cons r records ih =>
      have hpos := renderRecord_ne_nil r
      simp only [renderManifest, List.flatMap_cons, List.length_append] at hfuel ⊢
      obtain ⟨fuel, rfl⟩ : ∃ k, fuel = k + 1 := ⟨fuel - 1, by omega⟩
      rw [scanRecords, scanRecord_render]
      simp only [scanRecords_newline]
      congr 1
      exact ih fuel (by simp only [renderManifest]; omega)

/-- A manifest file gives back the records it was written from. -/
theorem readManifest_render (records : List ManifestRecord) :
    readManifest (renderManifest records) = records :=
  scanRecords_render records _ le_rfl

end File

section Tables

def DistinctIds (records : List ManifestRecord) : Prop :=
  (records.map ManifestRecord.id).Nodup

private theorem lookup_foldl_records (records : List ManifestRecord) (h : DistinctIds records)
    (m : IdMap Int) (id : Int) :
    (records.foldl (fun m r => m.insert r.id r.time) m).lookup id =
      ((records.find? (fun r => r.id == id)).map ManifestRecord.time).or (m.lookup id) := by
  induction records generalizing m with
  | nil => simp
  | cons r records ih =>
      obtain ⟨hr, hrest⟩ := List.nodup_cons.mp h
      rw [List.foldl_cons, ih hrest]
      by_cases hid : r.id = id
      · subst hid
        have hnone : records.find? (fun r' => r'.id == r.id) = none := by
          rw [List.find?_eq_none]
          intro r' hr' heq
          exact hr (List.mem_map.mpr ⟨r', hr', by simpa using heq⟩)
        simp [hnone]
      · rw [AList.lookup_insert_ne (Ne.symm hid)]
        simp [hid]

/-- The table built from distinct records has exactly these entries. -/
theorem lookup_manifestTable {records : List ManifestRecord} (h : DistinctIds records)
    (id time : Int) :
    (manifestTable records).lookup id = some time ↔ { id := id, time := time } ∈ records := by
  rw [manifestTable, lookup_foldl_records records h]
  simp only [AList.lookup_empty, Option.or_none, Option.map_eq_some_iff]
  constructor
  · rintro ⟨r, hr, rfl⟩
    have hid : r.id = id := by simpa using List.find?_some hr
    subst hid
    exact List.mem_of_find?_eq_some hr
  · intro hmem
    cases hfind : records.find? (fun r => r.id == id) with
    | none =>
        have := List.find?_eq_none.mp hfind _ hmem
        simp at this
    | some r =>
        have hid : r.id = id := by simpa using List.find?_some hfind
        have heq : r = { id := id, time := time } :=
          List.inj_on_of_nodup_map h (List.mem_of_find?_eq_some hfind) hmem (by simp [hid])
        exact ⟨r, rfl, by rw [heq]⟩

theorem mem_tableRecords {m : IdMap Int} {r : ManifestRecord} :
    r ∈ tableRecords m ↔ m.lookup r.id = some r.time := by
  rw [← Option.mem_def, AList.mem_lookup_iff, tableRecords, List.mem_map]
  constructor
  · rintro ⟨e, he, rfl⟩
    exact he
  · intro h
    exact ⟨⟨r.id, r.time⟩, h, rfl⟩

theorem distinctIds_tableRecords (m : IdMap Int) : DistinctIds (tableRecords m) := by
  have hkeys : m.entries.keys.Nodup := m.nodupKeys
  simpa [DistinctIds, tableRecords, List.map_map, Function.comp_def, List.keys] using hkeys

theorem DistinctIds.perm {records records' : List ManifestRecord} (h : DistinctIds records)
    (hperm : records'.Perm records) : DistinctIds records' :=
  (hperm.map ManifestRecord.id).nodup_iff.mpr h

theorem DistinctIds.filter {records : List ManifestRecord} (h : DistinctIds records)
    (p : ManifestRecord → Bool) : DistinctIds (records.filter p) :=
  List.Nodup.sublist (List.filter_sublist.map _) h

end Tables

section History

/-- A history of backups and truncations: the manifest and `live_container_num` as the code leaves
them, beside what the history consists of. `backups` lists the backups made so far, oldest first,
each with its job id and the containers it refers to; `returned` and `truncated` list the
containers reclaimed and the job ids truncated so far. -/
structure CmaHistory where
  file : Option (List Char)
  live : Nat
  backups : List (Int × List Int)
  returned : List Int
  truncated : List Int

def CmaHistory.init : CmaHistory :=
  { file := none, live := 0, backups := [], returned := [], truncated := [] }

/-- The utilization monitor after the chunks of a backup, given as container id and size. -/
def monitorChunks (chunks : List (Int × Nat)) : IdMap Int :=
  chunks.foldl (fun m c => harMonitorUpdate m c.1 c.2) ∅

def CmaHistory.backup (order : List ManifestRecord → List ManifestRecord) (s : CmaHistory)
    (jobid : Int) (chunks : List (Int × Nat)) : CmaHistory :=
  let r := updateManifest order s.file (monitorChunks chunks).keys jobid
  { s with file := some r.1, live := r.2, backups := s.backups ++ [(jobid, chunks.map Prod.fst)] }

def CmaHistory.truncate (s : CmaHistory) (jobid : Int) (r : List Int × List Char × Nat) :
    CmaHistory :=
  { s with
    file := some r.2.1
    live := r.2.2
    returned := s.returned ++ r.1
    truncated := s.truncated ++ [jobid] }

def Referenced (backups : List (Int × List Int)) (c : Int) : Prop :=
  ∃ b ∈ backups, c ∈ b.2

/-- The histories of the system: job ids of backups increase, as do those of truncations, and a
backup refers to new containers or to ones still in the manifest. -/
inductive CmaReachable (order : List ManifestRecord → List ManifestRecord) : CmaHistory → Prop
  | init : CmaReachable order CmaHistory.init
  | backup {s : CmaHistory} {jobid : Int} {chunks : List (Int × Nat)} (hs : CmaReachable order s)
      (hjob : ∀ b ∈ s.backups, b.1 < jobid)
      (hrefs : ∀ c ∈ chunks.map Prod.fst, ¬ Referenced s.backups c ∨
        ∃ r ∈ readManifest (s.file.getD []), r.id = c) :
      CmaReachable order (s.backup order jobid chunks)
  | truncate {s : CmaHistory} {jobid : Int} {r : List Int × List Char × Nat}
      (hs : CmaReachable order s) (hjob : ∀ j ∈ s.truncated, j < jobid)
      (hr : truncManifest order s.file jobid = .ok r) : CmaReachable order (s.truncate jobid r)

structure LastReference (backups : List (Int × List Int)) (c time : Int) : Prop where
  refers : ∃ b ∈ backups, b.1 = time ∧ c ∈ b.2
  latest : ∀ b ∈ backups, c ∈ b.2 → b.1 ≤ time

theorem LastReference.unique {backups : List (Int × List Int)} {c t t' : Int}
    (h : LastReference backups c t) (h' : LastReference backups c t') : t = t' := by
  obtain ⟨b, hb, rfl, hc⟩ := h.refers
  obtain ⟨b', hb', rfl, hc'⟩ := h'.refers
  exact le_antisymm (h'.latest b hb hc) (h.latest b' hb' hc')

theorem LastReference.referenced {backups : List (Int × List Int)} {c t : Int}
    (h : LastReference backups c t) : Referenced backups c := by
  obtain ⟨b, hb, -, hc⟩ := h.refers
  exact ⟨b, hb, hc⟩

theorem exists_lastReference {backups : List (Int × List Int)} {c : Int}
    (h : Referenced backups c) : ∃ t, LastReference backups c t := by
  induction backups with
  | nil =>
      obtain ⟨b, hb, -⟩ := h
      exact absurd hb List.not_mem_nil
  | cons b backups ih =>
      by_cases hrest : Referenced backups c
      · obtain ⟨t, ⟨b', hb', ht, hcb'⟩, hlatest⟩ := ih hrest
        by_cases hcb : c ∈ b.2 ∧ t < b.1
        · refine ⟨b.1, ⟨b, List.mem_cons_self, rfl, hcb.1⟩, fun b'' hb'' hcb'' => ?_⟩
          rcases List.mem_cons.mp hb'' with rfl | hb''
          · exact le_rfl
          · exact (hlatest b'' hb'' hcb'').trans hcb.2.le
        · refine ⟨t, ⟨b', List.mem_cons_of_mem _ hb', ht, hcb'⟩, fun b'' hb'' hcb'' => ?_⟩
          rcases List.mem_cons.mp hb'' with rfl | hb''
          · exact not_lt.mp fun hlt => hcb ⟨hcb'', hlt⟩
          · exact hlatest b'' hb'' hcb''
      · obtain ⟨b', hb', hcb'⟩ := h
        rcases List.mem_cons.mp hb' with rfl | hb'
        · refine ⟨b'.1, ⟨b', List.mem_cons_self, rfl, hcb'⟩, fun b'' hb'' hcb'' => ?_⟩
          rcases List.mem_cons.mp hb'' with rfl | hb''
          · exact le_rfl
          · exact absurd ⟨b'', hb'', hcb''⟩ hrest
        · exact absurd ⟨b', hb', hcb'⟩ hrest

theorem lastReference_append {backups : List (Int × List Int)} {jobid : Int} {refs : List Int}
    (hjob : ∀ b ∈ backups, b.1 < jobid) (c t : Int) :
    LastReference (backups ++ [(jobid, refs)]) c t ↔
      if c ∈ refs then t = jobid else LastReference backups c t := by
  split
  · rename_i hc
    constructor
    · intro h
      refine h.unique ⟨⟨(jobid, refs), by simp, rfl, hc⟩, fun b hb hcb => ?_⟩
      rcases List.mem_append.mp hb with hb | hb
      · exact (hjob b hb).le
      · rw [List.mem_singleton.mp hb]
    · rintro rfl
      refine ⟨⟨(t, refs), by simp, rfl, hc⟩, fun b hb hcb => ?_⟩
      rcases List.mem_append.mp hb with hb | hb
      · exact (hjob b hb).le
      · rw [List.mem_singleton.mp hb]
  · rename_i hc
    constructor
    · rintro ⟨⟨b, hb, rfl, hcb⟩, hlatest⟩
      rcases List.mem_append.mp hb with hb | hb
      · exact ⟨⟨b, hb, rfl, hcb⟩, fun b' hb' => hlatest b' (List.mem_append_left _ hb')⟩
      · rw [List.mem_singleton.mp hb] at hcb
        exact absurd hcb hc
    · rintro ⟨⟨b, hb, rfl, hcb⟩, hlatest⟩
      refine ⟨⟨b, List.mem_append_left _ hb, rfl, hcb⟩, fun b' hb' hcb' => ?_⟩
      rcases List.mem_append.mp hb' with hb' | hb'
      · exact hlatest b' hb' hcb'
      · rw [List.mem_singleton.mp hb'] at hcb'
        exact absurd hcb' hc

/-- The manifest against the history: it lists the containers that some backup refers to and that
were not reclaimed, each once and with the last backup that refers to it. -/
structure ManifestInv (s : CmaHistory) : Prop where
  distinct : DistinctIds (readManifest (s.file.getD []))
  mem_iff : ∀ c t, { id := c, time := t } ∈ readManifest (s.file.getD []) ↔
    c ∉ s.returned ∧ LastReference s.backups c t
  returned_referenced : ∀ c ∈ s.returned, Referenced s.backups c
  live_eq : s.live = (readManifest (s.file.getD [])).length
  file_isSome : s.file.isSome ↔ s.backups ≠ []

variable {order : List ManifestRecord → List ManifestRecord}

theorem mem_keys_monitorChunks {chunks : List (Int × Nat)} {c : Int} :
    c ∈ (monitorChunks chunks).keys ↔ c ∈ chunks.map Prod.fst := by
  have main : ∀ (chunks : List (Int × Nat)) (m : IdMap Int),
      c ∈ chunks.foldl (fun m c => harMonitorUpdate m c.1 c.2) m ↔
        c ∈ chunks.map Prod.fst ∨ c ∈ m := by
    intro chunks
    induction chunks with
    | nil => simp
    | cons a chunks ih =>
        intro m
        rw [List.foldl_cons, ih, mem_harMonitorUpdate, List.map_cons, List.mem_cons]
        tauto
  rw [← AList.mem_keys, monitorChunks, main]
  simp

private theorem lookup_foldl_insert_const (ids : List Int) (m : IdMap Int) (time c : Int) :
    (ids.foldl (fun m id => m.insert id time) m).lookup c =
      if c ∈ ids then some time else m.lookup c := by
  induction ids generalizing m with
  | nil => simp
  | cons id ids ih =>
      rw [List.foldl_cons, ih]
      by_cases hc : c = id
      · subst hc
        simp
      · simp [hc, AList.lookup_insert_ne hc]

private theorem flushed (horder : ∀ l, (order l).Perm l) (m : IdMap Int) :
    DistinctIds (readManifest (renderManifest (order (tableRecords m)))) ∧
      (∀ r, r ∈ readManifest (renderManifest (order (tableRecords m))) ↔
        m.lookup r.id = some r.time) ∧
      m.entries.length = (readManifest (renderManifest (order (tableRecords m)))).length := by
  rw [readManifest_render]
  refine ⟨(distinctIds_tableRecords m).perm (horder _), fun r => ?_, ?_⟩
  · rw [(horder _).mem_iff, mem_tableRecords]
  · rw [(horder _).length_eq, tableRecords, List.length_map]

variable (order) in
/-- The records after an update: the containers of the backup are marked with its job. -/
theorem mem_readManifest_update (horder : ∀ l, (order l).Perm l) {file : Option (List Char)}
    (h : DistinctIds (readManifest (file.getD []))) (monitor : List Int) (jobid : Int) :
    DistinctIds (readManifest (updateManifest order file monitor jobid).1) ∧
      ∀ c t, { id := c, time := t } ∈ readManifest (updateManifest order file monitor jobid).1 ↔
        if c ∈ monitor then t = jobid else { id := c, time := t } ∈ readManifest (file.getD []) := by
  obtain ⟨hdistinct, hmem, -⟩ := flushed horder
    (monitor.foldl (fun m id => m.insert id jobid) (manifestTable (readManifest (file.getD []))))
  refine ⟨hdistinct, fun c t => (hmem _).trans ?_⟩
  rw [lookup_foldl_insert_const]
  split
  · rw [Option.some.injEq, eq_comm]
  · exact lookup_manifestTable h c t

variable (order) in
/-- The records that a truncation leaves: those with a later mark. -/
theorem mem_readManifest_trunc (horder : ∀ l, (order l).Perm l) {records : List ManifestRecord}
    (h : DistinctIds records) (jobid : Int) :
    DistinctIds (readManifest (renderManifest (order (tableRecords
        (manifestTable (records.filter (jobid < ·.time))))))) ∧
      ∀ c t, { id := c, time := t } ∈ readManifest (renderManifest (order (tableRecords
          (manifestTable (records.filter (jobid < ·.time)))))) ↔
        { id := c, time := t } ∈ records ∧ jobid < t := by
  obtain ⟨hdistinct, hmem, -⟩ := flushed horder
    (manifestTable (records.filter fun r => decide (jobid < r.time)))
  refine ⟨hdistinct, fun c t => (hmem _).trans ?_⟩
  rw [lookup_manifestTable (h.filter _), List.mem_filter, decide_eq_true_eq]

theorem ManifestInv.backup (horder : ∀ l, (order l).Perm l) {s : CmaHistory}
    (h : ManifestInv s) {jobid : Int} {chunks : List (Int × Nat)}
    (hjob : ∀ b ∈ s.backups, b.1 < jobid)
    (hrefs : ∀ c ∈ chunks.map Prod.fst, ¬ Referenced s.backups c ∨
      ∃ r ∈ readManifest (s.file.getD []), r.id = c) :
    ManifestInv (s.backup order jobid chunks) := by
  obtain ⟨-, -, hlen⟩ := flushed horder
    ((monitorChunks chunks).keys.foldl (fun m id => m.insert id jobid)
      (manifestTable (readManifest (s.file.getD []))))
  obtain ⟨hdistinct, hmem⟩ :=
    mem_readManifest_update order horder h.distinct (monitorChunks chunks).keys jobid
  refine ⟨hdistinct, fun c t => ?_, fun c hc => ?_, hlen, ?_⟩
  · apply (hmem c t).trans
    simp only [CmaHistory.backup]
    rw [lastReference_append hjob]
    simp only [mem_keys_monitorChunks]
    by_cases hc : c ∈ chunks.map Prod.fst
    · have hnot : c ∉ s.returned := fun hret => by
        rcases hrefs c hc with hnew | ⟨r, hr, rfl⟩
        · exact hnew (h.returned_referenced c hret)
        · exact ((h.mem_iff r.id r.time).mp hr).1 hret
      simp only [hc, if_true, hnot, not_false_iff, true_and]
    · simp only [hc, if_false]
      rw [h.mem_iff]
  · obtain ⟨b, hb, hcb⟩ := h.returned_referenced c hc
    exact ⟨b, List.mem_append_left _ hb, hcb⟩
  · simp [CmaHistory.backup]

/-- What a truncation returns: exactly the unreclaimed containers last referred to by `jobid` or
an earlier backup; and what it leaves in the manifest. -/
theorem ManifestInv.truncManifest (horder : ∀ l, (order l).Perm l) {s : CmaHistory}
    (h : ManifestInv s) (jobid : Int) :
    Ensures (fun _ => s.backups = [])
      (fun r => (∀ c, c ∈ r.1 ↔ c ∉ s.returned ∧ ∃ t, LastReference s.backups c t ∧ t ≤ jobid) ∧
        ManifestInv (s.truncate jobid r))
      (truncManifest order s.file jobid) := by
  cases hfile : s.file with
  | none =>
      change s.backups = []
      by_contra hne
      simpa [hfile] using h.file_isSome.mpr hne
  | some text =>
      obtain ⟨hdistinct, hmem, hreturned, hlive, hsome⟩ := h
      simp only [hfile, Option.getD_some] at hdistinct hmem hlive
      obtain ⟨-, -, hlen'⟩ := flushed horder
        (manifestTable ((readManifest text).filter fun r => decide (jobid < r.time)))
      obtain ⟨hdistinct', hmem'⟩ := mem_readManifest_trunc order horder hdistinct jobid
      have hinvalid : ∀ c, c ∈ ((readManifest text).filter
          fun r => decide (r.time ≤ jobid)).map ManifestRecord.id ↔
            c ∉ s.returned ∧ ∃ t, LastReference s.backups c t ∧ t ≤ jobid := by
        intro c
        simp only [List.mem_map, List.mem_filter, decide_eq_true_eq]
        constructor
        · rintro ⟨r, ⟨hr, hle⟩, rfl⟩
          obtain ⟨hret, hlast⟩ := (hmem r.id r.time).mp hr
          exact ⟨hret, r.time, hlast, hle⟩
        · rintro ⟨hret, t, hlast, hle⟩
          exact ⟨⟨c, t⟩, ⟨(hmem c t).mpr ⟨hret, hlast⟩, hle⟩, rfl⟩
      refine ⟨hinvalid, ⟨hdistinct', fun c t => ?_, fun c hc => ?_, hlen', ?_⟩⟩
      · apply (hmem' c t).trans
        simp only [CmaHistory.truncate]
        rw [hmem, List.mem_append, hinvalid]
        constructor
        · rintro ⟨⟨hret, hlast⟩, hlt⟩
          refine ⟨?_, hlast⟩
          rintro (hc | ⟨-, t', hlast', hle⟩)
          · exact hret hc
          · exact absurd (hlast.unique hlast') (by omega)
        · rintro ⟨hnot, hlast⟩
          have hret : c ∉ s.returned := fun hc => hnot (Or.inl hc)
          refine ⟨⟨hret, hlast⟩, ?_⟩
          by_contra hle
          exact hnot (Or.inr ⟨hret, t, hlast, by omega⟩)
      · rcases List.mem_append.mp hc with hc | hc
        · exact hreturned c hc
        · obtain ⟨-, t, hlast, -⟩ := (hinvalid c).mp hc
          exact hlast.referenced
      · simpa [CmaHistory.truncate, hfile] using hsome

theorem CmaReachable.manifestInv (horder : ∀ l, (order l).Perm l) {s : CmaHistory}
    (hs : CmaReachable order s) : ManifestInv s := by
  induction hs with
  | init =>
      refine ⟨List.nodup_nil, fun c t => ?_, by simp [CmaHistory.init], rfl, by
        simp [CmaHistory.init]⟩
      constructor
      · exact fun h => absurd h List.not_mem_nil
      · rintro ⟨-, ⟨b, hb, -⟩, -⟩
        exact absurd hb List.not_mem_nil
  | backup _ hjob hrefs ih => exact ih.backup horder hjob hrefs
  | truncate _ _ hr ih => exact ((ih.truncManifest horder _).of_ok hr).2

/-- In every history, a truncation reclaims exactly the containers that no later backup needs: it
fails only before the first backup, returns no container referred to by a backup after `jobid`,
returns every other container not returned before, and leaves the rest in the manifest, each with
its last backup and all of them counted. -/
theorem truncManifest_reclaims (order : List ManifestRecord → List ManifestRecord)
    (horder : ∀ l, (order l).Perm l) {s : CmaHistory} (hs : CmaReachable order s) (jobid : Int) :
    Ensures (fun _ => s.backups = [])
      (fun r =>
        (∀ c ∈ r.1, ∀ b ∈ s.backups, c ∈ b.2 → b.1 ≤ jobid) ∧
        (∀ c, Referenced s.backups c → (∀ b ∈ s.backups, c ∈ b.2 → b.1 ≤ jobid) →
          c ∉ s.returned → c ∈ r.1) ∧
        (∀ c t, { id := c, time := t } ∈ readManifest r.2.1 ↔
          c ∉ s.returned ∧ c ∉ r.1 ∧ LastReference s.backups c t) ∧
        DistinctIds (readManifest r.2.1) ∧ r.2.2 = (readManifest r.2.1).length)
      (truncManifest order s.file jobid) := by
  have hinv := hs.manifestInv horder
  apply (hinv.truncManifest horder jobid).imp
  rintro r ⟨hreturned, hinv'⟩
  refine ⟨fun c hc b hb hcb => ?_, fun c href hle hret => ?_, fun c t => ?_, hinv'.distinct,
    hinv'.live_eq⟩
  · obtain ⟨-, t, hlast, hle⟩ := (hreturned c).mp hc
    exact (hlast.latest b hb hcb).trans hle
  · obtain ⟨t, hlast⟩ := exists_lastReference href
    obtain ⟨b, hb, rfl, hcb⟩ := hlast.refers
    exact (hreturned c).mpr ⟨hret, b.1, hlast, hle b hb hcb⟩
  · have hmem := hinv'.mem_iff c t
    simp only [CmaHistory.truncate, List.mem_append, not_or] at hmem
    exact hmem.trans and_assoc

/-- One backup over two containers; truncating at its id reclaims both. -/
theorem truncManifest_reclaims_first_backup :
    Ensures (fun _ => (CmaHistory.init.backup id 0 [(3, 10), (5, 20)]).backups = [])
      (fun r =>
        (∀ c ∈ r.1, ∀ b ∈ (CmaHistory.init.backup id 0 [(3, 10), (5, 20)]).backups,
          c ∈ b.2 → b.1 ≤ 0) ∧
        (∀ c, Referenced (CmaHistory.init.backup id 0 [(3, 10), (5, 20)]).backups c →
          (∀ b ∈ (CmaHistory.init.backup id 0 [(3, 10), (5, 20)]).backups, c ∈ b.2 → b.1 ≤ 0) →
          c ∉ (CmaHistory.init.backup id 0 [(3, 10), (5, 20)]).returned → c ∈ r.1) ∧
        (∀ c t, { id := c, time := t } ∈ readManifest r.2.1 ↔
          c ∉ (CmaHistory.init.backup id 0 [(3, 10), (5, 20)]).returned ∧ c ∉ r.1 ∧
            LastReference (CmaHistory.init.backup id 0 [(3, 10), (5, 20)]).backups c t) ∧
        DistinctIds (readManifest r.2.1) ∧ r.2.2 = (readManifest r.2.1).length)
      (truncManifest id (CmaHistory.init.backup id 0 [(3, 10), (5, 20)]).file 0) :=
  truncManifest_reclaims id (fun _ => List.Perm.refl _)
    (.backup .init (by simp [CmaHistory.init])
      (by simp [CmaHistory.init, Referenced])) 0

end History

end Destor
