/- digest: History-aware rewriting: the sparse containers that one backup records and the next one
   reads. -/

import Mathlib.Algebra.BigOperators.Group.List.Basic
import Mathlib.Algebra.Order.Field.Rat
import Mathlib.Data.List.Induction
import Mathlib.Tactic.NormNum
import Destor.Library.Text
import Destor.RewriteBuffer
import Destor.RewriteMonitor

set_option autoImplicit false
set_option relaxedAutoImplicit false

namespace Destor

open Library.Outcome Library.Decimal Library.Text Library.SortedSeq

/-- The directory that holds files by their paths. -/
abbrev Files := List UInt8 → Option (List UInt8)

/-- What follows `destor.working_directory` in the path of a `.sparse` file. -/
def sparseName (folder : String) (jobid : Int) : List UInt8 :=
  bytes folder.toList ++ decimal jobid ++ bytes ".sparse".toList

def closeHarPath (workingDirectory : List UInt8) (jobid : Int) : List UInt8 :=
  workingDirectory ++ sparseName "/recipes/bv" jobid

/-- The path that `init_har` reads, without the slash that `close_har` puts in front. -/
def initHarPath (workingDirectory : List UInt8) (jobid : Int) : List UInt8 :=
  workingDirectory ++ sparseName "recipes/bv" (jobid - 1)

/-- `fprintf(fp, "%lld %d\n", r->cid, r->size)`. -/
def sparseLine (r : ContainerRecord) : List UInt8 :=
  decimal r.cid ++ 32 :: (decimal r.size ++ [newline])

/-- `sscanf(buf, "%lld %d", &record->cid, &record->size)` into a record of `malloc`, which keeps in
`fresh` what is not scanned. -/
def scanSparseLine (fresh : ContainerRecord) (line : List UInt8) : ContainerRecord :=
  match scan (chars line) with
  | none => fresh
  | some (cid, rest) =>
      match scan rest with
      | none => { fresh with cid := cid }
      | some (size, _) => { fresh with cid := cid, size := size }

/-- The size of `buf` in `init_har`. -/
def sparseBufSize : Nat := 128

/-- The reading loop of `init_har`, for at most `fuel` lines. -/
def readSparse (fresh : ContainerRecord) :
    Nat → List UInt8 → List UInt8 → IdMap Int → IdMap Int
  | 0, _, _, table => table
  | fuel + 1, buf, text, table =>
      if text = [] then table
      else
        let (buf, text) := fgets sparseBufSize buf text
        let r := scanSparseLine fresh (cString buf)
        readSparse fresh fuel buf text (table.insert r.cid r.size)

/-- `init_har` in the backup `jobid`: the inherited sparse containers with their sizes. Each line is
at least one byte long, so the text has no more lines than bytes. -/
def initHar (fresh : ContainerRecord) (buf : List UInt8) (workingDirectory : List UInt8)
    (files : Files) (jobid : Int) : IdMap Int :=
  if 0 < jobid then
    match files (initHarPath workingDirectory jobid) with
    | none => ∅
    | some text => readSparse fresh text.length buf text ∅
  else ∅

def gRecordCmp (a b : ContainerRecord) : Int := toInt32 (a.size - b.size)

/-- The test of `close_har` for a sparse container, in exact arithmetic. -/
def isSparse (threshold : Rat) (r : ContainerRecord) : Bool :=
  1 * (r.size : Rat) / (containerSize - containerMetaSize : Nat) < threshold

/-- The condition of the trimming loop in `close_har`, in exact arithmetic. -/
def exceedsLimit (limit : Rat) (totalSize sparseSize : Int) : Bool :=
  limit < 1 && limit < (sparseSize : Rat) * 1 / totalSize

/-- The trimming loop of `close_har` over the sequence, given from its end. -/
def trimSparse (limit : Rat) (totalSize : Int) :
    List ContainerRecord → Int → Except Abort (List ContainerRecord)
  | [], sparseSize =>
      if exceedsLimit limit totalSize sparseSize then .error .sparseSequenceEmpty else .ok []
  | r :: before, sparseSize =>
      if exceedsLimit limit totalSize sparseSize then
        trimSparse limit totalSize before (sparseSize - r.size)
      else .ok (r :: before)

def monitorRecords (monitor : IdMap Int) : List ContainerRecord :=
  monitor.entries.map fun e => { cid := e.1, size := e.2, outOfOrder := false }

def recordsSize (records : List ContainerRecord) : Int :=
  (records.map ContainerRecord.size).sum

/-- What `close_har` writes, and the statistics that it sets in `struct jcr`. -/
structure HarClosed where
  path : List UInt8
  content : List UInt8
  totalContainerNum : Nat
  sparseContainerNum : Nat
  inheritedSparseNum : Nat

/-- `close_har` up to the manifest, given the records of the monitor in the order in which the hash
table delivers them. The two sums have 64 bits and are taken not to wrap. -/
def closeHar (threshold limit : Rat) (workingDirectory : List UInt8) (jobid : Int)
    (inherited : IdMap Int) (records : List ContainerRecord) : Except Abort HarClosed := do
  let sparse := records.filter (isSparse threshold)
  let seq := sort (fun a b => 0 < gRecordCmp a b) sparse
  let trimmed ← trimSparse limit (recordsSize records) seq.reverse (recordsSize sparse)
  return {
    path := closeHarPath workingDirectory jobid
    content := trimmed.reverse.flatMap sparseLine
    totalContainerNum := records.length
    sparseContainerNum := sparse.length
    inheritedSparseNum := (sparse.filter fun r => (inherited.lookup r.cid).isSome).length }

section Trimming

variable {limit : Rat} {totalSize : Int} {records : List ContainerRecord}

structure LongestWithin (bound : Rat) (seq chosen : List ContainerRecord) : Prop where
  initial : chosen <+: seq
  within : (recordsSize chosen : Rat) ≤ bound
  longest : ∀ l, l <+: seq → (recordsSize l : Rat) ≤ bound → l.length ≤ chosen.length

theorem recordsSize_append (l l' : List ContainerRecord) :
    recordsSize (l ++ l') = recordsSize l + recordsSize l' := by
  rw [recordsSize, List.map_append, List.sum_append]
  rfl

theorem recordsSize_nonneg (h : ∀ r ∈ records, 0 ≤ r.size) : 0 ≤ recordsSize records := by
  induction records with
  | nil => exact Int.le_refl 0
  | cons r records ih =>
      obtain ⟨hr, hrest⟩ := List.forall_mem_cons.mp h
      have hsum : recordsSize (r :: records) = r.size + recordsSize records := rfl
      have := ih hrest
      omega

theorem recordsSize_perm {l l' : List ContainerRecord} (h : l.Perm l') :
    recordsSize l = recordsSize l' := (h.map _).sum_eq

/-- The loop goes on exactly while the sequence is larger than the limit allows. -/
theorem exceedsLimit_iff (hlimit : 0 ≤ limit ∧ limit ≤ 1) {sparseSize : Int}
    (hsparse : 0 ≤ sparseSize) (hle : sparseSize ≤ totalSize) :
    exceedsLimit limit totalSize sparseSize = true ↔
      limit * (totalSize : Rat) < (sparseSize : Rat) := by
  rw [exceedsLimit, Bool.and_eq_true, decide_eq_true_iff, decide_eq_true_iff, mul_one]
  have hle' : (sparseSize : Rat) ≤ totalSize := by exact_mod_cast hle
  have hsparse' : (0 : Rat) ≤ sparseSize := by exact_mod_cast hsparse
  rcases Int.lt_or_eq_of_le (hsparse.trans hle) with hpos | hzero
  · have hpos' : (0 : Rat) < totalSize := by exact_mod_cast hpos
    rw [lt_div_iff₀ hpos']
    constructor
    · exact fun h => h.2
    · intro h
      refine ⟨?_, h⟩
      by_contra hone
      have heq : limit = 1 := le_antisymm hlimit.2 (not_lt.mp hone)
      rw [heq, one_mul] at h
      exact absurd hle' (not_le.mpr h)
  · have hsum : sparseSize = 0 := by omega
    rw [← hzero, hsum]
    constructor
    · intro h
      have hdiv : ((0 : Int) : Rat) / ((0 : Int) : Rat) = 0 := zero_div _
      rw [hdiv] at h
      exact absurd hlimit.1 (not_le.mpr h.2)
    · intro h
      have hmul : limit * ((0 : Int) : Rat) = ((0 : Int) : Rat) := mul_zero limit
      rw [hmul] at h
      exact absurd h (lt_irrefl _)

/-- Trimming ends, and with the longest part of the sequence that the limit allows. -/
theorem trimSparse_spec (hlimit : 0 ≤ limit ∧ limit ≤ 1) {seq : List ContainerRecord}
    (hsizes : ∀ r ∈ seq, 0 ≤ r.size) (hle : recordsSize seq ≤ totalSize) :
    ∃ trimmed, trimSparse limit totalSize seq.reverse (recordsSize seq) = .ok trimmed ∧
      LongestWithin (limit * (totalSize : Rat)) seq trimmed.reverse := by
  have hexceeds := exceedsLimit_iff hlimit (recordsSize_nonneg hsizes) hle
  -- a sequence that is small enough stays as it is
  have hkeep : ¬ limit * (totalSize : Rat) < (recordsSize seq : Rat) →
      LongestWithin (limit * (totalSize : Rat)) seq seq.reverse.reverse := by
    intro hsmall
    rw [List.reverse_reverse]
    exact ⟨List.prefix_rfl, not_lt.mp hsmall, fun l hl _ => hl.length_le⟩
  induction seq using List.reverseRec with
  | nil =>
      have hsmall : ¬ limit * (totalSize : Rat) < (recordsSize [] : Rat) := by
        have htotal : (0 : Rat) ≤ totalSize := by exact_mod_cast hle
        exact not_lt.mpr (mul_nonneg hlimit.1 htotal)
      refine ⟨[], ?_, hkeep hsmall⟩
      rw [List.reverse_nil, trimSparse, if_neg]
      exact fun h => hsmall (hexceeds.mp h)
  | append_singleton seq r ih =>
      rw [List.reverse_append, List.reverse_singleton, List.singleton_append] at hkeep ⊢
      rw [trimSparse]
      by_cases hlarge : limit * (totalSize : Rat) < (recordsSize (seq ++ [r]) : Rat)
      · rw [if_pos (hexceeds.mpr hlarge)]
        have hsizes' : ∀ r' ∈ seq, 0 ≤ r'.size :=
          fun r' hr' => hsizes r' (List.mem_append_left _ hr')
        have hr := hsizes r (List.mem_append_right _ (List.mem_singleton.mpr rfl))
        have hsum : recordsSize (seq ++ [r]) - r.size = recordsSize seq := by
          have hone : recordsSize [r] = r.size := Int.add_zero _
          rw [recordsSize_append, hone]
          omega
        have hle' : recordsSize seq ≤ totalSize := by omega
        rw [hsum]
        obtain ⟨trimmed, hok, hchosen⟩ := ih hsizes' hle'
          (exceedsLimit_iff hlimit (recordsSize_nonneg hsizes') hle') (fun hsmall => by
            rw [List.reverse_reverse]
            exact ⟨List.prefix_rfl, not_lt.mp hsmall, fun l hl _ => hl.length_le⟩)
        refine ⟨trimmed, hok, ?_, hchosen.within, fun l hl hwithin => ?_⟩
        · exact hchosen.initial.trans (List.prefix_append seq [r])
        · rcases List.prefix_concat_iff.mp hl with heq | hinit
          · rw [heq] at hwithin
            exact absurd hwithin (not_le.mpr hlarge)
          · exact hchosen.longest l hinit hwithin
      · rw [if_neg fun h => hlarge (hexceeds.mp h)]
        exact ⟨r :: seq.reverse, rfl, hkeep hlarge⟩

end Trimming

section Selection

variable {records : List ContainerRecord}

def SizeFits (r : ContainerRecord) : Prop := 0 ≤ r.size ∧ r.size < 2 ^ 31

theorem gRecordCmp_eq {a b : ContainerRecord} (ha : SizeFits a) (hb : SizeFits b) :
    gRecordCmp a b = a.size - b.size := by
  obtain ⟨ha₀, ha₁⟩ := ha
  obtain ⟨hb₀, hb₁⟩ := hb
  rw [gRecordCmp]
  apply toInt32_eq
  · omega
  · omega

/-- The sequence of `close_har` is ascending by size. -/
theorem sort_records_pairwise (h : ∀ r ∈ records, SizeFits r) :
    (sort (fun a b => 0 < gRecordCmp a b) records).Pairwise fun a b => a.size ≤ b.size := by
  apply sort_pairwise
  · exact fun a b c hab hbc => hab.trans hbc
  · intro a ha b hb hgt
    have hpos := of_decide_eq_true hgt
    rw [gRecordCmp_eq (h a ha) (h b hb)] at hpos
    omega
  · intro a ha b hb hgt
    have hle := of_decide_eq_false hgt
    rw [gRecordCmp_eq (h a ha) (h b hb)] at hle
    omega

theorem recordsSize_filter_le (h : ∀ r ∈ records, 0 ≤ r.size) (p : ContainerRecord → Bool) :
    recordsSize (records.filter p) ≤ recordsSize records := by
  induction records with
  | nil => exact Int.le_refl _
  | cons r records ih =>
      obtain ⟨hr, hrest⟩ := List.forall_mem_cons.mp h
      have hle := ih hrest
      have hsum : ∀ l, recordsSize (r :: l) = r.size + recordsSize l := fun l => rfl
      rw [List.filter_cons]
      split
      · rw [hsum, hsum]
        omega
      · rw [hsum]
        omega

end Selection

section File

variable {r : ContainerRecord} {records : List ContainerRecord}

/-- A record as `close_har` prints it, less the end of the line. -/
private def sparseText (r : ContainerRecord) : List UInt8 := decimal r.cid ++ 32 :: decimal r.size

private theorem not_mem_sparseText {b : UInt8} (hb : b < 32) : b ∉ sparseText r := by
  have hnumber : ∀ x, b ∉ decimal x := by
    intro x hmem
    rcases mem_decimal hmem with rfl | ⟨hlo, -⟩
    · exact absurd hb (by decide)
    · exact absurd (UInt8.lt_of_le_of_lt hlo hb) (by decide)
  intro hmem
  rcases List.mem_append.mp hmem with hmem | hmem
  · exact hnumber r.cid hmem
  · rcases List.mem_cons.mp hmem with rfl | hmem
    · exact absurd hb (by decide)
    · exact hnumber r.size hmem

private theorem length_sparseText (hcid : -2 ^ 63 ≤ r.cid ∧ r.cid < 2 ^ 63)
    (hsize : -2 ^ 31 ≤ r.size ∧ r.size < 2 ^ 31) : (sparseText r).length + 1 < sparseBufSize := by
  obtain ⟨hsize₀, hsize₁⟩ := hsize
  have hcidText : (decimal r.cid).length ≤ 20 :=
    length_decimal_int_le (k := 19) (by decide) (by omega)
  have hsizeText : (decimal r.size).length ≤ 11 :=
    length_decimal_int_le (k := 10) (by decide) (by omega)
  rw [sparseText, List.length_append, List.length_cons, sparseBufSize]
  omega

/-- What is printed is scanned back. -/
theorem scanSparseLine_sparseLine (fresh r : ContainerRecord) :
    (scanSparseLine fresh (sparseLine r)).cid = r.cid ∧
      (scanSparseLine fresh (sparseLine r)).size = r.size := by
  have hchars : chars (sparseLine r) = render r.cid ++ ' ' :: (render r.size ++ ['\n']) := by
    rw [sparseLine, chars_append, chars_decimal]
    show render r.cid ++ ' ' :: chars (decimal r.size ++ [newline]) = _
    rw [chars_append, chars_decimal]
    rfl
  have hcid := scan_render r.cid (endsNumber_of_space (c := ' ') rfl (render r.size ++ ['\n']))
  have hsize : scan (' ' :: (render r.size ++ ['\n'])) = some (r.size, ['\n']) := by
    rw [scan_space (by rfl)]
    exact scan_render r.size (endsNumber_of_space (c := '\n') rfl [])
  rw [scanSparseLine, hchars, hcid]
  simp only [hsize]
  exact ⟨trivial, trivial⟩

/-- The loop of `init_har` reads one line of `close_har` after the other. -/
theorem readSparse_lines (fresh : ContainerRecord)
    (hcids : ∀ r ∈ records, -2 ^ 63 ≤ r.cid ∧ r.cid < 2 ^ 63)
    (hsizes : ∀ r ∈ records, -2 ^ 31 ≤ r.size ∧ r.size < 2 ^ 31) (buf : List UInt8)
    (table : IdMap Int) {fuel : Nat}
    (hfuel : (records.flatMap sparseLine).length ≤ fuel) :
    readSparse fresh fuel buf (records.flatMap sparseLine) table =
      records.foldl (fun table r => table.insert r.cid r.size) table := by
  induction records generalizing buf table fuel with
  | nil => cases fuel with
    | zero => rfl
    | succ fuel => rw [List.flatMap_nil, readSparse, if_pos rfl, List.foldl_nil]
  | cons r records ih =>
      obtain ⟨hcid, hcids⟩ := List.forall_mem_cons.mp hcids
      obtain ⟨hsize, hsizes⟩ := List.forall_mem_cons.mp hsizes
      have hline : sparseLine r ++ records.flatMap sparseLine =
          sparseText r ++ newline :: records.flatMap sparseLine := by
        rw [sparseLine, sparseText]
        simp only [List.append_assoc, List.cons_append, List.nil_append]
      have hlength : 0 < (sparseLine r).length := by
        rw [sparseLine, List.length_append, List.length_cons]
        omega
      rw [List.flatMap_cons, List.length_append] at hfuel
      obtain ⟨fuel, rfl⟩ := Nat.exists_eq_add_one_of_ne_zero (n := fuel) (by omega)
      have hread := fgets_newline buf (records.flatMap sparseLine)
        (not_mem_sparseText (r := r) (b := newline) (by decide)) (length_sparseText hcid hsize)
      have hstring : cString (sparseText r ++ newline :: 0 ::
          buf.drop ((sparseText r).length + 2)) = sparseLine r := by
        have hsplit : sparseText r ++ [newline] = sparseLine r := by
          rw [sparseLine, sparseText]
          simp only [List.append_assoc, List.cons_append]
        rw [← List.singleton_append, ← List.append_assoc, hsplit]
        apply cString_append_zero
        rw [← hsplit]
        intro hmem
        rcases List.mem_append.mp hmem with hmem | hmem
        · exact not_mem_sparseText (by decide) hmem
        · exact absurd (List.mem_singleton.mp hmem) (by decide)
      obtain ⟨hscanCid, hscanSize⟩ := scanSparseLine_sparseLine fresh r
      have hne : sparseText r ++ newline :: records.flatMap sparseLine ≠ [] :=
        List.append_ne_nil_of_right_ne_nil _ (List.cons_ne_nil _ _)
      rw [List.flatMap_cons, hline, readSparse, if_neg hne, hread]
      simp only [hstring, hscanCid, hscanSize]
      rw [List.foldl_cons]
      exact ih hcids hsizes _ _ (by omega)

theorem readSparse_flatMap (fresh : ContainerRecord)
    (hcids : ∀ r ∈ records, -2 ^ 63 ≤ r.cid ∧ r.cid < 2 ^ 63)
    (hsizes : ∀ r ∈ records, SizeFits r) (buf : List UInt8) (table : IdMap Int) {fuel : Nat}
    (hfuel : (records.flatMap sparseLine).length ≤ fuel) :
    readSparse fresh fuel buf (records.flatMap sparseLine) table =
      records.foldl (fun table r => table.insert r.cid r.size) table := by
  refine readSparse_lines fresh hcids (fun r hr => ?_) buf table hfuel
  obtain ⟨hnonneg, hlt⟩ := hsizes r hr
  exact ⟨by omega, hlt⟩

theorem lookup_foldl_insert_record (hnodup : (records.map ContainerRecord.cid).Nodup) (id size : Int) :
    (records.foldl (fun table r => table.insert r.cid r.size) (∅ : IdMap Int)).lookup id =
        some size ↔ ∃ r ∈ records, r.cid = id ∧ r.size = size := by
  induction records using List.reverseRec with
  | nil =>
      rw [List.foldl_nil, AList.lookup_empty]
      constructor
      · exact fun h => absurd h (Option.some_ne_none size).symm
      · rintro ⟨r, hr, -⟩
        exact absurd hr List.not_mem_nil
  | append_singleton records r ih =>
      rw [List.map_append, List.nodup_append] at hnodup
      obtain ⟨hinit, -, hdisjoint⟩ := hnodup
      rw [List.foldl_concat]
      by_cases hid : id = r.cid
      · rw [hid, AList.lookup_insert, Option.some_inj]
        constructor
        · exact fun heq => ⟨r, List.mem_append_right _ (List.mem_singleton.mpr rfl), rfl, heq⟩
        · rintro ⟨r', hr', hcid, heq⟩
          rcases List.mem_append.mp hr' with hold | hnew
          · exact absurd hcid (hdisjoint r'.cid (List.mem_map_of_mem hold) r.cid
              (List.mem_singleton.mpr rfl))
          · rw [← List.mem_singleton.mp hnew]
            exact heq
      · rw [AList.lookup_insert_ne hid, ih hinit]
        constructor
        · rintro ⟨r', hr', h⟩
          exact ⟨r', List.mem_append_left _ hr', h⟩
        · rintro ⟨r', hr', hcid, heq⟩
          rcases List.mem_append.mp hr' with hold | hnew
          · exact ⟨r', hold, hcid, heq⟩
          · rw [List.mem_singleton.mp hnew] at hcid
            exact absurd hcid.symm hid

end File

section Claim

/-- The sparse containers that a backup records: of the ones below the threshold, ascending by size,
the longest initial part within the limit. The next backup that opens the file reads back exactly
these with their sizes. -/
theorem har_records_longest (threshold limit : Rat) (workingDirectory : List UInt8) (jobid : Int)
    (inherited monitor : IdMap Int) (records : List ContainerRecord)
    (hrecords : records.Perm (monitorRecords monitor)) (hlimit : 0 ≤ limit ∧ limit ≤ 1)
    (hids : ∀ id ∈ monitor.keys, -2 ^ 63 ≤ id ∧ id < 2 ^ 63)
    (hsizes : ∀ id size, monitor.lookup id = some size → 0 ≤ size ∧ size < 2 ^ 31)
    (hjob : 0 ≤ jobid) :
    ∃ closed seq chosen,
      closeHar threshold limit workingDirectory jobid inherited records = .ok closed ∧
      seq.Perm (records.filter fun r =>
        (r.size : Rat) / (containerSize - containerMetaSize : Nat) < threshold) ∧
      seq.Pairwise (fun a b => a.size ≤ b.size) ∧
      LongestWithin (limit * (recordsSize records : Rat)) seq chosen ∧
      closed.content = chosen.flatMap sparseLine ∧
      ∀ fresh buf (files : Files),
        files (initHarPath workingDirectory (jobid + 1)) = some closed.content →
          ∀ id size, (initHar fresh buf workingDirectory files (jobid + 1)).lookup id = some size ↔
            ∃ r ∈ chosen, r.cid = id ∧ r.size = size := by
  have hentry : ∀ r ∈ records, r.cid ∈ monitor.keys ∧ SizeFits r := by
    intro r hr
    obtain ⟨e, he, rfl⟩ := List.mem_map.mp (hrecords.mem_iff.mp hr)
    have hlookup : monitor.lookup e.1 = some e.2 := AList.mem_lookup_iff.mpr he
    exact ⟨List.mem_map_of_mem he, hsizes e.1 e.2 hlookup⟩
  have hnodup : (records.map ContainerRecord.cid).Nodup := by
    rw [(hrecords.map ContainerRecord.cid).nodup_iff, monitorRecords, List.map_map]
    exact monitor.nodupKeys
  have hnonneg : ∀ r ∈ records, 0 ≤ r.size := fun r hr => (hentry r hr).2.1
  have hsparseMem : ∀ r ∈ records.filter (isSparse threshold), r ∈ records :=
    fun r hr => (List.mem_filter.mp hr).1
  have hperm := sort_perm (fun a b => 0 < gRecordCmp a b) (records.filter (isSparse threshold))
  generalize hseq : sort (fun a b => 0 < gRecordCmp a b) (records.filter (isSparse threshold)) =
    seq at hperm
  have hseqMem : ∀ r ∈ seq, r ∈ records := fun r hr => hsparseMem r (hperm.mem_iff.mp hr)
  have hsorted : seq.Pairwise fun a b => a.size ≤ b.size := by
    rw [← hseq]
    exact sort_records_pairwise fun r hr => (hentry r (hsparseMem r hr)).2
  have hsum := recordsSize_perm hperm
  have hle : recordsSize seq ≤ recordsSize records := by
    rw [hsum]
    exact recordsSize_filter_le hnonneg _
  obtain ⟨trimmed, hok, hchosen⟩ := trimSparse_spec hlimit
    (fun r hr => hnonneg r (hseqMem r hr)) hle
  rw [hsum] at hok
  have hchosenMem : ∀ r ∈ trimmed.reverse, r ∈ records :=
    fun r hr => hseqMem r (hchosen.initial.subset hr)
  have hdistinct : (trimmed.reverse.map ContainerRecord.cid).Nodup := by
    apply List.Nodup.sublist (hchosen.initial.sublist.map _)
    rw [(hperm.map ContainerRecord.cid).nodup_iff]
    exact hnodup.sublist (List.filter_sublist.map _)
  refine ⟨_, seq, trimmed.reverse, bind_ok_iff.mpr ⟨trimmed, ?_, rfl⟩, ?_, hsorted, hchosen, rfl,
    fun fresh buf files hfile id size => ?_⟩
  · rw [hseq]
    exact hok
  · refine hperm.trans (List.Perm.of_eq (List.filter_congr fun r _ => ?_))
    rw [isSparse, one_mul]
  · rw [initHar, if_pos (by omega), hfile]
    show (readSparse fresh _ buf (trimmed.reverse.flatMap sparseLine) ∅).lookup id = _ ↔ _
    rw [readSparse_flatMap fresh (fun r hr => hids r.cid (hentry r (hchosenMem r hr)).1)
      (fun r hr => (hentry r (hchosenMem r hr)).2) buf ∅ (Nat.le_refl _)]
    exact lookup_foldl_insert_record hdistinct id size

/-- A sparse container of 100 bytes and a full one, with five percent to be rewritten. -/
theorem har_records_longest_two_containers : ∃ closed seq chosen,
    closeHar (1 / 2) (1 / 20) [47] 0 ∅
        (monitorRecords ((AList.insert 5 100 (∅ : IdMap Int)).insert 6 4000000)) = .ok closed ∧
      LongestWithin ((1 / 20) * ((4000100 : Int) : Rat)) seq chosen ∧
      closed.content = chosen.flatMap sparseLine := by
  have hsizes : ∀ id size,
      ((AList.insert 5 100 (∅ : IdMap Int)).insert 6 4000000).lookup id = some size →
        0 ≤ size ∧ size < 2 ^ 31 := by
    intro id size hlookup
    by_cases hsix : id = 6
    · rw [hsix, AList.lookup_insert] at hlookup
      cases hlookup
      decide
    · rw [AList.lookup_insert_ne hsix] at hlookup
      by_cases hfive : id = 5
      · rw [hfive, AList.lookup_insert] at hlookup
        cases hlookup
        decide
      · rw [AList.lookup_insert_ne hfive, AList.lookup_empty] at hlookup
        exact absurd hlookup (Option.some_ne_none size).symm
  obtain ⟨closed, seq, chosen, hok, -, -, hchosen, hcontent, -⟩ :=
    har_records_longest (1 / 2) (1 / 20) [47] 0 ∅
      ((AList.insert 5 100 (∅ : IdMap Int)).insert 6 4000000) _ (List.Perm.refl _)
      ⟨by norm_num, by norm_num⟩ (by decide) hsizes (by decide)
  exact ⟨closed, seq, chosen, hok, hchosen, hcontent⟩

end Claim

end Destor
