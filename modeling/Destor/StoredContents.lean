/- digest: Every container holds, under each fingerprint, the bytes that the fingerprint stands for. -/

import Destor.RecordedFiles
import Destor.Storage.ContainerFile

set_option autoImplicit false
set_option relaxedAutoImplicit false

namespace Destor

open Library.Outcome Library.Transition Library.RelatedLists Library.Bytes

def Chunk.Genuine (content : Fingerprint → List UInt8) (c : Chunk) : Prop :=
  c.data = content c.fp ∧ c.data.length = c.size

def Container.Genuine (cfg : Config) (content : Fingerprint → List UInt8) (b : Container) : Prop :=
  ∃ chunks, Filled cfg b chunks ∧ ∀ c ∈ chunks, c.Genuine content

/-- The pushed containers, filed under their ids, and the open one are genuine. -/
structure GenuinePool (cfg : Config) (content : Fingerprint → List UInt8) (pool : ContainerPool)
    (storage : Option Container) : Prop where
  pushed : ∀ i b, pool.containers.lookup i = some b →
    b.id = i ∧ b.isEmpty = false ∧ b.Genuine cfg content
  opened : ∀ b ∈ storage, b.Genuine cfg content

section Containers

variable {cfg : Config} {content : Fingerprint → List UInt8} {b : Container} {c c' : Chunk}

theorem Chunk.Genuine.congr (h : c.Genuine content) (hsame : c.SamePayload c') :
    c'.Genuine content := by
  obtain ⟨hdata, hlength⟩ := h
  rw [Chunk.Genuine, hsame.data_eq, hsame.fp_eq, hsame.size_eq]
  exact ⟨hdata, hlength⟩

theorem createContainer_genuine (cfg : Config) (content : Fingerprint → List UInt8)
    (pool : ContainerPool) : (createContainer cfg pool).1.Genuine cfg content :=
  ⟨[], .create pool, fun c hc => by cases hc⟩

theorem Container.Genuine.add (h : b.Genuine cfg content) (hc : c.Genuine content)
    {added : Bool} {b' : Container} (hok : addChunkToContainer cfg b c = .ok (added, b', c')) :
    b'.Genuine cfg content := by
  obtain ⟨chunks, hfilled, hchunks⟩ := h
  have hguard := (addChunkToContainer_ok hok).1
  refine ⟨chunks ++ [c], .add hfilled hguard (fun _ => hc.2) hok, fun c₁ hc₁ => ?_⟩
  rcases List.mem_append.mp hc₁ with hc₁ | hc₁
  · exact hchunks c₁ hc₁
  · rw [List.mem_singleton.mp hc₁]
    exact hc

/-- An entry of a genuine container: it lies within the data, and has the bytes of its fingerprint. -/
theorem Container.Genuine.entry (h : b.Genuine cfg content) {fp : Fingerprint} {e : MetaEntry}
    (he : b.map.lookup fp = some e) :
    e.len = (content fp).length ∧ e.off + e.len ≤ b.dataSize ∧
      ∀ d, b.data = some d → read d e.off e.len = content fp := by
  obtain ⟨chunks, hfilled, hchunks⟩ := h
  have hfill := hfilled.fillInv
  have hfirst := hfill.first fp
  rw [he] at hfirst
  obtain ⟨c, hc, hsize⟩ := Option.map_eq_some_iff.mp hfirst.symm
  obtain ⟨hdata, hlength⟩ := hchunks c (List.mem_of_find?_eq_some hc)
  have hfp : c.fp = fp := by simpa using List.find?_some hc
  rw [hfp] at hdata
  refine ⟨?_, hfill.bound fp e he, fun d hd => ?_⟩
  · rw [← hsize, ← hlength, hdata]
  · rw [hfill.bytes d hd fp e c he hc, hdata]

end Containers

section Filter

variable {cfg : Config} {content : Fingerprint → List UInt8} {st st' : FilterState}
  {b : Container} {c c' : Chunk}

/-- The pushed containers are genuine, whatever becomes of the open one. -/
theorem GenuinePool.without {pool pool' : ContainerPool} {storage : Option Container}
    (h : GenuinePool cfg content pool storage) (heq : pool'.containers = pool.containers) :
    GenuinePool cfg content pool' none :=
  ⟨fun i b hb => h.pushed i b (heq ▸ hb), fun b hb => by cases hb⟩

theorem pushContainer_genuine (h : GenuinePool cfg content st.pool (some b))
    (hok : pushContainer cfg st b = .ok st') :
    GenuinePool cfg content st'.pool st'.storage.containerBuffer := by
  obtain ⟨kv, -, hok⟩ := bind_ok_iff.mp hok
  obtain ⟨pool, hpool, hok⟩ := bind_ok_iff.mp hok
  obtain ⟨-, -, hpool⟩ := bind_ok_iff.mp hpool
  cases hok
  cases hpool
  refine ⟨fun i b' hb' => ?_, fun b' hb' => by cases hb'⟩
  split at hb'
  · exact h.pushed i b' hb'
  · rename_i hnonempty
    by_cases hi : i = b.id
    · subst hi
      rw [AList.lookup_insert] at hb'
      cases hb'
      exact ⟨rfl, Bool.not_eq_true _ ▸ hnonempty, h.opened b rfl⟩
    · rw [AList.lookup_insert_ne hi] at hb'
      exact h.pushed i b' hb'

/-- The container for a chunk is genuine, whether it was open or is new. -/
theorem containerFor_genuine (h : GenuinePool cfg content st.pool st.storage.containerBuffer)
    {size : Nat} (hok : containerFor cfg st size = .ok (st', b)) :
    GenuinePool cfg content st'.pool none ∧ b.Genuine cfg content := by
  rw [containerFor] at hok
  cases hopen : st.storage.containerBuffer with
  | none =>
      rw [hopen] at hok
      cases hok
      exact ⟨h.without rfl, createContainer_genuine cfg content _⟩
  | some b₀ =>
      rw [hopen] at hok h
      dsimp only at hok
      split at hok
      · obtain ⟨st₁, hpush, hok⟩ := bind_ok_iff.mp hok
        cases hok
        have h₁ := pushContainer_genuine h hpush
        exact ⟨h₁.without rfl, createContainer_genuine cfg content _⟩
      · cases hok
        exact ⟨h.without rfl, h.opened _ rfl⟩

theorem storeChunk_genuine (h : GenuinePool cfg content st.pool st.storage.containerBuffer)
    (hc : c.Genuine content) (hok : storeChunk cfg st c = .ok (st', c')) :
    GenuinePool cfg content st'.pool st'.storage.containerBuffer := by
  rw [storeChunk] at hok
  split at hok
  · obtain ⟨⟨st₁, b⟩, hfor, hok⟩ := bind_ok_iff.mp hok
    obtain ⟨⟨added, b', c₁⟩, hadd, hok⟩ := bind_ok_iff.mp hok
    obtain ⟨-, -, hok⟩ := bind_ok_iff.mp hok
    cases hok
    obtain ⟨hpool, hb⟩ := containerFor_genuine h hfor
    have hopen : ∀ b₁ ∈ some b', b₁.Genuine cfg content := by
      intro b₁ hb₁
      cases hb₁
      exact hb.add hc hadd
    cases added with
    | false => exact ⟨hpool.pushed, hopen⟩
    | true => exact ⟨hpool.pushed, hopen⟩
  · cases hok
    exact h

theorem filterChunk_genuine (h : GenuinePool cfg content st.pool st.storage.containerBuffer)
    (hc : c.isNormal = true → c.Genuine content) (hok : filterChunk cfg st c = .ok (st', c')) :
    GenuinePool cfg content st'.pool st'.storage.containerBuffer := by
  rw [filterChunk] at hok
  split at hok
  · rename_i hnormal
    obtain ⟨c₁, hmark, hok⟩ := bind_ok_iff.mp hok
    obtain ⟨c₂, hunique, hok⟩ := bind_ok_iff.mp hok
    obtain ⟨⟨st₁, c₃⟩, hstore, hok⟩ := bind_ok_iff.mp hok
    obtain ⟨-, -, hok⟩ := bind_ok_iff.mp hok
    cases hok
    have h₁ : c.SamePayload c₁ := by
      rw [markInCache_cases hmark]
      exact ⟨rfl, rfl, rfl, rfl, rfl⟩
    have h₂ : c₁.SamePayload c₂ := by
      rw [(resolveUnique_cases hunique).1]
      exact ⟨rfl, rfl, rfl, rfl, rfl⟩
    have hpayload := (h₁.trans h₂).trans (resolveRewritten_payload
      { st with enableRewrite := switchRewrite cfg st } c₂)
    have h₀ : GenuinePool cfg content { st with enableRewrite := switchRewrite cfg st }.pool
        { st with enableRewrite := switchRewrite cfg st }.storage.containerBuffer := h
    have h₃ : GenuinePool cfg content st₁.pool st₁.storage.containerBuffer :=
      storeChunk_genuine h₀ ((hc hnormal).congr hpayload) hstore
    exact h₃
  · cases hok
    exact h

theorem filterChunks_genuine {chunks done : List Chunk}
    (h : GenuinePool cfg content st.pool st.storage.containerBuffer)
    (hchunks : ∀ c ∈ chunks, c.isNormal = true → c.Genuine content)
    (hok : traverseE (filterChunk cfg) st chunks = .ok (st', done)) :
    GenuinePool cfg content st'.pool st'.storage.containerBuffer := by
  induction chunks generalizing st done with
  | nil =>
      cases hok
      exact h
  | cons c chunks ih =>
      obtain ⟨hc, hchunks⟩ := List.forall_mem_cons.mp hchunks
      obtain ⟨⟨st₁, c₁⟩, hstep, hok⟩ := bind_ok_iff.mp hok
      obtain ⟨⟨st₂, done₂⟩, hrest, hok⟩ := bind_ok_iff.mp hok
      cases hok
      exact ih (filterChunk_genuine h hc hstep) hchunks hrest

theorem closeStorage_genuine (h : GenuinePool cfg content st.pool st.storage.containerBuffer)
    (hok : closeStorage cfg st = .ok st') : GenuinePool cfg content st'.pool none := by
  rw [closeStorage] at hok
  cases hopen : st.storage.containerBuffer with
  | none =>
      rw [hopen] at hok
      cases hok
      exact h.without rfl
  | some b =>
      rw [hopen] at hok h
      dsimp only at hok
      split at hok
      · cases hok
        exact h.without rfl
      · exact (pushContainer_genuine h hok).without rfl

end Filter

section Runs

variable {cfg : Config} {content : Fingerprint → List UInt8} {order : List Int → List Int}
  {a a' : Archive}

def GenuineFiles (content : Fingerprint → List UInt8) (files : List InputFile) : Prop :=
  ∀ f ∈ files, ∀ c ∈ f.chunks, c.data = content c.fp ∧ c.data.length = c.size

def StartsGenuine (content : Fingerprint → List UInt8) (a : Archive) : Event → Prop
  | .start files => a.sys.job = none ∧ GenuineFiles content files
  | _ => True

def Archive.Genuine (cfg : Config) (content : Fingerprint → List UInt8) (a : Archive) : Prop :=
  GenuinePool cfg content a.sys.store.pool
      (a.sys.job.bind fun job => job.storage.containerBuffer) ∧
    ∀ job ∈ a.sys.job, ∀ c ∈ job.remaining, c.isNormal = true → c.Genuine content

theorem GenuineFiles.stream {files : List InputFile} (h : GenuineFiles content files) :
    ∀ c ∈ files.flatMap InputFile.stream, c.isNormal = true → c.Genuine content := by
  intro c hc hnormal
  obtain ⟨f, hf, hc⟩ := List.mem_flatMap.mp hc
  simp only [InputFile.stream, List.cons_append, List.mem_cons, List.mem_append, List.mem_map,
    List.not_mem_nil, or_false] at hc
  rcases hc with rfl | ⟨ic, hic, rfl⟩ | rfl
  · cases hnormal
  · exact h f hf ic hic
  · cases hnormal

/-- Chunks stay genuine while their ids and marks change. -/
theorem genuine_of_payload {chunks chunks' : List Chunk}
    (h : ∀ c ∈ chunks, c.isNormal = true → c.Genuine content)
    (hpayload : List.Forall₂ Chunk.SamePayload chunks chunks') :
    ∀ c ∈ chunks', c.isNormal = true → c.Genuine content := by
  intro c' hc' hnormal
  obtain ⟨c, hc, hsame⟩ := mem_forall₂_right hpayload hc'
  exact (h c hc (hsame.normal_eq ▸ hnormal)).congr hsame

/-- Store and running backup, as the archive has them between two steps. -/
def GenuineSystem (cfg : Config) (content : Fingerprint → List UInt8) (store : Store)
    (job : Job) : Prop :=
  GenuinePool cfg content store.pool job.storage.containerBuffer ∧
    ∀ c ∈ job.remaining, c.isNormal = true → c.Genuine content

theorem lookupSegment_genuine {store : Store} {job job' : Job} {waitThreshold : Int}
    (h : GenuineSystem cfg content store job)
    (hok : lookupSegment cfg store job waitThreshold = .ok job') :
    GenuineSystem cfg content store job' := by
  obtain ⟨hpayload, -, -, hstorage⟩ := lookupSegment_remaining hok
  refine ⟨?_, genuine_of_payload h.2 hpayload⟩
  rw [hstorage]
  exact h.1

theorem filterSegment_genuine {store store' : Store} {job job' : Job} {marks : Nat → Bool × Bool}
    (h : GenuineSystem cfg content store job)
    (hok : filterSegment cfg store job marks = .ok (store', job')) :
    GenuineSystem cfg content store' job' := by
  cases hinflight : job.inflight with
  | nil =>
      rw [filterSegment, hinflight] at hok
      cases hok
      exact h
  | cons s inflight =>
      obtain ⟨hpool, hremaining⟩ := h
      obtain ⟨hrest, chunks, done, st, hpass⟩ := filterSegment_pass hinflight hok
      have hsplit : job.remaining = s.chunks ++ job'.remaining := by
        simp [Job.remaining, hinflight, hrest, hpass.todo_eq]
      rw [hsplit] at hremaining
      obtain ⟨hsegment, hlater⟩ := List.forall_mem_append.mp hremaining
      have hpool : GenuinePool cfg content (job.filterState store).pool
          (job.filterState store).storage.containerBuffer := hpool
      refine ⟨?_, hlater⟩
      rw [hpass.pool_eq, hpass.storage_eq]
      exact filterChunks_genuine hpool (genuine_of_payload hsegment hpass.checked) hpass.loop

theorem finishJob_genuine {store store' : Store} {job : Job}
    (h : GenuineSystem cfg content store job) (hok : finishJob cfg store job = .ok store') :
    GenuinePool cfg content store'.pool none := by
  obtain ⟨st, hclose, hfinish⟩ := bind_ok_iff.mp hok
  cases hfinish
  have hpool : GenuinePool cfg content (job.filterState store).pool
      (job.filterState store).storage.containerBuffer := h.1
  exact closeStorage_genuine hpool hclose

theorem archiveStep_genuine (h : a.Genuine cfg content) {e : Event}
    (hok : StartsGenuine content a e) :
    Ensures (fun _ => True) (Archive.Genuine cfg content) (archiveStep order cfg a e) := by
  apply ensures_of_ok
  intro a' hstep
  have hidle : ∀ {store : Store} {oldest : Nat} {reclaimed : List Int},
      GenuinePool cfg content store.pool none →
        Archive.Genuine cfg content ⟨⟨store, none⟩, oldest, reclaimed⟩ := fun h =>
    ⟨h, fun job hjob => by cases hjob⟩
  have hbusy : ∀ {store : Store} {job : Job} {oldest : Nat} {reclaimed : List Int},
      GenuineSystem cfg content store job →
        Archive.Genuine cfg content ⟨⟨store, some job⟩, oldest, reclaimed⟩ := fun h =>
    ⟨h.1, fun job hjob => by cases hjob; exact h.2⟩
  cases e with
  | delete jobid =>
      obtain ⟨hjob, -, hsame⟩ := archiveStep_delete hstep
      rw [Archive.Genuine, hjob, hsame]
      exact h
  | start files =>
      obtain ⟨⟨store, job⟩, oldest, reclaimed⟩ := a
      obtain ⟨hnone, hfiles⟩ := hok
      obtain rfl : job = none := hnone
      obtain ⟨sys, hsys, heq⟩ := bind_ok_iff.mp hstep
      obtain ⟨segments, hsegment, rfl⟩ := step_start hsys
      cases heq
      refine hbusy ⟨h.1, ?_⟩
      rw [newJob_remaining hsegment]
      exact hfiles.stream
  | lookup waitThreshold =>
      obtain ⟨⟨store, job⟩, oldest, reclaimed⟩ := a
      cases job with
      | none =>
          cases hstep
          exact h
      | some job =>
          obtain ⟨sys, hsys, hstep⟩ := bind_ok_iff.mp hstep
          obtain ⟨job', hlookup, hsys⟩ := bind_ok_iff.mp hsys
          cases hsys
          cases hstep
          exact hbusy (lookupSegment_genuine ⟨h.1, h.2 job rfl⟩ hlookup)
  | filter marks =>
      obtain ⟨⟨store, job⟩, oldest, reclaimed⟩ := a
      cases job with
      | none =>
          cases hstep
          exact h
      | some job =>
          obtain ⟨sys, hsys, hstep⟩ := bind_ok_iff.mp hstep
          obtain ⟨⟨store', job'⟩, hfilter, hsys⟩ := bind_ok_iff.mp hsys
          cases hsys
          cases hstep
          exact hbusy (filterSegment_genuine ⟨h.1, h.2 job rfl⟩ hfilter)
  | finish =>
      obtain ⟨⟨store, job⟩, oldest, reclaimed⟩ := a
      cases job with
      | none =>
          cases hstep
          exact h
      | some job =>
          obtain ⟨sys, hsys, hstep⟩ := bind_ok_iff.mp hstep
          cases hstep
          simp only [step] at hsys
          split at hsys
          · obtain ⟨store', hfinish, hsys⟩ := bind_ok_iff.mp hsys
            cases hsys
            exact hidle (finishJob_genuine ⟨h.1, h.2 job rfl⟩ hfinish)
          · cases hsys
            exact h

theorem genuine_of_run {events : List Event}
    (hrun : Run (archiveStep order cfg) (StartsGenuine content) initArchive events a) :
    a.Genuine cfg content := by
  refine hrun.invariant _ ⟨⟨fun i b hb => ?_, fun b hb => ?_⟩, fun job hjob => ?_⟩
    fun a e h hok => archiveStep_genuine h hok
  · have hnone : (∅ : IdMap Container).lookup i = none := AList.lookup_empty i
    rw [show initArchive.sys.store.pool.containers = ∅ from rfl, hnone] at hb
    cases hb
  · cases hb
  · cases hjob

/-- What a container says of its chunks: their extents follow each other without gap within the room of a
container, and each entry has the length and, where data are written, the bytes of its fingerprint. -/
structure Container.Holds (cfg : Config) (content : Fingerprint → List UInt8) (b : Container) :
    Prop where
  tiles : Consecutive 0 b.extents b.dataSize
  room : b.dataSize ≤ containerSize - containerMetaSize
  counted : b.chunkNum = b.map.entries.length
  buffered : b.data.isSome = cfg.simulationLevel.writesData
  entry : ∀ fp e, b.map.lookup fp = some e → e.len = (content fp).length ∧
    e.off + e.len ≤ b.dataSize ∧ ∀ d, b.data = some d → read d e.off e.len = content fp

theorem Container.Genuine.holds {b : Container} (h : b.Genuine cfg content) :
    b.Holds cfg content := by
  obtain ⟨chunks, hfilled, hchunks⟩ := h
  have hfill := hfilled.fillInv
  exact ⟨hfill.tiles, hfill.room, hfill.counted, hfill.data_isSome, fun fp e he =>
    Container.Genuine.entry ⟨chunks, hfilled, hchunks⟩ he⟩

/-- Containers are addressed by content: where each fingerprint stands for one string of bytes, every
container that is pushed or open in any state of a run holds, under each of its fingerprints, those
bytes, whichever chunks were found, stored or rewritten. -/
theorem containers_hold_contents {events : List Event}
    (hrun : Run (archiveStep order cfg) (StartsGenuine content) initArchive events a) :
    (∀ i b, a.sys.store.pool.containers.lookup i = some b →
      b.id = i ∧ b.isEmpty = false ∧ b.Holds cfg content) ∧
    ∀ job ∈ a.sys.job, ∀ b ∈ job.storage.containerBuffer, b.Holds cfg content := by
  obtain ⟨hpool, -⟩ := genuine_of_run hrun
  refine ⟨fun i b hb => ?_, fun job hjob b hb => ?_⟩
  · obtain ⟨hid, hnonempty, hgenuine⟩ := hpool.pushed i b hb
    exact ⟨hid, hnonempty, hgenuine.holds⟩
  · refine (hpool.opened b ?_).holds
    have hjob : a.sys.job = some job := hjob
    rw [hjob]
    exact hb

end Runs

section Example

def byteFile (bytes : List UInt8) : InputFile :=
  { name := [97], chunks := bytes.map fun b => { fp := .fill b, size := 1, data := [b] } }

def firstByte (fp : Fingerprint) : List UInt8 := [fp.byte 0]

def admitsGenuine (a : Archive) : Event → Bool
  | .start files => a.sys.job.isNone && files.all fun f => f.chunks.all fun c =>
      decide (c.data = firstByte c.fp ∧ c.data.length = c.size)
  | _ => true

theorem startsGenuine_of_admits {a : Archive} {e : Event} (h : admitsGenuine a e = true) :
    StartsGenuine firstByte a e := by
  cases e with
  | start files =>
      simp only [admitsGenuine, Bool.and_eq_true, Option.isNone_iff_eq_none, List.all_eq_true,
        decide_eq_true_eq] at h
      exact h
  | lookup | filter | finish | delete => trivial

def byteConfig : Config := { smallConfig .exact .physical with simulationLevel := .no }

/-- A running backup: the first of two copies of a chunk is in the open container. -/
theorem containers_hold_contents_two_copies : ∃ (a : Archive) (job : Job) (b : Container),
    a.sys.job = some job ∧ job.storage.containerBuffer = some b ∧ b.chunkNum = 1 ∧
      b.Holds byteConfig firstByte := by
  have hexec : (exec (archiveStep id byteConfig) admitsGenuine initArchive
      [.start [byteFile [1, 1]], .lookup 4, .lookup 4, .filter unmarked, .filter unmarked]).any
        (fun a => a.sys.job.any fun job => job.storage.containerBuffer.any fun b =>
          b.chunkNum == 1) = true := by decide +kernel
  obtain ⟨a, hexec, hjob⟩ := (Option.any_eq_true _ _).mp hexec
  obtain ⟨job, hjob, hopen⟩ := (Option.any_eq_true _ _).mp hjob
  obtain ⟨b, hopen, hnum⟩ := (Option.any_eq_true _ _).mp hopen
  exact ⟨a, job, b, hjob, hopen, beq_iff_eq.mp hnum, (containers_hold_contents
    (Run.of_exec (fun _ _ => startsGenuine_of_admits) hexec)).2 job hjob b hopen⟩

end Example

end Destor
