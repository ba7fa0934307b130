/- digest: The statistics of a backup run against the containers it creates and the recipe it
   writes. -/

import Destor.DedupThread
import Destor.RewriteDenied
import Destor.RunStatistics

set_option autoImplicit false
set_option relaxedAutoImplicit false

namespace Destor

open Library.Outcome Library.RelatedLists Library.Transition

def ContainerPool.createdSince (pool initial : ContainerPool) : List Container :=
  (pool.containers.entries.filter fun e => e.1 ∉ initial.containers.keys).map Sigma.snd

section Stock

variable {cfg : Config} {initial pool : ContainerPool} {storage : Option Container} {b : Container}
  {num size : Nat}

/-- `num` entries with `size` bytes were stored since the pool was `initial`: in the containers
filed since then and in the open one, which has the last id. -/
structure Stock (initial pool : ContainerPool) (storage : Option Container) (num size : Nat) :
    Prop where
  keys_lt : ∀ id ∈ pool.containers.keys, id < pool.containerCount
  kept : initial.containers.keys ⊆ pool.containers.keys
  open_last : ∀ b ∈ storage, b.id + 1 = pool.containerCount ∧ ∀ id ∈ pool.containers.keys, id < b.id
  open_empty : ∀ b ∈ storage, b.chunkNum = 0 → b.dataSize = 0
  num_eq : num = ((pool.createdSince initial).map fun c => c.chunkNum).sum +
    storage.elim 0 fun b => b.chunkNum
  size_eq : size = ((pool.createdSince initial).map fun c => c.dataSize).sum +
    storage.elim 0 fun b => b.dataSize

theorem createdSince_self (pool : ContainerPool) : pool.createdSince pool = [] := by
  have hnone : pool.containers.entries.filter (fun e => e.1 ∉ pool.containers.keys) = [] := by
    rw [List.filter_eq_nil_iff]
    intro e he
    have hkey : e.1 ∈ pool.containers.keys := List.mem_keys_of_mem he
    simpa using hkey
  rw [ContainerPool.createdSince, hnone, List.map_nil]

/-- A job starts with nothing stored. -/
theorem stock_start (h : ∀ id ∈ pool.containers.keys, id < pool.containerCount) :
    Stock pool pool none 0 0 :=
  ⟨h, fun _ h => h, by simp, by simp, by simp [createdSince_self], by simp [createdSince_self]⟩

/-- Filing a container under a new id. -/
theorem createdSince_insert (hkept : initial.containers.keys ⊆ pool.containers.keys)
    (hnew : b.id ∉ pool.containers.keys) (count : Nat) :
    ContainerPool.createdSince ⟨pool.containers.insert b.id b, count⟩ initial =
      b :: pool.createdSince initial := by
  have hinitial : b.id ∉ initial.containers.keys := fun h => hnew (hkept h)
  rw [ContainerPool.createdSince, AList.entries_insert_of_notMem hnew,
    List.filter_cons_of_pos (by simpa using hinitial), List.map_cons]
  rfl

/-- The open container is handed over. -/
theorem Stock.push (h : Stock initial pool (some b) num size) :
    Ensures (fun _ => True) (fun pool' => Stock initial pool' none num size)
      (writeContainerAsync pool b) := by
  obtain ⟨hlast, hbefore⟩ := h.open_last b rfl
  have hnew : b.id ∉ pool.containers.keys := fun hmem => absurd (hbefore b.id hmem) (lt_irrefl _)
  unfold writeContainerAsync
  apply (ensures_true _).bind
  intro _ _
  rw [ensures_pure]
  have hnum := h.num_eq
  have hsize := h.size_eq
  simp only [Option.elim_some] at hnum hsize
  split
  · rename_i hempty
    have hzero : b.chunkNum = 0 := by simpa [ContainerMeta.isEmpty] using hempty
    refine ⟨fun id hid => ?_, h.kept, by simp, by simp, ?_, ?_⟩
    · have hlt := hbefore id hid
      simp only
      omega
    · rw [hzero] at hnum
      exact hnum
    · rw [h.open_empty b rfl hzero] at hsize
      exact hsize
  · refine ⟨fun id hid => ?_, fun id hid => ?_, by simp, by simp, ?_, ?_⟩
    · simp only [AList.keys_insert, List.mem_cons] at hid
      rcases hid with rfl | hid
      · simp only
        omega
      · exact h.keys_lt id (List.mem_of_mem_erase hid)
    · rw [AList.keys_insert, List.mem_cons]
      by_cases heq : id = b.id
      · exact Or.inl heq
      · exact Or.inr ((List.mem_erase_of_ne heq).mpr (h.kept hid))
    · rw [createdSince_insert h.kept hnew, List.map_cons, List.sum_cons, hnum, Option.elim_none]
      omega
    · rw [createdSince_insert h.kept hnew, List.map_cons, List.sum_cons, hsize, Option.elim_none]
      omega

/-- A new container is opened. -/
theorem Stock.create (h : Stock initial pool none num size) (cfg : Config) :
    Stock initial (createContainer cfg pool).2 (some (createContainer cfg pool).1) num size := by
  refine ⟨fun id hid => ?_, h.kept, ?_, ?_, h.num_eq, h.size_eq⟩
  · have hlt := h.keys_lt id hid
    simp only [createContainer]
    omega
  · rintro b ⟨⟩
    refine ⟨by simp [createContainer], fun id hid => ?_⟩
    have hlt := h.keys_lt id hid
    simpa [createContainer] using hlt
  · rintro b ⟨⟩ -
    rfl

/-- A chunk enters the open container. -/
theorem Stock.append (h : Stock initial pool (some b) num size) (cfg : Config) (c : Chunk) :
    Stock initial pool (some (appendChunk cfg b c)) (num + 1) (size + c.size) := by
  have hnum := h.num_eq
  have hsize := h.size_eq
  simp only [Option.elim_some] at hnum hsize
  refine ⟨h.keys_lt, h.kept, ?_, ?_, ?_, ?_⟩
  · rintro b' ⟨⟩
    exact h.open_last b rfl
  · rintro b' ⟨⟩ hzero
    exact absurd hzero (Nat.succ_ne_zero _)
  · simp only [Option.elim_some, appendChunk]
    omega
  · simp only [Option.elim_some, appendChunk]
    omega

end Stock

section Filter

variable {cfg : Config} {initial : ContainerPool} {t : FilterState × Jcr} {st : FilterState}
  {num size : Nat}

theorem pushContainer_stock {b : Container} (h : Stock initial st.pool (some b) num size) :
    Ensures (fun _ => True)
      (fun st' => Stock initial st'.pool none num size ∧ st'.storage.containerBuffer = none)
      (pushContainer cfg st b) := by
  apply (ensures_true _).bind
  intro kv _
  apply h.push.bind
  intro pool hpool
  rw [ensures_pure]
  exact ⟨hpool, rfl⟩

theorem containerFor_stock (h : Stock initial st.pool st.storage.containerBuffer num size)
    (bytes : Nat) :
    Ensures (fun _ => True) (fun r => Stock initial r.1.pool (some r.2) num size)
      (containerFor cfg st bytes) := by
  unfold containerFor
  cases hstorage : st.storage.containerBuffer with
  | none =>
      rw [hstorage] at h
      exact h.create cfg
  | some b =>
      rw [hstorage] at h
      simp only
      split
      · apply (pushContainer_stock h).bind
        rintro st' ⟨hpool, -⟩
        rw [ensures_pure]
        exact hpool.create cfg
      · exact h

/-- The counters of the chunks written agree with the containers. -/
def Tallied (initial : ContainerPool) (t : FilterState × Jcr) : Prop :=
  Stock initial t.1.pool t.1.storage.containerBuffer t.2.storedChunkNum t.2.storedDataSize

structure Jcr.SameRecipe (jcr jcr' : Jcr) : Prop where
  fileNum_eq : jcr'.fileNum = jcr.fileNum
  chunkNum_eq : jcr'.chunkNum = jcr.chunkNum
  dataSize_eq : jcr'.dataSize = jcr.dataSize

theorem Jcr.SameRecipe.refl (jcr : Jcr) : jcr.SameRecipe jcr := ⟨rfl, rfl, rfl⟩

theorem Jcr.SameRecipe.trans {a b c : Jcr} (h : a.SameRecipe b) (h' : b.SameRecipe c) :
    a.SameRecipe c :=
  ⟨h'.fileNum_eq.trans h.fileNum_eq, h'.chunkNum_eq.trans h.chunkNum_eq,
    h'.dataSize_eq.trans h.dataSize_eq⟩

theorem Jcr.countWritten_sameRecipe (jcr : Jcr) (c : Chunk) :
    jcr.SameRecipe (jcr.countWritten c) := by
  unfold Jcr.countWritten
  split <;> exact ⟨rfl, rfl, rfl⟩

/-- One more chunk of some size was stored, as a unique or as a rewritten one. -/
theorem Jcr.countWritten_total (jcr : Jcr) (c : Chunk) :
    (jcr.countWritten c).storedChunkNum = jcr.storedChunkNum + 1 ∧
      (jcr.countWritten c).storedDataSize = jcr.storedDataSize + c.size := by
  simp only [Jcr.countWritten, Jcr.storedChunkNum, Jcr.storedDataSize]
  split
  · constructor <;> simp only <;> omega
  · constructor <;> simp only <;> omega

theorem addChunkToContainer_cases (cfg : Config) (b : Container) (c : Chunk) :
    Ensures (fun _ => True)
      (fun r => r = (true, appendChunk cfg b c, { c with id := b.id }) ∨
        r = (false, b, { c with id := b.id }))
      (addChunkToContainer cfg b c) := by
  apply ensures_of_ok
  intro r hok
  rcases (addChunkToContainer_ok hok).2 with ⟨_, hr⟩ | ⟨_, _, hr⟩
  · exact Or.inr hr
  · exact Or.inl hr

structure CountedStep (initial : ContainerPool) (t : FilterState × Jcr) (c : Chunk)
    (r : (FilterState × Jcr) × Chunk) : Prop where
  tallied : Tallied initial r.1
  recipe : t.2.SameRecipe r.1.2
  payload : c.SamePayload r.2

/-- A chunk is counted exactly if it was added. -/
theorem writeChunkCounted_ensures (h : Tallied initial t) (c : Chunk) :
    Ensures (fun _ => True) (CountedStep initial t c) (writeChunkCounted cfg t c) := by
  apply (containerFor_stock h c.size).bind
  rintro ⟨st, b⟩ hstock
  apply (addChunkToContainer_cases cfg b c).bind
  rintro r hr
  have hpayload : c.SamePayload { c with id := b.id } := ⟨rfl, rfl, rfl, rfl, rfl⟩
  rcases hr with rfl | rfl
  · apply (ensures_true _).bind
    intro _ _
    rw [ensures_pure]
    obtain ⟨hnum, hsize⟩ := t.2.countWritten_total { c with id := b.id }
    refine ⟨?_, t.2.countWritten_sameRecipe _, hpayload⟩
    unfold Tallied
    simp only [if_true]
    rw [hnum, hsize]
    exact hstock.append cfg c
  · apply (ensures_true _).bind
    intro _ _
    rw [ensures_pure]
    exact ⟨hstock, .refl t.2, hpayload⟩

theorem filterChunkCounted_ensures (h : Tallied initial t) (c : Chunk) :
    Ensures (fun _ => True) (CountedStep initial t c) (filterChunkCounted cfg t c) := by
  unfold filterChunkCounted
  split
  · refine (ensures_of_ok fun c₁ hc₁ => markInCache_cases hc₁).bind fun c₁ hc₁ => ?_
    refine (ensures_of_ok fun c₂ hc₂ => (resolveUnique_cases hc₂).1).bind fun c₂ hc₂ => ?_
    generalize hst : ({ t.1 with enableRewrite := switchRewrite cfg t.1 } : FilterState) = st
    have htallied : Tallied initial (st, t.2) := by
      subst hst
      exact h
    have hpayload : c.SamePayload (resolveRewritten st c₂) := by
      have hsame : c.SamePayload c₂ := by
        rw [hc₂, hc₁]
        exact ⟨rfl, rfl, rfl, rfl, rfl⟩
      apply hsame.trans
      unfold resolveRewritten
      split
      · exact ⟨rfl, rfl, rfl, rfl, rfl⟩
      · exact .refl c₂
    have hstore : Ensures (fun _ => True) (CountedStep initial (st, t.2) (resolveRewritten st c₂))
        (storeChunkCounted cfg (st, t.2) (resolveRewritten st c₂)) := by
      unfold storeChunkCounted
      split
      · exact writeChunkCounted_ensures htallied _
      · exact ⟨htallied, .refl t.2, .refl _⟩
    apply hstore.bind
    rintro ⟨t', c'⟩ hstep
    apply (ensures_true _).bind
    intro _ _
    rw [ensures_pure]
    exact ⟨hstep.tallied, hstep.recipe, hpayload.trans hstep.payload⟩
  · exact ⟨h, .refl t.2, .refl c⟩

/-- The loop of `filter_thread` over a segment. -/
theorem filterChunksCounted_ensures (h : Tallied initial t) (chunks : List Chunk) :
    Ensures (fun _ => True)
      (fun r => Tallied initial r.1 ∧ t.2.SameRecipe r.1.2 ∧
        List.Forall₂ Chunk.SamePayload chunks r.2)
      (traverseE (filterChunkCounted cfg) t chunks) := by
  have hloop := traverseE_ensures (fun _ => True) (f := filterChunkCounted cfg)
    (fun done t' rest => Tallied initial t' ∧ t.2.SameRecipe t'.2 ∧
      ∃ before, before ++ rest = chunks ∧ List.Forall₂ Chunk.SamePayload before done)
    (by
      rintro done t' c rest ⟨htallied, hrecipe, before, hsplit, hpayload⟩
      apply (filterChunkCounted_ensures htallied c).imp
      rintro ⟨t'', c'⟩ hstep
      refine ⟨hstep.tallied, hrecipe.trans hstep.recipe, before ++ [c], ?_, ?_⟩
      · rw [List.append_assoc, List.singleton_append, hsplit]
      · exact List.rel_append hpayload (.cons hstep.payload .nil))
    (s := t) (l := chunks) ⟨h, .refl t.2, [], rfl, .nil⟩
  apply hloop.imp
  rintro r ⟨htallied, hrecipe, before, hsplit, hpayload⟩
  rw [List.append_nil] at hsplit
  subst hsplit
  exact ⟨htallied, hrecipe, hpayload⟩

end Filter

section Recipe

def FilesEnded : Bool → List Chunk → Prop
  | inFile, [] => inFile = false
  | false, c :: stream => c.flag.fileStart = true ∧ FilesEnded true stream
  | true, c :: stream =>
      if c.flag.fileEnd then FilesEnded false stream else FilesEnded true stream

theorem FilesEnded.congr {inFile : Bool} {stream stream' : List Chunk}
    (h : List.Forall₂ Chunk.SamePayload stream stream') (hended : FilesEnded inFile stream) :
    FilesEnded inFile stream' := by
  induction h generalizing inFile with
  | nil => exact hended
  | cons hc _ ih =>
      cases inFile with
      | false =>
          refine ⟨?_, ih hended.2⟩
          rw [hc.signals_eq.1]
          exact hended.1
      | true =>
          unfold FilesEnded at hended ⊢
          rw [hc.signals_eq.2]
          split at hended
          · rename_i hend
            rw [if_pos hend]
            exact ih hended
          · rename_i hend
            rw [if_neg hend]
            exact ih hended

private theorem filesEnded_normals (chunks : List InputChunk) (rest : List Chunk) :
    FilesEnded true (chunks.map InputChunk.toChunk ++ rest) ↔ FilesEnded true rest := by
  induction chunks with
  | nil => rfl
  | cons c chunks ih => exact ih

theorem filesEnded_stream (files : List InputFile) :
    FilesEnded false (files.flatMap InputFile.stream) := by
  induction files with
  | nil => rfl
  | cons f files ih =>
      rw [List.flatMap_cons, InputFile.stream, List.cons_append, List.cons_append,
        List.append_assoc]
      exact ⟨rfl, (filesEnded_normals f.chunks _).mpr ih⟩

structure Described (jcr : Jcr) (bv : BackupVersion) (r : Option FileRecipeMeta) : Prop where
  files : jcr.fileNum = bv.metas.length
  chunks : jcr.chunkNum = (bv.metas.map FileRecipeMeta.chunknum).sum + r.elim 0 FileRecipeMeta.chunknum
  number : jcr.chunkNum = bv.numberOfChunks
  size : jcr.dataSize = (bv.metas.map FileRecipeMeta.filesize).sum + r.elim 0 FileRecipeMeta.filesize

theorem Jcr.countRecipe_stored (jcr : Jcr) (r : Option FileRecipeMeta) (c : Chunk) :
    (jcr.countRecipe r c).storedChunkNum = jcr.storedChunkNum ∧
      (jcr.countRecipe r c).storedDataSize = jcr.storedDataSize := by
  cases r with
  | none => exact ⟨rfl, rfl⟩
  | some r =>
      simp only [Jcr.countRecipe]
      split <;> exact ⟨rfl, rfl⟩

theorem writeRecipeChunkCounted_stored {t t' : (BackupVersion × Option FileRecipeMeta) × Jcr}
    {c : Chunk} (h : writeRecipeChunkCounted t c = .ok t') :
    t'.2.storedChunkNum = t.2.storedChunkNum ∧ t'.2.storedDataSize = t.2.storedDataSize := by
  obtain ⟨s, -, h⟩ := bind_ok_iff.mp h
  cases h
  exact t.2.countRecipe_stored t.1.2 c

theorem Described.congr {jcr jcr' : Jcr} {bv : BackupVersion} {r : Option FileRecipeMeta}
    (h : Described jcr bv r) (hsame : jcr.SameRecipe jcr') : Described jcr' bv r :=
  ⟨hsame.fileNum_eq.trans h.files, hsame.chunkNum_eq.trans h.chunks,
    hsame.chunkNum_eq.trans h.number, hsame.dataSize_eq.trans h.size⟩

theorem writeRecipeChunkCounted_ensures {t : (BackupVersion × Option FileRecipeMeta) × Jcr}
    (h : Described t.2 t.1.1 t.1.2) {c : Chunk} {rest : List Chunk}
    (hended : FilesEnded t.1.2.isSome (c :: rest)) :
    Ensures (fun _ => True)
      (fun t' => Described t'.2 t'.1.1 t'.1.2 ∧ FilesEnded t'.1.2.isSome rest)
      (writeRecipeChunkCounted t c) := by
  obtain ⟨⟨bv, r⟩, jcr⟩ := t
  have hfiles := h.files
  have hchunks := h.chunks
  have hnumber := h.number
  have hsize := h.size
  cases r with
  | none =>
      refine (ensures_of_ok fun s hs => ?_ : Ensures _ (fun s : BackupVersion × Option FileRecipeMeta =>
        s = (bv, some (newFileRecipeMeta c.data))) _).bind ?_
      · obtain ⟨-, -, hs⟩ := bind_ok_iff.mp hs
        cases hs
        rfl
      · rintro s rfl
        rw [ensures_pure]
        exact ⟨⟨hfiles, hchunks, hnumber, hsize⟩, hended.2⟩
  | some r =>
      simp only [Option.isSome_some, FilesEnded] at hended
      simp only [Option.elim_some] at hchunks hsize
      unfold writeRecipeChunkCounted
      simp only [writeRecipeChunk]
      split
      · rename_i hend
        rw [if_pos hend] at hended
        refine ⟨⟨?_, ?_, ?_, ?_⟩, hended⟩
        all_goals simp [Jcr.countRecipe, hend, appendFileRecipeMeta]
        all_goals omega
      · rename_i hend
        rw [if_neg hend] at hended
        apply ensures_of_ok
        intro t' ht'
        obtain ⟨s, hs, ht'⟩ := bind_ok_iff.mp ht'
        obtain ⟨-, -, hs⟩ := bind_ok_iff.mp hs
        obtain ⟨bv', hbv, hs⟩ := bind_ok_iff.mp hs
        obtain ⟨-, -, hbv⟩ := bind_ok_iff.mp hbv
        cases hbv
        cases hs
        cases ht'
        refine ⟨⟨?_, ?_, ?_, ?_⟩, hended⟩
        all_goals simp [Jcr.countRecipe, hend]
        all_goals omega

theorem writeRecipeChunksCounted_ensures {bv : BackupVersion} {r : Option FileRecipeMeta} {jcr : Jcr}
    (h : Described jcr bv r) {chunks later : List Chunk}
    (hended : FilesEnded r.isSome (chunks ++ later)) :
    Ensures (fun _ => True)
      (fun t => Described t.2 t.1.1 t.1.2 ∧ FilesEnded t.1.2.isSome later ∧
        t.2.storedChunkNum = jcr.storedChunkNum ∧ t.2.storedDataSize = jcr.storedDataSize)
      (foldE writeRecipeChunkCounted ((bv, r), jcr) chunks) := by
  refine foldE_ensures (fun _ => True)
    (fun (t : (BackupVersion × Option FileRecipeMeta) × Jcr) rest =>
      Described t.2 t.1.1 t.1.2 ∧ FilesEnded t.1.2.isSome (rest ++ later) ∧
      t.2.storedChunkNum = jcr.storedChunkNum ∧ t.2.storedDataSize = jcr.storedDataSize)
    ?_ ⟨h, hended, rfl, rfl⟩
  rintro t c rest ⟨h, hended, hnum, hsize⟩
  apply ((writeRecipeChunkCounted_ensures h hended).and_eq).imp
  rintro t' ⟨⟨hdescribed, hended'⟩, hok⟩
  obtain ⟨hnum', hsize'⟩ := writeRecipeChunkCounted_stored hok
  exact ⟨hdescribed, hended', hnum'.trans hnum, hsize'.trans hsize⟩

end Recipe

section Runs

variable {cfg : Config} {initial : ContainerPool} {store : Store} {job : Job} {jcr : Jcr}

/-- The chunks of a job that the filter thread has not processed yet. -/
def Job.remaining (job : Job) : List Chunk :=
  job.inflight.flatMap Segment.chunks ++ job.todo.flatMap Segment.chunks

/-- The statistics of a running job agree with its containers and with its recipe. -/
structure JobAccounted (initial : ContainerPool) (store : Store) (job : Job) (jcr : Jcr) : Prop where
  tallied : Tallied initial (job.filterState store, jcr)
  described : Described jcr job.bv job.fileMeta
  ended : FilesEnded job.fileMeta.isSome job.remaining

/-- The statistics agree in every state of the system. -/
def Accounted.Agrees (a : Accounted) : Prop :=
  match a.sys.job with
  | none => ∀ id ∈ a.sys.store.pool.containers.keys, id < a.sys.store.pool.containerCount
  | some job => JobAccounted a.initial a.sys.store job a.jcr

theorem newJob_accounted (h : ∀ id ∈ store.pool.containers.keys, id < store.pool.containerCount)
    {files : List InputFile} {segments : List Segment}
    (hsegment : segmentStream cfg newSegment (files.flatMap InputFile.stream) = .ok segments) :
    JobAccounted store.pool store (newJob cfg store segments) initJcr := by
  refine ⟨stock_start h, ⟨rfl, rfl, rfl, rfl⟩, ?_⟩
  have hstream : (newJob cfg store segments).remaining = files.flatMap InputFile.stream := by
    simp [Job.remaining, newJob, segmentStream_chunks hsegment, newSegment]
  rw [hstream]
  exact filesEnded_stream files

/-- A lookup changes only the ids and the marks of the chunks. -/
theorem lookupSegment_accounted (h : JobAccounted initial store job jcr) (waitThreshold : Int) :
    Ensures (fun _ => True) (fun job' => JobAccounted initial store job' jcr)
      (lookupSegment cfg store job waitThreshold) := by
  unfold lookupSegment
  cases htodo : job.todo with
  | nil => exact h
  | cons s todo =>
      have hended := h.ended
      simp only [Job.remaining, htodo, List.flatMap_cons] at hended
      simp only
      split
      · refine ⟨h.tallied, h.described, ?_⟩
        simpa [Job.remaining, List.append_assoc] using hended
      · split
        · exact h
        · apply (ensures_of_ok fun r hr => indexLookup_sameContents hr).bind
          rintro ⟨index, chunks⟩ hsame
          rw [ensures_pure]
          refine ⟨h.tallied, h.described, ?_⟩
          have hcongr : List.Forall₂ Chunk.SamePayload
              (job.inflight.flatMap Segment.chunks ++ (s.chunks ++ todo.flatMap Segment.chunks))
              (job.inflight.flatMap Segment.chunks ++ (chunks ++ todo.flatMap Segment.chunks)) :=
            List.rel_append (List.forall₂_same.mpr fun c _ => .refl c)
              (List.rel_append hsame.payload (List.forall₂_same.mpr fun c _ => .refl c))
          simpa [Job.remaining, List.append_assoc] using hended.congr hcongr

theorem filterSegmentCounted_accounted (h : JobAccounted initial store job jcr)
    (marks : Nat → Bool × Bool) :
    Ensures (fun _ => True) (fun r => JobAccounted initial r.1.1 r.1.2 r.2)
      (filterSegmentCounted cfg store job jcr marks) := by
  unfold filterSegmentCounted
  cases hinflight : job.inflight with
  | nil => exact h
  | cons s inflight =>
      have hended := h.ended
      simp only [Job.remaining, hinflight, List.flatMap_cons, List.append_assoc] at hended
      refine (ensures_of_ok fun chunks hchunks => indexCheckBuffer_forall₂ hchunks).bind
        fun chunks hchecked => ?_
      apply (filterChunksCounted_ensures h.tallied chunks).bind
      rintro ⟨⟨st, jcr'⟩, chunks'⟩ ⟨htallied, hrecipe, hpayload⟩
      apply (ensures_true _).bind
      intro buffer _
      -- the segment as it was in flight, and as it is written to the recipe
      have hmarked : List.Forall₂ Chunk.SamePayload s.chunks chunks' := by
        have hmarks := (applyMarks_marked cfg marks s.chunks).imp fun _ _ hm => hm.1
        have hchecks := hchecked.imp fun _ _ hc => checkBufferChunk_payload hc
        exact forall₂_trans (fun _ _ _ h h' => h.trans h')
          (forall₂_trans (fun _ _ _ h h' => h.trans h') hmarks hchecks) hpayload
      have hended' := hended.congr
        (List.rel_append hmarked (List.forall₂_same.mpr fun c _ => .refl c))
      have hdescribed : Described jcr' (appendSegmentStart job.bv
          (chunks.filter Chunk.isNormal).length).2 job.fileMeta := by
        obtain ⟨hfiles, hnum, hnumber, hsize⟩ := h.described.congr hrecipe
        exact ⟨hfiles, hnum, hnumber, hsize⟩
      apply (writeRecipeChunksCounted_ensures hdescribed hended').bind
      rintro ⟨⟨bv, fileMeta⟩, jcr''⟩ ⟨hdescribed', hended'', hnum, hsize⟩
      apply (ensures_true _).bind
      intro kv _
      rw [ensures_pure]
      refine ⟨?_, ?_, hended''⟩
      · unfold Tallied
        rw [hnum, hsize]
        exact htallied
      · obtain ⟨hfiles, hnum, hnumber, hsize⟩ := hdescribed'
        exact ⟨hfiles, hnum, hnumber, hsize⟩

theorem Stock.drop {pool : ContainerPool} {b : Container} {num size : Nat}
    (h : Stock initial pool (some b) num size) (hempty : b.isEmpty = true) :
    Stock initial pool none num size := by
  have hzero : b.chunkNum = 0 := by simpa [ContainerMeta.isEmpty] using hempty
  have hnum := h.num_eq
  have hsize := h.size_eq
  simp only [Option.elim_some, hzero, h.open_empty b rfl hzero] at hnum hsize
  exact ⟨h.keys_lt, h.kept, by simp, by simp, hnum, hsize⟩

theorem closeStorage_stock {st : FilterState} {num size : Nat}
    (h : Stock initial st.pool st.storage.containerBuffer num size) :
    Ensures (fun _ => True) (fun st' => Stock initial st'.pool none num size)
      (closeStorage cfg st) := by
  unfold closeStorage
  cases hstorage : st.storage.containerBuffer with
  | none =>
      rw [hstorage] at h
      exact h
  | some b =>
      rw [hstorage] at h
      simp only
      split
      · rename_i hempty
        exact h.drop hempty
      · exact (pushContainer_stock h).imp fun _ h => h.1

theorem finishJob_stock (h : JobAccounted initial store job jcr) :
    Ensures (fun _ => True)
      (fun store' => Stock initial store'.pool none jcr.storedChunkNum jcr.storedDataSize ∧
        store'.backups = store.backups ++ [updateBackupVersion job.bv])
      (finishJob cfg store job) := by
  apply (closeStorage_stock h.tallied).bind
  intro st hst
  rw [ensures_pure]
  exact ⟨hst, rfl⟩

theorem Accounted.step_agrees {a : Accounted} (h : a.Agrees) (e : Event) :
    Ensures (fun _ => True) Accounted.Agrees (a.step cfg e) := by
  obtain ⟨⟨store, job⟩, jcr, initial⟩ := a
  cases job with
  | none =>
      cases e with
      | start files =>
          apply ensures_of_ok
          intro a' hstep
          obtain ⟨sys, hsys, heq⟩ := bind_ok_iff.mp hstep
          obtain ⟨segments, hsegment, rfl⟩ := step_start hsys
          cases heq
          exact newJob_accounted h hsegment
      | delete jobid =>
          refine (ensures_of_ok fun sys hsys => ?_ : Ensures _ (fun sys : System =>
            sys.job = none ∧ sys.store.pool = store.pool) _).bind ?_
          · obtain ⟨store', hdelete, hsys⟩ := bind_ok_iff.mp hsys
            obtain ⟨r, -, hdelete⟩ := bind_ok_iff.mp hdelete
            obtain ⟨bv, -, hdelete⟩ := bind_ok_iff.mp hdelete
            obtain ⟨kv, -, hdelete⟩ := bind_ok_iff.mp hdelete
            cases hdelete
            cases hsys
            exact ⟨rfl, rfl⟩
          · rintro ⟨store', job'⟩ ⟨hjob, hpool⟩
            cases hjob
            rw [ensures_pure]
            simp only at hpool
            simpa only [Accounted.Agrees, hpool] using h
      | lookup | filter | finish => exact h
  | some job =>
      cases e with
      | start | delete => exact h
      | lookup waitThreshold =>
          refine ((lookupSegment_accounted h waitThreshold).bind (R := fun sys : System =>
            ∃ job', sys = ⟨store, some job'⟩ ∧ JobAccounted initial store job' jcr) ?_).bind ?_
          · intro job' hjob'
            rw [ensures_pure]
            exact ⟨job', rfl, hjob'⟩
          · rintro sys ⟨job', rfl, hjob'⟩
            exact hjob'
      | filter marks =>
          apply (filterSegmentCounted_accounted h marks).bind
          rintro ⟨⟨store', job'⟩, jcr'⟩ hjob'
          exact hjob'
      | finish =>
          simp only [Accounted.step, Destor.step]
          split
          · refine (((finishJob_stock h).imp fun _ h => h.1).bind (R := fun sys : System =>
              ∃ store', sys = ⟨store', none⟩ ∧
                Stock initial store'.pool none jcr.storedChunkNum jcr.storedDataSize) ?_).bind ?_
            · intro store' hstore'
              rw [ensures_pure]
              exact ⟨store', rfl, hstore'⟩
            · rintro sys ⟨store', rfl, hstore'⟩
              exact hstore'.keys_lt
          · exact h

theorem agrees_of_run {events : List Event} {a : Accounted}
    (hrun : Run (Accounted.step cfg) (fun _ _ => True) initAccounted events a) : a.Agrees := by
  have hinit : initAccounted.Agrees := by
    intro id hid
    exact absurd hid (by simp [initAccounted, initSystem, emptyStore])
  exact hrun.invariant Accounted.Agrees hinit fun a e h _ => Accounted.step_agrees h e

/-- A job whose segments have all been processed leaves a store for which its statistics hold. -/
theorem finish_accounted {a a' : Accounted} (h : a.Agrees) (hjob : a.sys.job = some job)
    (hdone : job.todo = [] ∧ job.inflight = []) (hfinish : a.step cfg .finish = .ok a') :
    a'.jcr = a.jcr ∧ Described a.jcr job.bv none ∧
      Stock a.initial a'.sys.store.pool none a.jcr.storedChunkNum a.jcr.storedDataSize ∧
      a'.sys.store.backups = a.sys.store.backups ++ [updateBackupVersion job.bv] := by
  obtain ⟨⟨store, running⟩, jcr, initial⟩ := a
  cases hjob
  have hended := h.ended
  have hmeta : job.fileMeta = none := by
    simpa [Job.remaining, hdone.1, hdone.2, FilesEnded] using hended
  have hdescribed := h.described
  rw [hmeta] at hdescribed
  simp only [Accounted.step, Destor.step, if_pos hdone] at hfinish
  obtain ⟨sys, hsys, hfinish⟩ := bind_ok_iff.mp hfinish
  obtain ⟨store', hstore', hsys⟩ := bind_ok_iff.mp hsys
  cases hsys
  cases hfinish
  obtain ⟨hstock, hbackups⟩ := (finishJob_stock h).of_ok hstore'
  exact ⟨rfl, hdescribed, hstock, hbackups⟩

/-- At the end of a backup the counters of the chunks written are those of the containers created in
the run, the others are those of the recipe, and the ratio compares the bytes of the two. -/
theorem stored_size_accounting {events : List Event} {a a' : Accounted}
    (hrun : Run (Accounted.step cfg) (fun _ _ => True) initAccounted events a)
    (hjob : a.sys.job = some job) (hdone : job.todo = [] ∧ job.inflight = [])
    (hfinish : a.step cfg .finish = .ok a') :
    ∃ bv, a'.sys.store.backups = a.sys.store.backups ++ [bv] ∧
      a'.jcr.uniqueChunkNum + a'.jcr.rewrittenChunkNum =
        ((a'.sys.store.pool.createdSince a.initial).map fun c => c.chunkNum).sum ∧
      a'.jcr.uniqueDataSize + a'.jcr.rewrittenChunkSize =
        ((a'.sys.store.pool.createdSince a.initial).map fun c => c.dataSize).sum ∧
      a'.jcr.dataSize = (bv.metas.map FileRecipeMeta.filesize).sum ∧
      a'.jcr.chunkNum = bv.numberOfChunks ∧
      a'.jcr.chunkNum = (bv.metas.map FileRecipeMeta.chunknum).sum ∧
      (a'.jcr.dataSize ≠ 0 → a'.jcr.deduplicationRatio =
        1 - ((((a'.sys.store.pool.createdSince a.initial).map fun c => c.dataSize).sum : Nat) : Rat) /
          ((bv.metas.map FileRecipeMeta.filesize).sum : Nat)) := by
  obtain ⟨hjcr, hdescribed, hstock, hbackups⟩ :=
    finish_accounted (agrees_of_run hrun) hjob hdone hfinish
  have hnum := hstock.num_eq
  have hsize := hstock.size_eq
  have hchunks := hdescribed.chunks
  have hbytes := hdescribed.size
  simp only [Option.elim_none, Nat.add_zero] at hnum hsize hchunks hbytes
  rw [hjcr]
  refine ⟨updateBackupVersion job.bv, hbackups, hnum, hsize, hbytes, hdescribed.number, hchunks,
    fun hne => ?_⟩
  have hne' : (a.jcr.dataSize : Rat) ≠ 0 := by exact_mod_cast hne
  have hsum : (job.bv.metas.map FileRecipeMeta.filesize).sum = a.jcr.dataSize := hbytes.symm
  rw [← hsize]
  change a.jcr.deduplicationRatio = 1 - (a.jcr.storedDataSize : Rat) /
    ((job.bv.metas.map FileRecipeMeta.filesize).sum : Nat)
  rw [hsum, Jcr.deduplicationRatio, if_pos hne, Jcr.storedDataSize, one_sub_div hne']
  push_cast
  rw [sub_sub]

/-- A backup of three chunks of eight bytes, two of them equal. -/
theorem stored_size_accounting_two_copies : ∃ (a' : Accounted) (bv : BackupVersion),
    a'.jcr.dataSize = 24 ∧ a'.jcr.storedDataSize = 16 ∧
      a'.jcr.uniqueDataSize + a'.jcr.rewrittenChunkSize =
        ((a'.sys.store.pool.createdSince initAccounted.initial).map fun c => c.dataSize).sum ∧
      a'.jcr.dataSize = (bv.metas.map FileRecipeMeta.filesize).sum ∧
      a'.jcr.chunkNum = bv.numberOfChunks := by
  have hexec : (exec (Accounted.step (smallConfig .exact .physical)) (fun _ _ => true) initAccounted
      (.start [smallFile [1, 2, 1]] ::
        (List.replicate 4 [Event.lookup 4, .filter unmarked]).flatten)).any (fun a =>
      (a.sys.job.any fun job => decide (job.todo = [] ∧ job.inflight = [])) &&
        decide (a.initial.containers.keys = []) &&
        (a.step (smallConfig .exact .physical) .finish).toOption.any fun a' =>
          decide (a'.jcr.dataSize = 24 ∧ a'.jcr.storedDataSize = 16)) = true := by
    decide +kernel
  obtain ⟨a, ha, hcheck⟩ := (Option.any_eq_true _ _).mp hexec
  simp only [Bool.and_eq_true, Option.any_eq_true, decide_eq_true_eq] at hcheck
  obtain ⟨⟨⟨job, hjob, hdone⟩, hinitial⟩, a', hfinish, hdata, hstored⟩ := hcheck
  have hok : a.step (smallConfig .exact .physical) .finish = .ok a' := by
    cases hstep : a.step (smallConfig .exact .physical) .finish with
    | error e => simp [hstep, Except.toOption] at hfinish
    | ok a'' =>
        rw [hstep] at hfinish
        exact congrArg Except.ok (Option.some.inj hfinish)
  obtain ⟨bv, -, -, hsize, hbytes, hnumber, -⟩ :=
    stored_size_accounting (Run.of_exec (fun _ _ _ => trivial) ha) hjob hdone hok
  refine ⟨a', bv, hdata, hstored, ?_, hbytes, hnumber⟩
  have hempty : a.initial.containers.keys = initAccounted.initial.containers.keys := hinitial
  rw [hsize, ContainerPool.createdSince, ContainerPool.createdSince, hempty]

end Runs

end Destor
