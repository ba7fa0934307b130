/- digest: History-aware rewriting over many backups: none refers to a container that the one before it
   recorded as sparse. -/

import Destor.RecordedFiles
import Destor.RewriteDenied
import Destor.WorkingDirectory

set_option autoImplicit false
set_option relaxedAutoImplicit false

namespace Destor

open Library.Outcome Library.Transition Library.RelatedLists Library.PathName Library.SortedSeq

/-- The settings of history-aware rewriting, and what the environment leaves open: the memory that
`init_har` scans into, and the order in which the hash table delivers the monitor. -/
structure HarSettings where
  threshold : Rat
  limit : Rat
  directory : WorkingDirectory
  fresh : ContainerRecord
  buf : List UInt8
  monitorOrder : List ContainerRecord → List ContainerRecord
  monitorOrder_perm : ∀ records, (monitorOrder records).Perm records

/-- The system with the inherited sparse containers of every backup that started, what `close_har` left
of each that ended, and the `.sparse` files by the components of their paths. -/
structure HarBackups where
  sys : System
  tables : List (IdMap Int)
  closed : List HarClosed
  disk : Bool → List (List UInt8) → Option (List UInt8)

def initHarBackups : HarBackups :=
  { sys := initSystem, tables := [], closed := [], disk := fun _ _ => none }

/-- `inherited_sparse_containers` of the running backup. -/
def HarBackups.inherited (h : HarBackups) : IdMap Int := h.tables.getLast?.getD ∅

def HarBackups.files (h : HarBackups) : Files := fun path => h.disk (isAbsolute path) (components path)

/-- The marks of a rewrite phase in which `har_check` decides about `CHUNK_SPARSE`. -/
def harMarks (inherited : IdMap Int) (chunks : List Chunk) (marks : Nat → Bool × Bool) (i : Nat) :
    Bool × Bool :=
  (chunks[i]?.any fun c => (harCheck inherited c).flag.sparse, (marks i).2)

def Job.nextChunks (job : Job) : List Chunk := (job.inflight.head?.map Segment.chunks).getD []

/-- A step of the system with `init_har` at the start of a backup, `har_check` in its rewrite phase,
and `close_har` at its end. -/
def harStep (settings : HarSettings) (cfg : Config) (h : HarBackups) (e : Event) :
    Except Abort HarBackups :=
  match e, h.sys.job with
  | .start files, none => do
      let sys ← step cfg h.sys (.start files)
      return { h with
        sys := sys
        tables := h.tables ++ [initHar settings.fresh settings.buf settings.directory.path h.files
          h.sys.store.backups.length] }
  | .filter marks, some job => do
      let sys ← step cfg h.sys (.filter (harMarks h.inherited job.nextChunks marks))
      return { h with sys := sys }
  | .finish, some job =>
      if job.todo = [] ∧ job.inflight = [] then do
        let sys ← step cfg h.sys .finish
        let closed ← closeHar settings.threshold settings.limit settings.directory.path job.bv.bvNum
          h.inherited (settings.monitorOrder (monitorRecords job.monitor))
        return {
          sys := sys
          tables := h.tables
          closed := h.closed ++ [closed]
          disk := fun absolute path =>
            if absolute = isAbsolute closed.path ∧ path = components closed.path then
              some closed.content
            else h.disk absolute path }
      else .ok h
  | e, _ => do
      let sys ← step cfg h.sys e
      return { h with sys := sys }

/-- A container that a backup may refer to: one that it made itself, of ids from `start` on, or one
that it does not inherit as sparse. -/
def Usable (start : Nat) (inherited : IdMap Int) (id : Int) : Prop :=
  (start : Int) ≤ id ∨ inherited.lookup id = none

section Lookup

variable {cfg : Config} {source : IndexSource} {storage : Option Container} {st st' : IndexState}
  {c c' : Chunk} {chunks chunks' : List Chunk} {good : Int → Prop} {fp : Fingerprint}

/-- Where a lookup took the id of a chunk from: the open container, which alone denies a rewrite; a
queue of the index buffer; or elsewhere. -/
inductive LookedUp (storage : Option Container) (buffer : IndexBuffer) (c' : Chunk) : Prop
  | stored (b : Container) (hopen : storage = some b) (hid : c'.id = b.id)
  | buffered (bq : List Int) (hbq : buffer.bufferedFingerprints.lookup c'.fp = some bq)
      (hid : c'.id = bq.headD temporaryId) (hdenied : c'.flag.rewriteDenied = false)
  | other (hbq : buffer.bufferedFingerprints.lookup c'.fp = none)
      (hdenied : c'.flag.rewriteDenied = false)

/-- What the fingerprint cache and the key-value store do to a chunk: they leave a duplicate as it is, and
of another one at most set the id and the mark of a duplicate. -/
private structure AskedIndex (c c' : Chunk) : Prop where
  fp_eq : c'.fp = c.fp
  normal_eq : c'.isNormal = c.isNormal
  denied_eq : c'.flag.rewriteDenied = c.flag.rewriteDenied
  duplicate : c.flag.duplicate = true → c' = c

private theorem AskedIndex.refl (c : Chunk) : AskedIndex c c := ⟨rfl, rfl, rfl, fun _ => rfl⟩

private theorem AskedIndex.trans {c'' : Chunk} (h : AskedIndex c c') (h' : AskedIndex c' c'') :
    AskedIndex c c'' := by
  refine ⟨h'.fp_eq.trans h.fp_eq, h'.normal_eq.trans h.normal_eq, h'.denied_eq.trans h.denied_eq,
    fun hdup => ?_⟩
  have heq := h.duplicate hdup
  rw [h'.duplicate (heq ▸ hdup), heq]

private theorem askedIndex_found (hdup : ¬ c.flag.duplicate = true) (id : Int) :
    AskedIndex c (if id ≠ temporaryId then setDuplicate c id else c) := by
  split
  · exact ⟨rfl, rfl, rfl, fun h => absurd h hdup⟩
  · exact .refl c

private theorem checkFingerprintCache_asked {cache cache' : LruCache CacheUnit}
    (h : checkFingerprintCache cache c = .ok (cache', c')) : AskedIndex c c' := by
  rw [checkFingerprintCache] at h
  split at h
  · cases h
    exact .refl c
  · rename_i hdup
    obtain ⟨⟨id, cache₁⟩, -, h⟩ := bind_ok_iff.mp h
    cases h
    exact askedIndex_found hdup id

private theorem checkKvstore_asked {cache cache' : LruCache CacheUnit}
    (h : checkKvstore cfg source cache c = .ok (cache', c')) : AskedIndex c c' := by
  rw [checkKvstore] at h
  split at h
  · cases h
    exact .refl c
  · rename_i hdup
    split at h
    · cases h
      exact .refl c
    · obtain ⟨cache₁, -, h⟩ := bind_ok_iff.mp h
      obtain ⟨⟨id, cache₂⟩, -, h⟩ := bind_ok_iff.mp h
      cases h
      exact askedIndex_found hdup id

theorem lookupChunk_lookedUp {ask : Bool} (hfresh : c.Fresh) (hnormal : c.isNormal = true)
    (h : lookupChunk cfg ask source storage st c = .ok (st', c')) :
    st'.buffer = pushIndexElem st.buffer c'.fp c'.id ∧ c'.isNormal = true ∧
      LookedUp storage st.buffer c' := by
  rw [lookupChunk, if_pos hnormal] at h
  obtain ⟨⟨cache₁, c₁⟩, hcache, h⟩ := bind_ok_iff.mp h
  have hasked : st'.buffer = pushIndexElem st.buffer c'.fp c'.id ∧
      AskedIndex (checkIndexBuffer st.buffer (checkStorageBuffer storage c)) c' := by
    have hfirst := checkFingerprintCache_asked hcache
    dsimp only at h
    split at h
    · obtain ⟨⟨cache₂, c₂⟩, hkv, h⟩ := bind_ok_iff.mp h
      cases h
      exact ⟨rfl, hfirst.trans (checkKvstore_asked hkv)⟩
    · cases h
      exact ⟨rfl, hfirst⟩
  obtain ⟨hpush, hasked⟩ := hasked
  have hdenied : c.flag.rewriteDenied = false := hfresh.unmarked.2.2.2
  rcases checkStorageBuffer_cases storage c with ⟨b, hopen, -, heq⟩ | ⟨-, heq⟩
  · -- the open container has the chunk
    have hbuffer : checkIndexBuffer st.buffer (checkStorageBuffer storage c) =
        { c with id := b.id, flag := { c.flag with duplicate := true, rewriteDenied := true } } := by
      rw [heq, checkIndexBuffer]
      split <;> rfl
    rw [hbuffer] at hasked
    exact ⟨hpush, hasked.normal_eq.trans hnormal, .stored b hopen (by rw [hasked.duplicate rfl])⟩
  · rw [heq, checkIndexBuffer] at hasked
    cases hbq : st.buffer.bufferedFingerprints.lookup c.fp with
    | some bq =>
        rw [hbq] at hasked
        dsimp only at hasked
        rw [if_neg (by rw [hfresh.not_duplicate]; exact Bool.false_ne_true)] at hasked
        obtain rfl := hasked.duplicate rfl
        exact ⟨hpush, hnormal, .buffered bq hbq rfl hdenied⟩
    | none =>
        rw [hbq] at hasked
        refine ⟨hpush, hasked.normal_eq.trans hnormal, .other ?_ (hasked.denied_eq.trans hdenied)⟩
        rw [hasked.fp_eq]
        exact hbq

/-- A queue of the index buffer against the pending copies: where a copy is older than the head, the
head is an id that the backup may use. -/
def Headed (good : Int → Prop) (q : Option (List Int)) (copies : List Chunk) : Prop :=
  match q with
  | none => copies = []
  | some bq => bq ≠ [] ∧ ∀ c ∈ copies, c.id < bq.headD temporaryId → good (bq.headD temporaryId)

/-- Another copy is queued. -/
theorem Headed.push (hopen : ∀ b ∈ storage, ∀ i, b.id ≤ i → good i) {copies : List Chunk}
    (h : Headed good (st.buffer.bufferedFingerprints.lookup c'.fp) copies)
    (hlooked : LookedUp storage st.buffer c') :
    Headed good ((pushIndexElem st.buffer c'.fp c'.id).bufferedFingerprints.lookup c'.fp)
      (copies ++ [c']) := by
  rw [lookup_pushIndexElem, if_pos rfl]
  cases hbq : st.buffer.bufferedFingerprints.lookup c'.fp with
  | none =>
      rw [hbq] at h
      obtain rfl : copies = [] := h
      refine ⟨List.cons_ne_nil _ _, fun c hc hlt => ?_⟩
      obtain rfl := List.mem_singleton.mp hc
      exact absurd hlt (lt_irrefl _)
  | some bq =>
      rw [hbq] at h
      obtain ⟨hne, hold⟩ := h
      obtain ⟨id, ids, rfl⟩ := List.exists_cons_of_ne_nil hne
      refine ⟨List.cons_ne_nil _ _, fun c hc hlt => ?_⟩
      rcases List.mem_append.mp hc with hc | hc
      · exact hold c hc hlt
      · obtain rfl := List.mem_singleton.mp hc
        cases hlooked with
        | stored b hb hid => exact hopen b hb id (hid ▸ Int.le_of_lt hlt)
        | buffered bq' hbq' hid _ =>
            rw [hbq] at hbq'
            cases hbq'
            exact absurd hlt (hid ▸ lt_irrefl _)
        | other hnone _ => exact absurd (hbq.symm.trans hnone) (Option.some_ne_none _)

/-- A segment is looked up: the queues stay in order, and only what the open container has is denied a
rewrite. -/
theorem lookupChunks_headed (hopen : ∀ b ∈ storage, ∀ i, b.id ≤ i → good i) (ask : Bool)
    {pending : Fingerprint → List Chunk}
    (hheads : ∀ fp, Headed good (st.buffer.bufferedFingerprints.lookup fp) (pending fp))
    (hfresh : ∀ c ∈ chunks, c.Fresh) :
    Ensures (fun _ => True)
      (fun r => (∀ fp, Headed good (r.1.buffer.bufferedFingerprints.lookup fp)
          (pending fp ++ copiesOf fp r.2)) ∧
        ∀ c ∈ r.2, c.flag.rewriteDenied = true → good c.id)
      (traverseE (lookupChunk cfg ask source storage) st chunks) := by
  refine (traverseE_ensures (fun _ => True)
    (fun done (st : IndexState) rest =>
      (∀ fp, Headed good (st.buffer.bufferedFingerprints.lookup fp) (pending fp ++ copiesOf fp done)) ∧
      (∀ c ∈ done, c.flag.rewriteDenied = true → good c.id) ∧ ∀ c ∈ rest, c.Fresh)
    ?_ ⟨fun fp => ?_, fun c hc => absurd hc List.not_mem_nil, hfresh⟩).imp fun r h => ⟨h.1, h.2.1⟩
  · rintro done st c rest ⟨hheads, hdenied, hfresh⟩
    obtain ⟨hc, hrest⟩ := List.forall_mem_cons.mp hfresh
    apply ensures_of_ok
    intro r hok
    obtain ⟨st', c'⟩ := r
    cases hnormal : c.isNormal with
    | false =>
        rw [lookupChunk_signal hnormal] at hok
        cases hok
        refine ⟨fun fp => ?_, fun c₁ hc₁ hflag => ?_, hrest⟩
        · simpa [copiesOf_cons, hnormal] using hheads fp
        · rcases List.mem_append.mp hc₁ with hc₁ | hc₁
          · exact hdenied c₁ hc₁ hflag
          · obtain rfl := List.mem_singleton.mp hc₁
            rw [hc.unmarked.2.2.2] at hflag
            cases hflag
    | true =>
        obtain ⟨hpush, hnormal', hlooked⟩ := lookupChunk_lookedUp hc hnormal hok
        refine ⟨fun fp => ?_, fun c₁ hc₁ hflag => ?_, hrest⟩
        · dsimp only
          rw [hpush]
          by_cases hfp : fp = c'.fp
          · subst hfp
            have hnext := (hheads c'.fp).push hopen hlooked
            simpa [copiesOf_cons, hnormal', List.append_assoc] using hnext
          · have hne : ¬ c'.fp = fp := fun h => hfp h.symm
            rw [lookup_pushIndexElem, if_neg hfp]
            simpa [copiesOf_cons, hne] using hheads fp
        · rcases List.mem_append.mp hc₁ with hc₁ | hc₁
          · exact hdenied c₁ hc₁ hflag
          · obtain rfl := List.mem_singleton.mp hc₁
            cases hlooked with
            | stored b hb hid => exact hopen b hb _ (Int.le_of_eq hid.symm)
            | buffered _ _ _ hno => exact absurd (hflag.symm.trans hno) (by decide)
            | other _ hno => exact absurd (hflag.symm.trans hno) (by decide)
  · simpa using hheads fp

end Lookup

section Filter

variable {cfg : Config} {st st' : FilterState} {b : Container} {c c' : Chunk} {start : Nat}
  {good : Int → Prop}

/-- The containers at hand while a segment is processed are those that the backup made: it found the ids
from `start` on free. -/
structure OwnContainers (start : Nat) (st : FilterState) : Prop where
  next : start ≤ st.pool.containerCount
  opened : ∀ b ∈ st.storage.containerBuffer, (start : Int) ≤ b.id ∧ b.id < st.pool.containerCount
  unique : ∀ fp id, st.recentlyUnique.lookup fp = some id → (start : Int) ≤ id
  rewritten : ∀ fp id, st.recentlyRewritten.lookup fp = some id → (start : Int) ≤ id

/-- The monitor has containers that the backup may use, with sizes of 32 bits. -/
def Monitored (good : Int → Prop) (monitor : IdMap Int) : Prop :=
  ∀ i size, monitor.lookup i = some size → good i ∧ -2 ^ 31 ≤ size ∧ size < 2 ^ 31

theorem Monitored.update {monitor : IdMap Int} {id : Int} (h : Monitored good monitor) (hid : good id)
    (size : Nat) : Monitored good (harMonitorUpdate monitor id size) := by
  intro i total hi
  rw [harMonitorUpdate] at hi
  by_cases heq : i = id
  · rw [heq, AList.lookup_insert] at hi
    cases hi
    have hlow := Int.le_bmod (x := (monitor.lookup id).getD 0 + size) (m := 2 ^ 32) (by decide)
    have hhigh := Int.bmod_lt (x := (monitor.lookup id).getD 0 + size) (m := 2 ^ 32) (by decide)
    rw [heq, toInt32]
    exact ⟨hid, by omega, by omega⟩
  · rw [AList.lookup_insert_ne heq] at hi
    exact h i total hi

/-- A new container gets the next id. -/
theorem pushContainer_count (hok : pushContainer cfg st b = .ok st') :
    st'.pool.containerCount = (if b.isEmpty then st.pool.containerCount - 1
      else st.pool.containerCount) ∧ st'.recentlyUnique = st.recentlyUnique ∧
      st'.recentlyRewritten = st.recentlyRewritten ∧ st'.monitor = st.monitor := by
  obtain ⟨kv, -, hok⟩ := bind_ok_iff.mp hok
  obtain ⟨pool, hpool, hok⟩ := bind_ok_iff.mp hok
  obtain ⟨-, -, hpool⟩ := bind_ok_iff.mp hpool
  cases hok
  cases hpool
  refine ⟨?_, rfl, rfl, rfl⟩
  dsimp only
  split <;> rfl

theorem containerFor_own (h : OwnContainers start st) {size : Nat}
    (hok : containerFor cfg st size = .ok (st', b)) :
    start ≤ st'.pool.containerCount ∧ (start : Int) ≤ b.id ∧ b.id < st'.pool.containerCount ∧
      st'.recentlyUnique = st.recentlyUnique ∧ st'.recentlyRewritten = st.recentlyRewritten ∧
      st'.monitor = st.monitor := by
  have hnew : ∀ n : Nat, start ≤ n → start ≤ n + 1 ∧ (start : Int) ≤ (n : Int) ∧
      (n : Int) < ((n + 1 : Nat) : Int) := by
    intro n hn
    omega
  rw [containerFor] at hok
  cases hb : st.storage.containerBuffer with
  | none =>
      rw [hb] at hok
      cases hok
      obtain ⟨hnext, hle, hlt⟩ := hnew _ h.next
      exact ⟨hnext, hle, hlt, rfl, rfl, rfl⟩
  | some b₀ =>
      rw [hb] at hok
      obtain ⟨hle₀, hlt₀⟩ := h.opened b₀ hb
      dsimp only at hok
      split at hok
      · obtain ⟨st₁, hpush, hok⟩ := bind_ok_iff.mp hok
        obtain ⟨hcount, hunique, hrewritten, hmonitor⟩ := pushContainer_count hpush
        cases hok
        have hnext₁ : start ≤ st₁.pool.containerCount := by
          rw [hcount]
          split <;> omega
        obtain ⟨hnext, hle, hlt⟩ := hnew _ hnext₁
        exact ⟨hnext, hle, hlt, hunique, hrewritten, hmonitor⟩
      · cases hok
        exact ⟨h.next, hle₀, hlt₀, rfl, rfl, rfl⟩

/-- What is written goes to a container of the backup. -/
theorem writeChunk_own (h : OwnContainers start st) (hok : writeChunk cfg st c = .ok (st', c')) :
    OwnContainers start st' ∧ (start : Int) ≤ c'.id ∧ st'.monitor = st.monitor := by
  obtain ⟨⟨st₁, b⟩, hroom, hok⟩ := bind_ok_iff.mp hok
  obtain ⟨hnext, hle, hlt, hunique, hrewritten, hmonitor⟩ := containerFor_own h hroom
  obtain ⟨⟨added, b', c'⟩, hadd, hok⟩ := bind_ok_iff.mp hok
  obtain ⟨-, -, hok⟩ := bind_ok_iff.mp hok
  cases hok
  have hcases := (addChunkToContainer_cases cfg b c).of_ok hadd
  have hids : c'.id = b.id ∧ b'.id = b.id := by
    rcases hcases with hcase | hcase <;> cases hcase <;> exact ⟨rfl, rfl⟩
  obtain ⟨hcid, hbid⟩ := hids
  have hown : (start : Int) ≤ c'.id := hcid ▸ hle
  have hopened : ∀ b₁ ∈ some b', (start : Int) ≤ b₁.id ∧ b₁.id < st₁.pool.containerCount := by
    intro b₁ hb₁
    cases hb₁
    exact hbid ▸ ⟨hle, hlt⟩
  have hinsert : ∀ table : FpMap Int, (∀ fp id, table.lookup fp = some id → (start : Int) ≤ id) →
      ∀ fp id, (table.insert c'.fp c'.id).lookup fp = some id → (start : Int) ≤ id := by
    intro table htable fp id hid
    by_cases hfp : fp = c'.fp
    · rw [hfp, AList.lookup_insert] at hid
      cases hid
      exact hown
    · rw [AList.lookup_insert_ne hfp] at hid
      exact htable fp id hid
  have hold : ∀ fp id, st₁.recentlyUnique.lookup fp = some id → (start : Int) ≤ id :=
    hunique ▸ h.unique
  have hold' : ∀ fp id, st₁.recentlyRewritten.lookup fp = some id → (start : Int) ≤ id :=
    hrewritten ▸ h.rewritten
  cases added with
  | false => exact ⟨⟨hnext, hopened, hold, hold'⟩, hown, hmonitor⟩
  | true =>
      refine ⟨⟨hnext, hopened, ?_, ?_⟩, hown, hmonitor⟩
      · show ∀ fp id, (if c'.flag.duplicate then st₁.recentlyUnique
          else st₁.recentlyUnique.insert c'.fp c'.id).lookup fp = some id → _
        split
        · exact hold
        · exact hinsert _ hold
      · show ∀ fp id, (if c'.flag.duplicate then st₁.recentlyRewritten.insert c'.fp c'.id
          else st₁.recentlyRewritten).lookup fp = some id → _
        split
        · exact hinsert _ hold'
        · exact hold'

/-- A chunk that is stored, or keeps an id that the backup may use. -/
structure Settles (good : Int → Prop) (c : Chunk) : Prop where
  denied : c.flag.rewriteDenied = true → good c.id
  kept : c.flag.duplicate = true → c.flag.sparse = false → c.id ≠ temporaryId → good c.id

theorem Settles.resolveUnique (h : Settles good c) (hown : OwnContainers start st)
    (hgood : ∀ i : Int, (start : Int) ≤ i → good i) (hok : resolveUnique st c = .ok c') :
    Settles good c' ∧ (c'.flag.duplicate = true → c'.flag.sparse = false → good c'.id) := by
  rw [Destor.resolveUnique] at hok
  split at hok
  · split at hok
    · cases hok
    · rename_i id hid
      cases hok
      have hid := hgood id (hown.unique c.fp id hid)
      exact ⟨⟨fun _ => hid, fun _ _ _ => hid⟩, fun _ _ => hid⟩
  · rename_i hcond
    cases hok
    refine ⟨h, fun hdup hsparse => h.kept hdup hsparse fun htemporary => hcond ?_⟩
    rw [hdup, htemporary]
    rfl

/-- The loop body of the filter phase: the chunk ends in a container that the backup may use. -/
theorem filterChunk_usable (hgood : ∀ i : Int, (start : Int) ≤ i → good i)
    (h : OwnContainers start st) (hmonitor : Monitored good st.monitor)
    (hc : c.isNormal = true → Settles good c) (hok : filterChunk cfg st c = .ok (st', c')) :
    OwnContainers start st' ∧ Monitored good st'.monitor ∧
      (c'.isNormal = true → c'.id ≠ temporaryId ∧ good c'.id) := by
  rw [filterChunk] at hok
  split at hok
  · rename_i hnormal
    obtain ⟨c₁, hmark, hok⟩ := bind_ok_iff.mp hok
    obtain ⟨c₂, hunique, hok⟩ := bind_ok_iff.mp hok
    obtain ⟨⟨st₁, c₃⟩, hstore, hok⟩ := bind_ok_iff.mp hok
    obtain ⟨_, hid, hok⟩ := bind_ok_iff.mp hok
    cases hok
    have hassigned : c'.id ≠ temporaryId := require_ok_iff.mp hid
    have h₁ : Settles good c₁ := by
      rw [markInCache_cases hmark]
      exact ⟨(hc hnormal).denied, (hc hnormal).kept⟩
    have hown : OwnContainers start { st with enableRewrite := switchRewrite cfg st } :=
      ⟨h.next, h.opened, h.unique, h.rewritten⟩
    obtain ⟨h₂, hkept⟩ := h₁.resolveUnique hown hgood hunique
    have hstored : OwnContainers start st₁ ∧ good c'.id ∧ st₁.monitor = st.monitor := by
      rw [storeChunk] at hstore
      split at hstore
      · obtain ⟨hown', hle, hmonitor'⟩ := writeChunk_own hown hstore
        exact ⟨hown', hgood _ hle, hmonitor'⟩
      · rename_i hkeep
        cases hstore
        refine ⟨hown, ?_, rfl⟩
        have hswitched : ({ st with enableRewrite := switchRewrite cfg st } :
            FilterState).recentlyRewritten = st.recentlyRewritten := rfl
        cases hrewritten : st.recentlyRewritten.lookup c₂.fp with
        | some id =>
            have hlater := hrewritten
            rw [← hswitched] at hlater
            rw [resolveRewritten_some hlater]
            exact hgood id (h.rewritten c₂.fp id hrewritten)
        | none =>
            have hlater := hrewritten
            rw [← hswitched] at hlater
            rw [resolveRewritten_none hlater] at hkeep ⊢
            simp only [mustWrite, Bool.or_eq_true, Bool.not_eq_true', Bool.and_eq_true, not_or,
              not_and, Bool.not_eq_false] at hkeep
            by_cases hdenied : c₂.flag.rewriteDenied = true
            · exact h₂.denied hdenied
            · have hsparse := (hkeep.2 (Bool.not_eq_true _ |>.mp hdenied)).1
              exact hkept hkeep.1 (Bool.not_eq_true _ |>.mp hsparse)
    obtain ⟨hown', hid', hmonitor'⟩ := hstored
    refine ⟨⟨hown'.next, hown'.opened, hown'.unique, hown'.rewritten⟩, ?_,
      fun _ => ⟨hassigned, hid'⟩⟩
    have hold : Monitored good st₁.monitor := hmonitor' ▸ hmonitor
    exact hold.update hid' _
  · rename_i hsignal
    cases hok
    exact ⟨h, hmonitor, fun hnormal => absurd hnormal hsignal⟩

theorem filterChunks_usable (hgood : ∀ i : Int, (start : Int) ≤ i → good i)
    {chunks : List Chunk} (h : OwnContainers start st) (hmonitor : Monitored good st.monitor)
    (hchunks : ∀ c ∈ chunks, c.isNormal = true → Settles good c) :
    Ensures (fun _ => True)
      (fun r => OwnContainers start r.1 ∧ Monitored good r.1.monitor ∧
        ∀ c ∈ r.2, c.isNormal = true → c.id ≠ temporaryId ∧ good c.id)
      (traverseE (filterChunk cfg) st chunks) := by
  refine (traverseE_ensures (fun _ => True)
    (fun done (st : FilterState) rest => (OwnContainers start st ∧ Monitored good st.monitor ∧
        ∀ c ∈ done, c.isNormal = true → c.id ≠ temporaryId ∧ good c.id) ∧
      ∀ c ∈ rest, c.isNormal = true → Settles good c)
    ?_ ⟨⟨h, hmonitor, fun c hc => absurd hc List.not_mem_nil⟩, hchunks⟩).imp fun r h => h.1
  rintro done st c rest ⟨⟨hown, hmonitor, hdone⟩, hrest⟩
  obtain ⟨hc, hrest⟩ := List.forall_mem_cons.mp hrest
  apply ensures_of_ok
  intro r hok
  obtain ⟨st', c'⟩ := r
  obtain ⟨hown', hmonitor', hc'⟩ := filterChunk_usable hgood hown hmonitor hc hok
  refine ⟨⟨hown', hmonitor', fun c₁ hc₁ => ?_⟩, hrest⟩
  rcases List.mem_append.mp hc₁ with hc₁ | hc₁
  · exact hdone c₁ hc₁
  · rw [List.mem_singleton.mp hc₁]
    exact hc'

end Filter

section Jobs

variable {cfg : Config} {sc : Coverage} {store store' : Store} {job job' : Job} {s : Segment}
  {inflight : List Segment} {inherited : IdMap Int} {marks : Nat → Bool × Bool} {start : Nat}
  {good : Int → Prop}

/-- A marked chunk: a duplicate without `CHUNK_SPARSE` lies in no inherited sparse container. -/
structure CheckedMark (inherited : IdMap Int) (c m : Chunk) : Prop extends c.MarkedAs m where
  denied_eq : m.flag.rewriteDenied = c.flag.rewriteDenied
  spared : c.isNormal = true → m.flag.duplicate = true → m.flag.sparse = false →
    inherited.lookup m.id = none

theorem applyMarks_checked (har : cfg.rewriteEnableHar = true) (chunks : List Chunk) :
    List.Forall₂ (CheckedMark inherited) chunks
      (applyMarks cfg (harMarks inherited chunks marks) chunks) := by
  rw [applyMarks]
  apply forall₂_mapIdx
  intro i c hc
  split
  · rename_i hnormal
    refine ⟨⟨⟨rfl, rfl, rfl, rfl, rfl⟩, rfl, rfl⟩, rfl, fun _ hdup hsparse => ?_⟩
    dsimp only at hdup hsparse ⊢
    rw [har, Bool.true_and, Bool.or_eq_false_iff, harMarks, hc] at hsparse
    have hcheck : (harCheck inherited c).flag.sparse = false := hsparse.2
    rw [harCheck] at hcheck
    have hsignals : (!c.flag.fileStart && !c.flag.fileEnd) = true := hnormal
    rw [hsignals, hdup, Bool.true_and, Bool.true_and] at hcheck
    split at hcheck
    · cases hcheck
    · rename_i hnone
      exact Option.not_isSome_iff_eq_none.mp hnone
  · exact ⟨⟨.refl c, rfl, rfl⟩, rfl, fun hnormal => absurd hnormal ‹_›⟩

/-- What holds of a running backup that found the ids from `start` on free. -/
structure HarJob (start : Nat) (inherited : IdMap Int) (store : Store) (job : Job) : Prop where
  next : start ≤ store.pool.containerCount
  opened : ∀ b ∈ job.storage.containerBuffer,
    (start : Int) ≤ b.id ∧ b.id < store.pool.containerCount
  denied : ∀ s ∈ job.inflight, ∀ c ∈ s.chunks, c.flag.rewriteDenied = true →
    Usable start inherited c.id
  heads : ∀ fp, Headed (Usable start inherited) (job.index.buffer.bufferedFingerprints.lookup fp)
    (pendingCopies fp job.inflight)
  monitored : Monitored (Usable start inherited) job.monitor

theorem harJob_start (segments : List Segment) (hstart : start = store.pool.containerCount) :
    HarJob start inherited store (newJob cfg store segments) := by
  refine ⟨hstart.le, fun b hb => ?_, fun s hs => absurd hs List.not_mem_nil, fun fp => ?_,
    fun i size hi => ?_⟩
  · cases hb
  · show Headed _ ((∅ : FpMap (List Int)).lookup fp) []
    rw [AList.lookup_empty]
    rfl
  · have hi : (∅ : IdMap Int).lookup i = some size := hi
    rw [AList.lookup_empty] at hi
    cases hi

theorem HarJob.lookup (h : HarJob start inherited store job) (hjob : JobInv cfg sc store job)
    {waitThreshold : Int} (hok : lookupSegment cfg store job waitThreshold = .ok job') :
    HarJob start inherited store job' := by
  rw [lookupSegment] at hok
  split at hok
  · cases hok
    exact h
  · rename_i s todo htodo
    obtain ⟨hcounted, hstream⟩ := hjob.todo s (by rw [htodo]; exact List.mem_cons_self)
    have hfresh : ∀ c ∈ s.chunks, c.Fresh := fun c hc => (hstream c hc).fresh
    split at hok
    · rename_i hempty
      cases hok
      refine ⟨h.next, h.opened, fun s' hs' c hc hdenied => ?_, fun fp => ?_, h.monitored⟩
      · rcases List.mem_append.mp hs' with hs' | hs'
        · exact h.denied s' hs' c hc hdenied
        · rw [List.mem_singleton.mp hs'] at hc
          rw [(hfresh c hc).unmarked.2.2.2] at hdenied
          cases hdenied
      · have hhead := h.heads fp
        simpa [copiesOf_of_empty hcounted hempty] using hhead
    · split at hok
      · cases hok
        exact h
      · obtain ⟨⟨index, chunks⟩, hlookup, hok⟩ := bind_ok_iff.mp hok
        cases hok
        have hopen : ∀ b ∈ job.storage.containerBuffer, ∀ i, b.id ≤ i → Usable start inherited i :=
          fun b hb i hi => Or.inl (Int.le_trans (h.opened b hb).1 hi)
        have hlooked : (∀ fp, Headed (Usable start inherited)
            (index.buffer.bufferedFingerprints.lookup fp)
            (pendingCopies fp job.inflight ++ copiesOf fp chunks)) ∧
            ∀ c ∈ chunks, c.flag.rewriteDenied = true → Usable start inherited c.id := by
          rw [indexLookup] at hlookup
          split at hlookup
          · obtain ⟨features, -, hlookup⟩ := bind_ok_iff.mp hlookup
            obtain ⟨cache, -, hlookup⟩ := bind_ok_iff.mp hlookup
            have hheads : ∀ fp, Headed (Usable start inherited)
                (({ job.index with cache := cache } : IndexState).buffer.bufferedFingerprints.lookup fp)
                (pendingCopies fp job.inflight) := h.heads
            exact (lookupChunks_headed hopen _ hheads hfresh).of_ok hlookup
          · exact (lookupChunks_headed hopen true h.heads hfresh).of_ok hlookup
        obtain ⟨hheads, hdenied⟩ := hlooked
        refine ⟨h.next, h.opened, fun s' hs' c hc hflag => ?_, fun fp => ?_, h.monitored⟩
        · rcases List.mem_append.mp hs' with hs' | hs'
          · exact h.denied s' hs' c hc hflag
          · rw [List.mem_singleton.mp hs'] at hc
            exact hdenied c hc hflag
        · simpa using hheads fp

/-- The parts of `filter_thread` that the marks go through. -/
theorem filterSegment_loops (hinflight : job.inflight = s :: inflight)
    (hok : filterSegment cfg store job marks = .ok (store', job')) :
    ∃ chunks st done,
      indexCheckBuffer job.index.buffer (applyMarks cfg marks s.chunks) = .ok chunks ∧
      traverseE (filterChunk cfg) (job.filterState store) chunks = .ok (st, done) ∧
      indexUpdateBuffer job.index.buffer done = .ok job'.index.buffer ∧
      store'.pool = st.pool ∧ job'.storage = st.storage ∧ job'.monitor = st.monitor ∧
      job'.inflight = inflight := by
  rw [filterSegment, hinflight] at hok
  obtain ⟨chunks, hcheck, hok⟩ := bind_ok_iff.mp hok
  obtain ⟨⟨st, done⟩, hloop, hok⟩ := bind_ok_iff.mp hok
  obtain ⟨buffer, hbuffer, hok⟩ := bind_ok_iff.mp hok
  obtain ⟨⟨sid, bv, fileMeta⟩, -, hok⟩ := bind_ok_iff.mp hok
  obtain ⟨kv, -, hok⟩ := bind_ok_iff.mp hok
  cases hok
  exact ⟨chunks, st, done, hcheck, hloop, hbuffer, rfl, rfl, rfl, rfl⟩

theorem Headed.usable {buffer : IndexBuffer} {fp : Fingerprint} {copies : List Chunk} {c : Chunk}
    (h : Headed good (buffer.bufferedFingerprints.lookup fp) copies) (hc : c ∈ copies)
    (hlt : c.id < buffer.head fp) : good (buffer.head fp) := by
  rw [IndexBuffer.head] at hlt ⊢
  cases hbq : buffer.bufferedFingerprints.lookup fp with
  | none =>
      rw [hbq] at h
      obtain rfl : copies = [] := h
      cases hc
  | some bq =>
      rw [hbq] at h hlt
      exact h.2 c hc hlt

theorem PendingState.headed {sound : Int → Prop} {absent : Prop} {q : Option (List Int)}
    {copies : List Chunk} (h : PendingState sound absent q copies)
    (hhead : ∀ c ∈ copies, c.id < (q.getD []).headD temporaryId →
      good ((q.getD []).headD temporaryId)) : Headed good q copies := by
  cases h with
  | empty => rfl
  | fresh bq c copies hbq => exact ⟨by rw [hbq]; exact List.cons_ne_nil _ _, hhead⟩
  | known bq copies hne => exact ⟨hne, hhead⟩

/-- A checked chunk ends in a container that the backup may use. -/
theorem HarJob.settles (h : HarJob start inherited store job) (hinflight : job.inflight = s :: inflight)
    {o m c : Chunk} (ho : o ∈ s.chunks) (hom : CheckedMark inherited o m)
    (hmc : checkBufferChunk job.index.buffer m = .ok c) (hnormal : c.isNormal = true) :
    Settles (Usable start inherited) c := by
  have hpayload := checkBufferChunk_payload hmc
  have hmnormal : m.isNormal = true := hpayload.normal_eq.symm.trans hnormal
  have honormal : o.isNormal = true := hom.normal_eq.symm.trans hmnormal
  have hsame : Settles (Usable start inherited) m := by
    refine ⟨fun hdenied => ?_, fun hdup hsparse _ => Or.inr (hom.spared honormal hdup hsparse)⟩
    rw [hom.id_eq]
    exact h.denied s (by rw [hinflight]; exact List.mem_cons_self) o ho (hom.denied_eq ▸ hdenied)
  cases checkBufferChunk_cases hmnormal hmc with
  | taken hlt hid _ =>
      have hcopy : o ∈ pendingCopies m.fp job.inflight := by
        rw [hinflight, pendingCopies_cons]
        exact List.mem_append_left _ (mem_copiesOf.mpr ⟨ho, honormal, hom.fp_eq.symm⟩)
      have hhead := (h.heads m.fp).usable hcopy (hom.id_eq ▸ hlt)
      rw [← hid] at hhead
      exact ⟨fun _ => hhead, fun _ _ _ => hhead⟩
  | asking _ heq => exact heq ▸ hsame
  | plain _ _ heq => exact heq ▸ hsame

private theorem HarJob.drained (h : HarJob start inherited store job) (hjob : JobInv cfg sc store job)
    (hjob' : JobInv cfg sc store' job') (hinflight : job.inflight = s :: inflight)
    (hlater : job'.inflight = inflight) {done : List Chunk}
    (hpayload : List.Forall₂ Chunk.SamePayload s.chunks done)
    (hdone : ∀ c ∈ done, c.isNormal = true → c.id ≠ temporaryId ∧ Usable start inherited c.id)
    (hupdate : indexUpdateBuffer job.index.buffer done = .ok job'.index.buffer) (fp : Fingerprint) :
    Headed (Usable start inherited) (job'.index.buffer.bufferedFingerprints.lookup fp)
      (pendingCopies fp job'.inflight) := by
  have hlength : ∀ fp, ((job.index.buffer.bufferedFingerprints.lookup fp).getD []).length =
      (copiesOf fp done).length + (pendingCopies fp inflight).length := by
    intro fp
    rw [(hjob.pending hinflight fp).length_eq, List.length_append,
      (forall₂_copiesOf (fun _ _ h => h) hpayload fp).length_eq]
  have hbuffer := (indexUpdateBuffer_ensures (fun c hc hnormal => (hdone c hc hnormal).1)
    fun fp => by rw [hlength fp]; exact Nat.le_add_right _ _).of_ok hupdate
  have hstate := hjob'.buffer fp
  rw [hlater] at hstate ⊢
  apply hstate.headed
  intro c hc hlt
  by_cases hnil : copiesOf fp done = []
  · -- no copy leaves
    have hheads := h.heads fp
    rw [hinflight, pendingCopies_cons] at hheads
    rw [hbuffer, hnil, drain] at hlt ⊢
    exact hheads.usable (List.mem_append_right _ hc) hlt
  · obtain ⟨d, hd⟩ : ∃ d, (copiesOf fp done).getLast? = some d :=
      ⟨_, List.getLast?_eq_some_getLast hnil⟩
    have hlt' : (copiesOf fp done).length <
        ((job.index.buffer.bufferedFingerprints.lookup fp).getD []).length := by
      have hpos : 0 < (pendingCopies fp inflight).length := List.length_pos_of_mem hc
      have hsum := hlength fp
      omega
    rw [hbuffer, head_drain hd hlt']
    obtain ⟨hmem, hnormal, -⟩ := mem_copiesOf.mp (List.mem_of_getLast? hd)
    exact (hdone d hmem hnormal).2

/-- The filter thread processes a segment that `har_check` went through. -/
theorem HarJob.filter (har : cfg.rewriteEnableHar = true) (h : HarJob start inherited store job)
    (hjob : JobInv cfg sc store job) (hjob' : JobInv cfg sc store' job')
    (hok : filterSegment cfg store job (harMarks inherited job.nextChunks marks) =
      .ok (store', job')) : HarJob start inherited store' job' := by
  cases hinflight : job.inflight with
  | nil =>
      rw [filterSegment, hinflight] at hok
      cases hok
      exact h
  | cons s inflight =>
      have hnext : job.nextChunks = s.chunks := by
        rw [Job.nextChunks, hinflight]
        rfl
      rw [hnext] at hok
      obtain ⟨chunks, st, done, hcheck, hloop, hupdate, hpool, hstorage, hmonitor, hlater⟩ :=
        filterSegment_loops hinflight hok
      have hmarked : List.Forall₂ (CheckedMark inherited) s.chunks
          (applyMarks cfg (harMarks inherited s.chunks marks) s.chunks) :=
        applyMarks_checked har s.chunks
      have hchecked := indexCheckBuffer_forall₂ hcheck
      have hempty : ∀ fp (id : Int), (∅ : FpMap Int).lookup fp = some id → (start : Int) ≤ id := by
        intro fp id hid
        rw [AList.lookup_empty] at hid
        cases hid
      have hown : OwnContainers start (job.filterState store) := ⟨h.next, h.opened, hempty, hempty⟩
      have hsettles : ∀ c ∈ chunks, c.isNormal = true → Settles (Usable start inherited) c := by
        intro c hc hnormal
        obtain ⟨m, hm, hmc⟩ := mem_forall₂_right hchecked hc
        obtain ⟨o, ho, hom⟩ := mem_forall₂_right hmarked hm
        exact h.settles hinflight ho hom hmc hnormal
      obtain ⟨hown', hmonitor', hdone⟩ :=
        (filterChunks_usable (fun i hi => Or.inl hi) hown h.monitored hsettles).of_ok hloop
      dsimp only at hown' hmonitor' hdone
      have hpayload : List.Forall₂ Chunk.SamePayload s.chunks done := by
        have hloop' : List.Forall₂ Chunk.SamePayload chunks done :=
          traverseE_forall₂ (R := Chunk.SamePayload) (fun _ _ _ _ hok => filterChunk_payload hok) hloop
        have hmarked' : List.Forall₂ Chunk.SamePayload s.chunks
            (applyMarks cfg (harMarks inherited s.chunks marks) s.chunks) :=
          hmarked.imp fun _ _ hm => hm.toSamePayload
        have hchecked' := hchecked.imp fun _ _ hc => checkBufferChunk_payload hc
        exact forall₂_trans (fun _ _ _ h h' => h.trans h')
          (forall₂_trans (fun _ _ _ h h' => h.trans h') hmarked' hchecked') hloop'
      have hdrained := h.drained hjob hjob' hinflight hlater hpayload hdone hupdate
      refine ⟨hpool ▸ hown'.next, ?_, fun s' hs' => ?_, hdrained, hmonitor ▸ hmonitor'⟩
      · rw [hstorage, hpool]
        exact hown'.opened
      · rw [hlater] at hs'
        exact h.denied s' (by rw [hinflight]; exact List.mem_cons_of_mem _ hs')

end Jobs

section Files

variable {settings : HarSettings} {fresh : ContainerRecord} {buf wd text : List UInt8}
  {files : Files} {jobid : Int} {bound : Nat} {records : List ContainerRecord}

def RecordsBelow (bound : Nat) (records : List ContainerRecord) : Prop :=
  ∀ r ∈ records, (0 ≤ r.cid ∧ r.cid < bound) ∧ -2 ^ 31 ≤ r.size ∧ r.size < 2 ^ 31

/-- The lines of such records. -/
def SparseText (bound : Nat) (text : List UInt8) : Prop :=
  ∃ records : List ContainerRecord, text = records.flatMap sparseLine ∧ RecordsBelow bound records

theorem isSome_lookup_foldl_record (records : List ContainerRecord) (table : IdMap Int) (id : Int) :
    ((records.foldl (fun table r => table.insert r.cid r.size) table).lookup id).isSome = true ↔
      (table.lookup id).isSome = true ∨ ∃ r ∈ records, r.cid = id := by
  induction records generalizing table with
  | nil => simp
  | cons r records ih =>
      rw [List.foldl_cons, ih, List.exists_mem_cons_iff]
      by_cases hid : id = r.cid
      · subst hid
        simp
      · rw [AList.lookup_insert_ne hid]
        have hne : ¬ r.cid = id := fun h => hid h.symm
        simp [hne]

/-- `init_har` finds the containers of the file that it opens. -/
theorem initHar_lines (hfile : files (initHarPath wd jobid) = some (records.flatMap sparseLine))
    (hrecords : RecordsBelow bound records) (hbound : bound ≤ 2 ^ 63) (hjob : 0 < jobid) (id : Int) :
    ((initHar fresh buf wd files jobid).lookup id).isSome = true ↔ ∃ r ∈ records, r.cid = id := by
  rw [initHar, if_pos hjob, hfile]
  have hids : ∀ r ∈ records, -2 ^ 63 ≤ r.cid ∧ r.cid < 2 ^ 63 := by
    intro r hr
    obtain ⟨⟨hlow, hhigh⟩, -⟩ := hrecords r hr
    omega
  show ((readSparse fresh _ buf (records.flatMap sparseLine) ∅).lookup id).isSome = true ↔ _
  rw [readSparse_lines fresh hids (fun r hr => (hrecords r hr).2) buf ∅ (Nat.le_refl _),
    isSome_lookup_foldl_record, AList.lookup_empty]
  simp

theorem initHar_below (hfiles : ∀ path text, files path = some text → SparseText bound text)
    (hbound : bound ≤ 2 ^ 63) {id : Int}
    (h : ((initHar fresh buf wd files jobid).lookup id).isSome = true) : 0 ≤ id ∧ id < bound := by
  have hempty : ((∅ : IdMap Int).lookup id).isSome = false := by
    rw [AList.lookup_empty]
    rfl
  by_cases hjob : 0 < jobid
  · cases hfile : files (initHarPath wd jobid) with
    | none =>
        rw [initHar, if_pos hjob, hfile] at h
        exact absurd (hempty.symm.trans h) Bool.false_ne_true
    | some text =>
        obtain ⟨records, rfl, hrecords⟩ := hfiles _ text hfile
        obtain ⟨r, hr, rfl⟩ := (initHar_lines hfile hrecords hbound hjob id).mp h
        exact (hrecords r hr).1
  · rw [initHar, if_neg hjob] at h
    exact absurd (hempty.symm.trans h) Bool.false_ne_true

theorem trimSparse_subset {limit : Rat} {total : Int} {l trimmed : List ContainerRecord} {size : Int}
    (h : trimSparse limit total l size = .ok trimmed) : ∀ r ∈ trimmed, r ∈ l := by
  induction l generalizing size with
  | nil =>
      rw [trimSparse] at h
      split at h
      · cases h
      · cases h
        exact fun r hr => hr
  | cons r l ih =>
      rw [trimSparse] at h
      split at h
      · exact fun r' hr' => List.mem_cons_of_mem _ (ih h r' hr')
      · cases h
        exact fun r' hr' => hr'

/-- `close_har` writes lines of the monitor. -/
theorem closeHar_text {threshold limit : Rat} {inherited : IdMap Int} {closed : HarClosed}
    (h : closeHar threshold limit wd jobid inherited records = .ok closed)
    (hrecords : RecordsBelow bound records) :
    closed.path = closeHarPath wd jobid ∧ SparseText bound closed.content := by
  obtain ⟨trimmed, htrim, h⟩ := bind_ok_iff.mp h
  cases h
  refine ⟨rfl, trimmed.reverse, rfl, fun r hr => hrecords r ?_⟩
  have hmem := trimSparse_subset htrim r (List.mem_reverse.mp hr)
  have hsorted := sort_perm (fun a b => 0 < gRecordCmp a b) (records.filter (isSparse threshold))
  exact (List.mem_filter.mp (hsorted.mem_iff.mp (List.mem_reverse.mp hmem))).1

end Files

section Runs

variable {settings : HarSettings} {cfg : Config} {h h' : HarBackups} {store : Store} {job : Job}

/-- Every `.sparse` file names containers with ids below `bound`. -/
def FilesBelow (bound : Nat) (disk : Bool → List (List UInt8) → Option (List UInt8)) : Prop :=
  ∀ absolute path text, disk absolute path = some text → SparseText bound text

theorem FilesBelow.mono {bound bound' : Nat} {disk : Bool → List (List UInt8) → Option (List UInt8)}
    (h : FilesBelow bound disk) (hle : bound ≤ bound') : FilesBelow bound' disk := by
  intro absolute path text htext
  obtain ⟨records, heq, hrecords⟩ := h absolute path text htext
  refine ⟨records, heq, fun r hr => ?_⟩
  obtain ⟨⟨hlow, hhigh⟩, hsize⟩ := hrecords r hr
  exact ⟨⟨hlow, by omega⟩, hsize⟩

/-- What holds besides of an idle system, and of one that runs a backup. -/
def HarBackups.Phase (h : HarBackups) : Prop :=
  match h.sys.job with
  | none => FilesBelow h.sys.store.pool.containerCount h.disk ∧ h.tables.length = h.closed.length
  | some job => ∃ start, HarJob start h.inherited h.sys.store job ∧ FilesBelow start h.disk ∧
      (∀ id, (h.inherited.lookup id).isSome = true → 0 ≤ id ∧ id < start) ∧
      h.tables.length = h.closed.length + 1

/-- What holds of the backups between two events. -/
structure HarInv (settings : HarSettings) (cfg : Config) (h : HarBackups) : Prop where
  sys : SystemInv cfg backupScope h.sys
  ended : h.closed.length = h.sys.store.backups.length
  phase : h.Phase
  latest : settings.directory ≠ .compiledIn → ∀ (n : Nat) (closed : HarClosed), n + 1 = h.closed.length →
    h.closed[n]? = some closed →
      h.files (initHarPath settings.directory.path (n + 1)) = some closed.content
  spared : ∀ (n : Nat) (bv : BackupVersion) (table : IdMap Int), h.sys.store.backups[n]? = some bv →
    h.tables[n]? = some table → ∀ cp ∈ bv.pointers, table.lookup cp.id = none
  inherits : settings.directory ≠ .compiledIn → ∀ (n : Nat) (closed : HarClosed)
      (table : IdMap Int), h.closed[n]? = some closed →
    h.tables[n + 1]? = some table → ∃ records : List ContainerRecord,
      closed.content = records.flatMap sparseLine ∧
        ∀ id, (table.lookup id).isSome = true ↔ ∃ r ∈ records, r.cid = id

theorem harInv_init : HarInv settings cfg initHarBackups := by
  refine ⟨systemInv_init rfl fun _ _ => trivial, rfl, ⟨fun _ _ _ htext => ?_, rfl⟩,
    fun _ n closed _ hn => ?_, fun n bv table hbv => ?_, fun _ n closed table hn => ?_⟩
  · cases htext
  · cases hn
  · cases hbv
  · cases hn

/-- The events of a run: a backup starts within the bounds of its ids, and any job may be deleted. -/
def HarEvent (cfg : Config) (h : HarBackups) : Event → Prop
  | .start files => BackupEvent cfg backupScope h.sys (.start files) ∧
      h.sys.store.pool.containerCount ≤ 2 ^ 63
  | _ => True

/-- Nothing changes but the system, and in it no finished backup. -/
theorem HarInv.still (hinv : HarInv settings cfg h) {sys : System}
    (hsys : SystemInv cfg backupScope sys) (hbackups : sys.store.backups = h.sys.store.backups)
    (hphase : { h with sys := sys }.Phase) : HarInv settings cfg { h with sys := sys } := by
  refine ⟨hsys, ?_, hphase, hinv.latest, ?_, hinv.inherits⟩
  · show h.closed.length = sys.store.backups.length
    rw [hbackups]
    exact hinv.ended
  · show ∀ (n : Nat) (bv : BackupVersion) (table : IdMap Int), sys.store.backups[n]? = some bv → _
    rw [hbackups]
    exact hinv.spared

/-- The references of a running backup lie in the pool. -/
theorem JobInv.monitor_lt (hjob : JobInv cfg backupScope store job) {i : Int} (hi : i ∈ job.monitor) :
    0 ≤ i ∧ i < store.pool.containerCount := by
  obtain ⟨hnonneg, cp, hcp, rfl⟩ := (hjob.monitored i).mp hi
  refine ⟨hnonneg, ?_⟩
  have hpointer : cp ∈ job.bv.pointers := by
    refine List.mem_filter.mpr ⟨hcp, decide_eq_true ⟨?_, ?_⟩⟩
    · simp only [chunkSegmentStart]
      omega
    · simp only [chunkSegmentEnd]
      omega
  have hsound := hjob.core.versions_ok.pointers_sound (b := job.bv)
    (List.mem_append_right _ (List.mem_singleton.mpr rfl)) hjob.retained cp hpointer
  rcases hsound.2 with ⟨c, hc, -⟩ | ⟨b, hb, hid, -⟩
  · exact (hjob.core.pool_wf.lt_count cp.id c hc).2
  · exact hid ▸ (hjob.core.open_ok b hb).id_lt

theorem finishJob_count {store' : Store}
    (hok : finishJob cfg store job = .ok store') :
    store'.pool.containerCount = store.pool.containerCount := by
  obtain ⟨st, hclose, hok⟩ := bind_ok_iff.mp hok
  cases hok
  rw [closeStorage] at hclose
  split at hclose
  · rename_i b hb
    split at hclose
    · cases hclose
      rfl
    · rename_i hempty
      obtain ⟨hcount, -⟩ := pushContainer_count hclose
      rw [if_neg hempty] at hcount
      exact hcount
  · cases hclose
    rfl

/-- A backup that starts inherits what the last one recorded. -/
theorem HarInv.start (hinv : HarInv settings cfg h) (hset : cfg.Settled) {files : List InputFile}
    (hidle : h.sys.job = none) (hok : HarEvent cfg h (.start files))
    (hstep : harStep settings cfg h (.start files) = .ok h') : HarInv settings cfg h' := by
  obtain ⟨⟨store, job⟩, tables, closed, disk⟩ := h
  obtain rfl : job = none := hidle
  obtain ⟨hevent, hcount⟩ := hok
  obtain ⟨sys, hsys, hstep⟩ := bind_ok_iff.mp hstep
  cases hstep
  obtain ⟨hsysInv, -⟩ := (step_ensures hset False.elim hinv.sys hevent).of_ok hsys
  obtain ⟨segments, -, rfl⟩ := step_start hsys
  obtain ⟨hfiles, hlength⟩ : FilesBelow store.pool.containerCount disk ∧
    tables.length = closed.length := hinv.phase
  have hended : closed.length = store.backups.length := hinv.ended
  generalize htable : initHar settings.fresh settings.buf settings.directory.path
    (HarBackups.mk ⟨store, none⟩ tables closed disk).files store.backups.length = table
  have hbelow : ∀ id, (table.lookup id).isSome = true → 0 ≤ id ∧ id < store.pool.containerCount := by
    intro id hid
    rw [← htable] at hid
    exact initHar_below (fun path text htext => hfiles _ _ text htext) hcount hid
  have hlast : (HarBackups.mk ⟨store, some (newJob cfg store segments)⟩ (tables ++ [table]) closed
      disk).inherited = table := by
    rw [HarBackups.inherited, List.getLast?_concat]
    rfl
  refine ⟨hsysInv, hinv.ended, ?_, hinv.latest, fun n bv table' hbv hn => ?_,
    fun hdirectory n c table' hc hn => ?_⟩
  · refine ⟨store.pool.containerCount, ?_, hfiles, ?_, ?_⟩
    · rw [hlast]
      exact harJob_start segments rfl
    · rw [hlast]
      exact hbelow
    · show (tables ++ [table]).length = closed.length + 1
      rw [List.length_append, hlength]
      rfl
  · have hlt : n < store.backups.length := (List.getElem?_eq_some_iff.mp hbv).1
    have hn : (tables ++ [table])[n]? = some table' := hn
    rw [List.getElem?_append_left (by omega)] at hn
    exact hinv.spared n bv table' hbv hn
  · have hlt : n < closed.length := (List.getElem?_eq_some_iff.mp hc).1
    have hn : (tables ++ [table])[n + 1]? = some table' := hn
    by_cases hlater : n + 1 < tables.length
    · rw [List.getElem?_append_left hlater] at hn
      exact hinv.inherits hdirectory n c table' hc hn
    · obtain rfl : table = table' := by
        rw [List.getElem?_append_right (by omega)] at hn
        have hzero : n + 1 - tables.length = 0 := by omega
        rw [hzero] at hn
        exact Option.some.inj hn
      have hfile := hinv.latest hdirectory n c (show n + 1 = closed.length by omega) hc
      obtain ⟨records, htext, hrecords⟩ := hfiles _ _ _ hfile
      refine ⟨records, htext, fun id => ?_⟩
      have hnum : ((store.backups.length : Nat) : Int) = (n : Int) + 1 := by omega
      rw [← htable, hnum]
      rw [htext] at hfile
      exact initHar_lines hfile hrecords hcount (by omega) id

theorem HarJob.spares {start : Nat} {inherited : IdMap Int} (hhar : HarJob start inherited store job)
    (hjob : JobInv cfg backupScope store job)
    (hbelow : ∀ id, (inherited.lookup id).isSome = true → 0 ≤ id ∧ id < start) {cp : ChunkPointer}
    (hcp : cp ∈ job.bv.pointers) : inherited.lookup cp.id = none := by
  obtain ⟨hmem, -⟩ := List.mem_filter.mp hcp
  by_cases hnonneg : 0 ≤ cp.id
  · obtain ⟨size, hsize⟩ := Option.isSome_iff_exists.mp
      (AList.lookup_isSome.mpr ((hjob.monitored cp.id).mpr ⟨hnonneg, cp, hmem, rfl⟩))
    rcases (hhar.monitored cp.id size hsize).1 with hown | hnone
    · apply Option.not_isSome_iff_eq_none.mp
      intro hsome
      have hlt := (hbelow cp.id hsome).2
      omega
    · exact hnone
  · exact Option.not_isSome_iff_eq_none.mp fun hsome => hnonneg (hbelow cp.id hsome).1

theorem HarJob.records_below {start : Nat} {inherited : IdMap Int}
    (hhar : HarJob start inherited store job) (hjob : JobInv cfg backupScope store job) :
    RecordsBelow store.pool.containerCount (settings.monitorOrder (monitorRecords job.monitor)) := by
  intro r hr
  obtain ⟨e, he, rfl⟩ := List.mem_map.mp ((settings.monitorOrder_perm _).mem_iff.mp hr)
  have hlookup : job.monitor.lookup e.1 = some e.2 := AList.mem_lookup_iff.mpr he
  refine ⟨hjob.monitor_lt ?_, (hhar.monitored e.1 e.2 hlookup).2⟩
  exact AList.lookup_isSome.mp (by rw [hlookup]; rfl)

/-- No backup keeps a chunk in a container that it inherited, the one that ends included. -/
theorem HarInv.spared_append {start : Nat} {tables : List (IdMap Int)} {closed : List HarClosed}
    {disk : Bool → List (List UInt8) → Option (List UInt8)}
    (hinv : HarInv settings cfg ⟨⟨store, some job⟩, tables, closed, disk⟩)
    (hhar : HarJob start (HarBackups.mk ⟨store, some job⟩ tables closed disk).inherited store job)
    (hbelow : ∀ id, ((HarBackups.mk ⟨store, some job⟩ tables closed disk).inherited.lookup
      id).isSome = true → 0 ≤ id ∧ id < start) (hlength : tables.length = closed.length + 1)
    {n : Nat} {bv : BackupVersion} {table : IdMap Int}
    (hbv : (store.backups ++ [updateBackupVersion job.bv])[n]? = some bv)
    (hn : tables[n]? = some table) : ∀ cp ∈ bv.pointers, table.lookup cp.id = none := by
  have hjob : JobInv cfg backupScope store job := hinv.sys
  have hended : closed.length = store.backups.length := hinv.ended
  by_cases hlt : n < store.backups.length
  · rw [List.getElem?_append_left hlt] at hbv
    exact hinv.spared n bv table hbv hn
  · have hn' : n < tables.length := (List.getElem?_eq_some_iff.mp hn).1
    obtain rfl : n = store.backups.length := by omega
    rw [List.getElem?_concat_length] at hbv
    cases hbv
    have htable : (HarBackups.mk ⟨store, some job⟩ tables closed disk).inherited = table := by
      have hlast : tables.length - 1 = store.backups.length := by omega
      rw [HarBackups.inherited, List.getLast?_eq_getElem?, hlast]
      exact congrArg (Option.getD · ∅) hn
    rw [htable] at hhar hbelow
    exact fun cp hcp => hhar.spares hjob hbelow hcp

/-- `close_har` names the containers of the backup that ends. -/
theorem HarInv.finish (hinv : HarInv settings cfg h) (hset : cfg.Settled)
    (hstep : harStep settings cfg h .finish = .ok h') : HarInv settings cfg h' := by
  obtain ⟨⟨store, job⟩, tables, closed, disk⟩ := h
  cases job with
  | none =>
      cases hstep
      exact hinv
  | some job =>
      have hjob : JobInv cfg backupScope store job := hinv.sys
      obtain ⟨start, hhar, hfiles, hbelow, hlength⟩ : ∃ start,
        HarJob start (HarBackups.mk ⟨store, some job⟩ tables closed disk).inherited store job ∧
          FilesBelow start disk ∧ (∀ id, ((HarBackups.mk ⟨store, some job⟩ tables closed
            disk).inherited.lookup id).isSome = true → 0 ≤ id ∧ id < start) ∧
          tables.length = closed.length + 1 := hinv.phase
      have hended : closed.length = store.backups.length := hinv.ended
      simp only [harStep] at hstep
      split at hstep
      · rename_i hdone
        obtain ⟨sys, hsys, hstep⟩ := bind_ok_iff.mp hstep
        obtain ⟨c, hclose, hstep⟩ := bind_ok_iff.mp hstep
        cases hstep
        obtain ⟨hsysInv, -⟩ := (step_ensures (e := .finish) hset False.elim hinv.sys trivial).of_ok hsys
        simp only [step, if_pos hdone] at hsys
        obtain ⟨store', hfinish, hsys⟩ := bind_ok_iff.mp hsys
        cases hsys
        obtain ⟨-, hbackups, -⟩ := (finishJob_ensures hset False.elim hjob).of_ok hfinish
        have hcount := finishJob_count hfinish
        have hrecords : RecordsBelow store'.pool.containerCount
            (settings.monitorOrder (monitorRecords job.monitor)) := by
          rw [hcount]
          exact hhar.records_below hjob
        obtain ⟨hpath, htext⟩ := closeHar_text hclose hrecords
        refine ⟨hsysInv, ?_, ⟨fun absolute path text hfile => ?_, ?_⟩, fun hdirectory n c' hn hc' => ?_,
          fun n bv table hbv hn => ?_, fun hdirectory n c' table hc' hn => ?_⟩
        · show (closed ++ [c]).length = store'.backups.length
          rw [hbackups, List.length_append, List.length_append, hended]
          rfl
        · dsimp only at hfile
          split at hfile
          · cases hfile
            exact htext
          · have hle : start ≤ store'.pool.containerCount := hcount ▸ hhar.next
            exact hfiles.mono hle absolute path text hfile
        · show tables.length = (closed ++ [c]).length
          rw [hlength, List.length_append]
          rfl
        · have hn : n + 1 = (closed ++ [c]).length := hn
          have hc' : (closed ++ [c])[n]? = some c' := hc'
          rw [List.length_append, List.length_singleton] at hn
          obtain rfl : n = closed.length := by omega
          rw [List.getElem?_concat_length] at hc'
          cases hc'
          have hsame := (sparse_sameFile_iff settings.directory closed.length).mpr hdirectory
          have hnum : job.bv.bvNum = store.backups.length :=
            hjob.core.versions_ok.num store.backups.length job.bv (by simp)
          rw [hnum, ← hended] at hpath
          refine if_pos ⟨?_, ?_⟩
          · rw [hpath]
            exact hsame.start.symm
          · rw [hpath]
            exact hsame.components.symm
        · have hbv : store'.backups[n]? = some bv := hbv
          rw [hbackups] at hbv
          exact hinv.spared_append hhar hbelow hlength hbv hn
        · have hn' : n + 1 < tables.length := (List.getElem?_eq_some_iff.mp hn).1
          have hc' : (closed ++ [c])[n]? = some c' := hc'
          rw [List.getElem?_append_left (by omega)] at hc'
          exact hinv.inherits hdirectory n c' table hc' hn
      · cases hstep
        exact hinv

theorem harStep_inv (hset : cfg.Settled) (har : cfg.rewriteEnableHar = true)
    (hinv : HarInv settings cfg h) {e : Event} (hok : HarEvent cfg h e)
    (hstep : harStep settings cfg h e = .ok h') : HarInv settings cfg h' := by
  cases e with
  | start files => exact hinv.start hset hok.1.1 hok hstep
  | finish => exact hinv.finish hset hstep
  | delete jobid =>
      obtain ⟨sys, hsys, hstep⟩ := bind_ok_iff.mp hstep
      cases hstep
      obtain ⟨⟨store, job⟩, tables, closed, disk⟩ := h
      cases job with
      | none =>
          obtain ⟨store', hdelete, hsys⟩ := bind_ok_iff.mp hsys
          cases hsys
          have hkept := doDelete_keeps hinv.sys hdelete
          obtain ⟨r, -, hdelete⟩ := bind_ok_iff.mp hdelete
          obtain ⟨bv, -, hdelete⟩ := bind_ok_iff.mp hdelete
          obtain ⟨kv, -, hdelete⟩ := bind_ok_iff.mp hdelete
          cases hdelete
          exact hinv.still hkept rfl hinv.phase
      | some job =>
          cases hsys
          exact hinv
  | lookup waitThreshold =>
      obtain ⟨sys, hsys, hstep⟩ := bind_ok_iff.mp hstep
      cases hstep
      obtain ⟨hsysInv, -⟩ :=
        (step_ensures (e := .lookup waitThreshold) hset False.elim hinv.sys trivial).of_ok hsys
      obtain ⟨⟨store, job⟩, tables, closed, disk⟩ := h
      cases job with
      | none =>
          cases hsys
          exact hinv
      | some job =>
          obtain ⟨job', hlookup, hsys⟩ := bind_ok_iff.mp hsys
          cases hsys
          have hjob : JobInv cfg backupScope store job := hinv.sys
          obtain ⟨start, hhar, hrest⟩ := hinv.phase
          exact hinv.still hsysInv rfl ⟨start, hhar.lookup hjob hlookup, hrest⟩
  | filter marks =>
      obtain ⟨⟨store, job⟩, tables, closed, disk⟩ := h
      cases job with
      | none =>
          cases hstep
          exact hinv
      | some job =>
          obtain ⟨sys, hsys, hstep⟩ := bind_ok_iff.mp hstep
          cases hstep
          obtain ⟨hsysInv, -⟩ :=
            (step_ensures (e := .filter _) hset False.elim hinv.sys trivial).of_ok hsys
          obtain ⟨⟨store', job'⟩, hfilter, hsys⟩ := bind_ok_iff.mp hsys
          cases hsys
          have hjob : JobInv cfg backupScope store job := hinv.sys
          have hjob' : JobInv cfg backupScope store' job' := hsysInv
          obtain ⟨start, hhar, hrest⟩ := hinv.phase
          exact hinv.still hsysInv (filterSegment_backups hfilter)
            ⟨start, hhar.filter har hjob hjob' hfilter, hrest⟩

/-- What history-aware rewriting is for. In every run of backups and deletions, whatever the index found,
the threads interleaved and the rewriting algorithm marked, no backup refers to a container that it
inherited as sparse; and where the configuration set the working directory, it inherits exactly the
containers that `close_har` recorded of the backup before. -/
theorem backups_leave_sparse (hcfg : cfg.Accepted) (har : cfg.rewriteEnableHar = true)
    {events : List Event} (hrun : Run (harStep settings cfg) (HarEvent cfg) initHarBackups events h) :
    (∀ (n : Nat) (bv : BackupVersion) (table : IdMap Int), h.sys.store.backups[n]? = some bv →
      h.tables[n]? = some table → ∀ cp ∈ bv.pointers, table.lookup cp.id = none) ∧
    (settings.directory ≠ .compiledIn → ∀ (n : Nat) (closed : HarClosed) (table : IdMap Int),
      h.closed[n]? = some closed → h.tables[n + 1]? = some table →
        ∃ records : List ContainerRecord, closed.content = records.flatMap sparseLine ∧
          ∀ id, (table.lookup id).isSome = true ↔ ∃ r ∈ records, r.cid = id) := by
  have hset := (Config.accepted_iff cfg).mp hcfg
  have hinv := hrun.invariant (HarInv settings cfg) harInv_init fun h e hinv hok =>
    ensures_of_ok fun h' hstep => harStep_inv hset har hinv hok hstep
  exact ⟨hinv.spared, hinv.inherits⟩

end Runs

section Example

/-- Chunk by chunk, with history-aware rewriting. -/
def sparseConfig : Config := { smallConfig .nearExact .physical with rewriteEnableHar := true }

theorem sparseConfig_accepted : sparseConfig.Accepted :=
  (Config.accepted_iff _).mpr ⟨Nat.succ_pos _, le_rfl, fun _ => rfl, fun _ => rfl,
    fun _ _ => ⟨rfl, rfl⟩⟩

/-- Containers less than half full are sparse; the working directory is the root. -/
def sparseHarSettings : HarSettings where
  threshold := 1 / 2
  limit := 1
  directory := .configured []
  fresh := { cid := 0, size := 0, outOfOrder := false }
  buf := []
  monitorOrder := id
  monitorOrder_perm records := .refl records

def admitsHar (cfg : Config) (h : HarBackups) : Event → Bool
  | .start files => admitsBackup cfg h.sys (.start files) &&
      decide (h.sys.store.pool.containerCount ≤ 2 ^ 63)
  | _ => true

theorem harEvent_of_admits {cfg : Config} {h : HarBackups} {e : Event}
    (hadmits : admitsHar cfg h e = true) : HarEvent cfg h e := by
  cases e with
  | start files =>
      obtain ⟨hbackup, hcount⟩ := Bool.and_eq_true_iff.mp hadmits
      exact ⟨backupEvent_of_admits hbackup, of_decide_eq_true hcount⟩
  | lookup limit | filter marks | finish | delete jobid => trivial

/-- Two backups of one chunk, which the first leaves alone in container 0: the second moves it to
container 1. -/
theorem backups_leave_sparse_two_backups : ∃ (h : HarBackups) (bv : BackupVersion)
    (table : IdMap Int) (closed : HarClosed),
    h.sys.store.backups.map (fun b => b.pointers.map ChunkPointer.id) = [[0], [1]] ∧
      h.tables.map AList.keys = [[], [0]] ∧ h.sys.store.backups[1]? = some bv ∧
      h.tables[1]? = some table ∧ (∀ cp ∈ bv.pointers, table.lookup cp.id = none) ∧
      h.closed[0]? = some closed ∧ ∃ records : List ContainerRecord,
        closed.content = records.flatMap sparseLine ∧
          ∀ id, (table.lookup id).isSome = true ↔ ∃ r ∈ records, r.cid = id := by
  have hexec : (exec (harStep sparseHarSettings sparseConfig) (admitsHar sparseConfig) initHarBackups
      (backupEvents [smallFile [1]] 2 ++ backupEvents [smallFile [1]] 2)).any
        (fun h => decide (h.sys.store.backups.map (fun b => b.pointers.map ChunkPointer.id) =
          [[0], [1]] ∧ h.tables.map AList.keys = [[], [0]] ∧ h.sys.store.backups.length = 2 ∧
          h.closed.length = 2)) = true := by
    decide +kernel
  obtain ⟨h, hexec, hcheck⟩ := (Option.any_eq_true _ _).mp hexec
  obtain ⟨hpointers, hkeys, hlength, hclosed⟩ := of_decide_eq_true hcheck
  have htables : h.tables.length = 2 := by
    have hmap := congrArg List.length hkeys
    rwa [List.length_map] at hmap
  have hrun : Run (harStep sparseHarSettings sparseConfig) (HarEvent sparseConfig) initHarBackups _ h :=
    Run.of_exec (fun _ _ hadmits => harEvent_of_admits hadmits) hexec
  obtain ⟨hspared, hinherits⟩ := backups_leave_sparse sparseConfig_accepted rfl hrun
  have hbv : h.sys.store.backups[1]? = some h.sys.store.backups[1] :=
    List.getElem?_eq_getElem (by omega)
  have htable : h.tables[1]? = some h.tables[1] := List.getElem?_eq_getElem (by omega)
  have hfirst : h.closed[0]? = some h.closed[0] := List.getElem?_eq_getElem (by omega)
  have hconfigured : sparseHarSettings.directory ≠ .compiledIn := by decide
  exact ⟨h, _, _, _, hpointers, hkeys, hbv, htable, hspared 1 _ _ hbv htable, hfirst,
    hinherits hconfigured 0 _ _ hfirst htable⟩

end Example

end Destor
