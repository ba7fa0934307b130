/- digest: The memory of a rewrite: the queued ids by which later copies are kept from a second one,
   and when the filter thread loses it. -/

import Destor.ExactDedup

set_option autoImplicit false
set_option relaxedAutoImplicit false

namespace Destor

open Library.Outcome Library.Transition

section Watching

instance (pool : ContainerPool) (storage : Option Container) (id : Int) (fp : Fingerprint) :
    Decidable (Stored pool storage id fp) :=
  decidable_of_iff
    (pool.Holds id fp ∨ storage.any (fun b => b.id == id && b.lookupFingerprint fp) = true)
    (or_congr_right (by simp [Option.any_eq_true]))

/-- The loop body of `filter_thread`, beside the list of the chunks for which it made an entry in a
container that had none. -/
def filterWatched (cfg : Config) (st : FilterState × List Chunk) (c : Chunk) :
    Except Abort ((FilterState × List Chunk) × Chunk) := do
  let (st', c') ← filterChunk cfg st.1 c
  return ((st', if c'.isNormal = true ∧
      ¬ Stored st.1.pool st.1.storage.containerBuffer c'.id c'.fp then st.2 ++ [c'] else st.2), c')

/-- The chunks that the filter thread stores when it processes its next segment. -/
def Job.stores (cfg : Config) (store : Store) (job : Job) (marks : Nat → Bool × Bool) :
    Except Abort (List Chunk) :=
  match job.inflight with
  | [] => .ok []
  | s :: _ => do
      let chunks ← indexCheckBuffer job.index.buffer (applyMarks cfg marks s.chunks)
      let ((_, stored), _) ← traverseE (filterWatched cfg) (job.filterState store, []) chunks
      return stored

def rewrittenOf (stored : List Chunk) : List Fingerprint :=
  (stored.filter fun c => c.flag.duplicate).map Chunk.fp

/-- The chunks stored although a copy was rewritten before them: those of `rewritten`, and those
after a rewritten copy of their own segment. -/
def repeats : List Fingerprint → List Chunk → List Chunk
  | _, [] => []
  | rewritten, c :: stored =>
      if c.fp ∈ rewritten then c :: repeats rewritten stored
      else repeats (if c.flag.duplicate then c.fp :: rewritten else rewritten) stored

/-- The system with its history: for each segment in flight the fingerprints rewritten since it was
looked up, and the copies that were stored again although their fingerprint was one of these. -/
structure Watched where
  sys : System
  rewritten : List (List Fingerprint)
  repeated : List Chunk

def initWatched : Watched := { sys := initSystem, rewritten := [], repeated := [] }

def System.inflight (sys : System) : List Segment :=
  match sys.job with
  | some job => job.inflight
  | none => []

def Watched.step (cfg : Config) (w : Watched) (e : Event) : Except Abort Watched := do
  let sys ← Destor.step cfg w.sys e
  match e, w.sys.job with
  | .filter marks, some job => do
      let stored ← job.stores cfg w.sys.store marks
      return {
        sys := sys
        rewritten := w.rewritten.tail.map (· ++ rewrittenOf stored)
        repeated := w.repeated ++ repeats (w.rewritten.headD []) stored }
  | _, _ => return { w with
      sys := sys
      rewritten := w.rewritten ++
        List.replicate (sys.inflight.length - w.rewritten.length) [] }

def IndexBuffer.head (buffer : IndexBuffer) (fp : Fingerprint) : Int :=
  ((buffer.bufferedFingerprints.lookup fp).getD []).headD temporaryId

/-- The filter thread is about to process the marked `chunks`, whose fingerprints of `recent` were
rewritten since they were looked up, with the segments of `later` behind them. The buffer keeps what
it knows of a rewritten fingerprint: the last copy does not put an older id in front of copies that
rely on a newer one, and no copy that waits for its id asks to be rewritten. -/
structure Remembers (buffer : IndexBuffer) (recent : List Fingerprint) (chunks : List Chunk)
    (later : List (Segment × List Fingerprint)) : Prop where
  newest : ∀ c ∈ chunks, (copiesOf c.fp chunks).getLast? = some c →
    c.flag.sparse = false ∧ c.flag.outOfOrder = false → c.id ≠ temporaryId →
      c.id < buffer.head c.fp → ∀ p ∈ later, c.fp ∈ p.2 →
        ∀ copy ∈ copiesOf c.fp p.1.chunks, copy.id < c.id
  known : ∀ c ∈ chunks, c.isNormal = true → c.id = temporaryId → c.fp ∈ recent →
    c.flag.sparse = false ∧ c.flag.outOfOrder = false

instance (buffer : IndexBuffer) (recent : List Fingerprint) (chunks : List Chunk)
    (later : List (Segment × List Fingerprint)) :
    Decidable (Remembers buffer recent chunks later) :=
  decidable_of_iff ((∀ c ∈ chunks, ¬ ((copiesOf c.fp chunks).getLast? = some c ∧
        (c.flag.sparse = false ∧ c.flag.outOfOrder = false) ∧ c.id ≠ temporaryId ∧
        c.id < buffer.head c.fp) ∨
      ∀ p ∈ later, c.fp ∉ p.2 ∨ ∀ copy ∈ copiesOf c.fp p.1.chunks, copy.id < c.id) ∧
    ∀ c ∈ chunks, ¬ (c.isNormal = true ∧ c.id = temporaryId ∧ c.fp ∈ recent) ∨
      (c.flag.sparse = false ∧ c.flag.outOfOrder = false)) (by
    constructor
    · rintro ⟨hnewest, hknown⟩
      refine ⟨fun c hc hlast hmarks hne hlt p hp hfp => ?_, fun c hc hnormal hid hfp => ?_⟩
      · have hlater := (hnewest c hc).resolve_left (not_not_intro ⟨hlast, hmarks, hne, hlt⟩)
        exact (hlater p hp).resolve_left (not_not_intro hfp)
      · exact (hknown c hc).resolve_left (not_not_intro ⟨hnormal, hid, hfp⟩)
    · rintro ⟨hnewest, hknown⟩
      refine ⟨fun c hc => or_iff_not_imp_left.mpr fun h p hp => ?_, fun c hc =>
        or_iff_not_imp_left.mpr fun h => ?_⟩
      · obtain ⟨hlast, hmarks, hne, hlt⟩ := not_not.mp h
        exact or_iff_not_imp_left.mpr fun hfp =>
          hnewest c hc hlast hmarks hne hlt p hp (not_not.mp hfp)
      · obtain ⟨hnormal, hid, hfp⟩ := not_not.mp h
        exact hknown c hc hnormal hid hfp)

/-- The events of backup and deletion runs under which the index buffer remembers. -/
def Watched.Admits (cfg : Config) (w : Watched) (e : Event) : Prop :=
  match e, w.sys.job with
  | .delete _, _ => True
  | .filter marks, some job =>
      match job.inflight with
      | [] => True
      | s :: later => Remembers job.index.buffer (w.rewritten.headD [])
          (applyMarks cfg marks s.chunks) (later.zip w.rewritten.tail)
  | e, _ => BackupEvent cfg backupScope w.sys e

end Watching

section Iteration

variable {cfg : Config} {sc : Coverage} {versions : List BackupVersion} {st₀ st st' : FilterState}
  {c c' : Chunk} {before done : List Chunk}

/-- The open container is the newest one. -/
theorem CoreInv.stored_le {pool : ContainerPool} {storage : StorageBuffer} {kv : KvStore}
    {pending : Fingerprint → Prop} (h : CoreInv cfg sc pool storage versions kv pending)
    {b : Container} (hb : storage.containerBuffer = some b) {id : Int} {fp : Fingerprint}
    (hs : Stored pool storage.containerBuffer id fp) : id ≤ b.id := by
  rcases hs with ⟨d, hd, -⟩ | ⟨d, hd, rfl, -⟩
  · exact ((h.open_ok b hb).pushed_lt id d hd).le
  · rw [hb] at hd
    cases hd
    exact le_rfl

/-- What writing a chunk leaves in the storage buffer and in the table of rewritten chunks: a
duplicate enters the table if the container had no entry for it. -/
structure Entered (st : FilterState) (c : Chunk) (st' : FilterState) (c' : Chunk) : Prop where
  open_id : ∃ b, st'.storage.containerBuffer = some b ∧ b.id = c'.id
  table : st'.recentlyRewritten =
    if c.flag.duplicate = true ∧ ¬ Stored st.pool st.storage.containerBuffer c'.id c.fp then
      st.recentlyRewritten.insert c.fp c'.id
    else st.recentlyRewritten

theorem writeChunk_entered (hset : cfg.Settled) (hexact : sc.exact → ExactIndex cfg)
    (hcore : CoreInv cfg sc st.pool st.storage versions st.kv
      fun fp => (st.recentlyUnique.lookup fp).isSome) (hfits : fitsEmptyContainer c.size) :
    Ensures (fun _ => True) (fun r => Entered st c r.1 r.2) (writeChunk cfg st c) := by
  refine ((containerFor_ensures hset hexact hcore hfits).mono (fun _ _ => trivial)
    fun _ h => h).bind ?_
  rintro ⟨st₁, b⟩ ⟨hready, hover, hstored, -, -, -, -, -, -, hrr⟩
  simp only at hready hover hstored hrr
  refine ((addChunkToContainer_ensures cfg hover (hready.roomy.sum_lt hfits)).mono
    (fun _ h => h.elim) fun _ h => h).bind ?_
  rintro ⟨added, b', c'⟩ hadd
  simp only at hadd
  have hcid : c'.id = b.id := by rw [hadd.chunk_eq]
  have hcfp : c'.fp = c.fp := by rw [hadd.chunk_eq]
  have hcdup : c'.flag = c.flag := by rw [hadd.chunk_eq]
  -- the container had an entry exactly if the chunk is stored under its id
  have hentry : Stored st.pool st.storage.containerBuffer c'.id c.fp ↔
      b.lookupFingerprint c.fp = true := by
    rw [← hstored, stored_openPart hready.counted, hcid]
    constructor
    · rintro (⟨d, hd, -⟩ | ⟨d, hd, -, hfp⟩)
      · exact absurd (hready.pushed_lt b.id d hd) (lt_irrefl _)
      · cases hd
        exact hfp
    · exact fun hfp => Or.inr ⟨b, rfl, rfl, hfp⟩
  refine Ensures.bind (P := fun _ => True) ((ensures_require (Or.inr trivial)).imp fun _ _ => trivial)
    fun _ _ => ?_
  rw [ensures_pure]
  have hopen : b'.id = c'.id := hadd.id_eq.trans hcid.symm
  have hadded := hadd.added_eq
  cases added with
  | true =>
      have hnot : b.lookupFingerprint c.fp = false := by simpa using hadded.symm
      refine ⟨⟨b', rfl, hopen⟩, ?_⟩
      simp only [if_true, recordWritten, hcdup, hcfp, hrr, hentry, hnot, Bool.false_eq_true,
        not_false_eq_true, and_true]
  | false =>
      have hhas : b.lookupFingerprint c.fp = true := by simpa using hadded
      refine ⟨⟨b', rfl, hopen⟩, ?_⟩
      simp only [Bool.false_eq_true, if_false, hentry, hhas, not_true_eq_false, and_false, hrr]

/-- A duplicate that the filter thread passes on: the rewrite was denied or nobody asks for it. -/
def Chunk.Refused (c : Chunk) : Prop :=
  c.flag.duplicate = true ∧
    (c.flag.rewriteDenied = true ∨ c.flag.sparse = false ∧ c.flag.outOfOrder = false)

theorem Chunk.Refused.not_mustWrite (h : c.Refused) (enableRewrite : Bool) :
    mustWrite enableRewrite c = false := by
  obtain ⟨hdup, hdenied | ⟨hsparse, hout⟩⟩ := h
  · simp [mustWrite, hdup, hdenied]
  · simp [mustWrite, hdup, hsparse, hout]

/-- What one iteration does to a normal chunk: a copy of a rewritten chunk follows it, a chunk that
need not be written stays, and a written one goes to the newest container. -/
inductive FilterOutcome (st : FilterState) (c : Chunk) (st' : FilterState) (c' : Chunk) : Prop
  | denied (hid : st.recentlyRewritten.lookup c.fp = some c'.id)
      (hstored : Stored st.pool st.storage.containerBuffer c'.id c.fp)
      (htable : st'.recentlyRewritten = st.recentlyRewritten)
  | kept (hnone : st.recentlyRewritten.lookup c.fp = none)
      (hid : c.id ≠ temporaryId → c'.id = c.id)
      (hstored : Stored st.pool st.storage.containerBuffer c'.id c.fp)
      (htable : st'.recentlyRewritten = st.recentlyRewritten)
  | written (hnone : st.recentlyRewritten.lookup c.fp = none) (hrefused : ¬ c.Refused)
      (hopen : ∀ id fp, Stored st.pool st.storage.containerBuffer id fp → id ≤ c'.id)
      (htable : st'.recentlyRewritten =
        if c.flag.duplicate = true ∧ ¬ Stored st.pool st.storage.containerBuffer c'.id c.fp then
          st.recentlyRewritten.insert c.fp c'.id
        else st.recentlyRewritten)

theorem resolveUnique_cases (h : resolveUnique st c = .ok c') :
    c' = { c with id := c'.id } ∧ (c.id ≠ temporaryId → c'.id = c.id) := by
  unfold resolveUnique at h
  split at h
  · rename_i hcond
    split at h
    · cases h
    · cases h
      simp only [Bool.and_eq_true, beq_iff_eq] at hcond
      exact ⟨rfl, fun hne => absurd hcond.2 hne⟩
  · cases h
    exact ⟨rfl, fun _ => rfl⟩

theorem markInCache_cases (h : markInCache cfg st c = .ok c') :
    c' = { c with flag := { c.flag with inCache := c'.flag.inCache } } := by
  unfold markInCache at h
  split at h
  · obtain ⟨-, -, h⟩ := bind_ok_iff.mp h
    cases h
    rfl
  · cases h
    rfl

theorem resolveRewritten_some {id : Int} (h : st.recentlyRewritten.lookup c.fp = some id) :
    resolveRewritten st c = { c with id := id, flag := { c.flag with rewriteDenied := true } } := by
  unfold resolveRewritten
  rw [h]

theorem resolveRewritten_none (h : st.recentlyRewritten.lookup c.fp = none) :
    resolveRewritten st c = c := by
  unfold resolveRewritten
  rw [h]

theorem FilterStep.payload (h : FilterStep cfg sc versions st c st' c')
    (hnormal : c.isNormal = true) :
    c'.fp = c.fp ∧ c'.flag.duplicate = c.flag.duplicate ∧ c'.isNormal = true := by
  obtain ⟨enable, d, st₁, hres, -, -, hwrite, -⟩ := h.normal hnormal
  rw [hwrite.chunk_eq]
  exact ⟨hres.fp_eq, hres.duplicate_eq, hres.normal_eq.trans hnormal⟩

/-- The outcome of one iteration, in a checked segment. -/
theorem filterChunk_outcome (hset : cfg.Settled) (hexact : sc.exact → ExactIndex cfg)
    (after : List Chunk) (hinv : FilterInv cfg sc versions st₀ before done st)
    (hchecked : CheckedState (fun id => sc.Sound st₀.pool st₀.storage.containerBuffer id c.fp)
      (sc.Absent st₀.pool st₀.storage.containerBuffer c.fp)
      (copiesOf c.fp (before ++ c :: after))) (hc : Filterable cfg sc c)
    (hnormal : c.isNormal = true) (h : filterChunk cfg st c = .ok (st', c')) :
    FilterOutcome st c st' c' := by
  obtain ⟨hinv', hstep⟩ := (filterChunk_ensures hset hexact after hinv hchecked hc).of_ok h
  obtain ⟨hfp, -, hnormal'⟩ := hstep.payload hnormal
  obtain ⟨enable, d, st₁, -, -, -, hwrite, hst'⟩ := hstep.normal hnormal
  simp only at hinv' hwrite hst' hfp hnormal'
  have hmono : ∀ id fp, Stored st.pool st.storage.containerBuffer id fp →
      Stored st'.pool st'.storage.containerBuffer id fp := by
    subst hst'
    exact hwrite.stored_mono
  have hstored : Stored st'.pool st'.storage.containerBuffer c'.id c.fp :=
    hfp ▸ (hinv'.done_sound c' (by simp) hnormal').2
  clear hwrite hst' d st₁ enable
  unfold filterChunk at h
  rw [if_pos hnormal] at h
  obtain ⟨c₀, hmark, h⟩ := bind_ok_iff.mp h
  obtain ⟨c₁, hunique, h⟩ := bind_ok_iff.mp h
  obtain ⟨⟨st₂, c₂⟩, hstore, h⟩ := bind_ok_iff.mp h
  obtain ⟨-, -, h⟩ := bind_ok_iff.mp h
  cases h
  have hc₀ := markInCache_cases hmark
  obtain ⟨hc₁, hid₁⟩ := resolveUnique_cases hunique
  have hfp₁ : c₁.fp = c.fp := by rw [hc₁, hc₀]
  have hflag₁ : c₁.flag = { c.flag with inCache := c₀.flag.inCache } := by
    rw [hc₁]
    exact congrArg Chunk.flag hc₀
  have hid₁' : c.id ≠ temporaryId → c₁.id = c.id := fun hne => by
    have hid₀ : c₀.id = c.id := by rw [hc₀]
    rw [hid₁ (hid₀ ▸ hne), hid₀]
  unfold storeChunk at hstore
  cases hlookup : st.recentlyRewritten.lookup c.fp with
  | some id =>
      have hdup : c.flag.duplicate = true := by
        rcases hinv.state hchecked hnormal with ⟨-, hnil, -⟩ | ⟨hdup, -⟩
        · exact absurd hnil (hinv.rewritten_sound _ _ hlookup).2
        · exact hdup
      rw [resolveRewritten_some (hfp₁ ▸ hlookup), if_neg (by simp [mustWrite, hflag₁, hdup])] at hstore
      cases hstore
      exact .denied hlookup hstored rfl
  | none =>
      rw [resolveRewritten_none (hfp₁ ▸ hlookup)] at hstore
      split at hstore
      · rename_i hmust
        have hcore : CoreInv cfg sc st.pool st.storage versions st.kv
            fun fp => (st.recentlyUnique.lookup fp).isSome := hinv.core
        have hsize : c₁.size = c.size := by rw [hc₁, hc₀]
        have hentered : Ensures (fun _ => True)
            (fun r => Entered { st with enableRewrite := switchRewrite cfg st } c₁ r.1 r.2)
            (writeChunk cfg { st with enableRewrite := switchRewrite cfg st } c₁) :=
          writeChunk_entered hset hexact hcore (hsize ▸ hc.fits)
        obtain ⟨⟨b, hb, hbid⟩, htable⟩ := hentered.of_ok hstore
        refine .written hlookup (fun hrefused => ?_) (fun id fp hs => ?_) ?_
        · have hrefused₁ : c₁.Refused := by
            unfold Chunk.Refused
            rw [hflag₁]
            exact hrefused
          rw [hrefused₁.not_mustWrite] at hmust
          cases hmust
        · exact hbid ▸ hinv'.core.stored_le hb (hmono id fp hs)
        · rw [hfp₁, hflag₁] at htable
          exact htable
      · cases hstore
        exact .kept hlookup hid₁' hstored rfl

end Iteration

section Pass

variable {cfg : Config} {sc : Coverage} {versions : List BackupVersion} {st₀ st st' : FilterState}
  {c c' : Chunk} {chunks before done stored : List Chunk} {recent : List Fingerprint}

theorem mem_rewrittenOf_append {fp : Fingerprint} :
    fp ∈ rewrittenOf (stored ++ [c]) ↔
      fp ∈ rewrittenOf stored ∨ c.flag.duplicate = true ∧ fp = c.fp := by
  cases hdup : c.flag.duplicate <;> simp [rewrittenOf, hdup]

theorem repeats_append (h : repeats recent stored = []) (hrecent : c.fp ∉ recent)
    (hstored : c.fp ∉ rewrittenOf stored) : repeats recent (stored ++ [c]) = [] := by
  induction stored generalizing recent with
  | nil => simp [repeats, hrecent]
  | cons d stored ih =>
      rw [repeats] at h
      split at h
      · cases h
      · rename_i hd
        rw [List.cons_append, repeats, if_neg hd]
        have hrest : c.fp ∉ rewrittenOf stored ∧ (d.flag.duplicate = true → c.fp ≠ d.fp) := by
          cases hdup : d.flag.duplicate
          · simpa [rewrittenOf, hdup] using hstored
          · simp only [rewrittenOf, List.filter_cons, hdup, if_true, List.map_cons, List.mem_cons,
              not_or] at hstored
            exact ⟨hstored.2, fun _ => hstored.1⟩
        apply ih h
        · split
          · rename_i hdup
            simp [hrest.2 hdup, hrecent]
          · exact hrecent
        · exact hrest.1

/-- The last copy of a fingerprint, before and after the loop: it follows the rewritten chunk, or
it keeps its id, or it goes to a container that is not older than any that has the chunk. -/
inductive LastId (st₀ st : FilterState) (c c' : Chunk) : Prop
  | rewritten (hid : st.recentlyRewritten.lookup c.fp = some c'.id)
  | kept (hnone : st.recentlyRewritten.lookup c.fp = none) (hid : c.id ≠ temporaryId → c'.id = c.id)
  | newest (hnone : st.recentlyRewritten.lookup c.fp = none)
      (hid : ∀ id, Stored st₀.pool st₀.storage.containerBuffer id c.fp → id ≤ c'.id)

structure PassInv (recent : List Fingerprint) (st₀ : FilterState) (before done stored : List Chunk)
    (st : FilterState) : Prop where
  table : ∀ fp, fp ∈ rewrittenOf stored ↔ (st.recentlyRewritten.lookup fp).isSome
  newer : ∀ fp id, st.recentlyRewritten.lookup fp = some id →
    ∀ i, Stored st₀.pool st₀.storage.containerBuffer i fp → i < id
  last : ∀ fp c c', (copiesOf fp before).getLast? = some c →
    (copiesOf fp done).getLast? = some c' → LastId st₀ st c c'
  once : repeats recent stored = []

theorem PassInv.start (recent : List Fingerprint) (hnone : st₀.recentlyRewritten = ∅) :
    PassInv recent st₀ [] [] [] st₀ where
  table fp := by simp [rewrittenOf, hnone]
  newer fp id h := by simp [hnone] at h
  last := by simp
  once := rfl

theorem getLast?_copiesOf_append (hnormal : c.isNormal = true) (fp : Fingerprint) :
    (copiesOf fp (before ++ [c])).getLast? =
      if c.fp = fp then some c else (copiesOf fp before).getLast? := by
  rw [copiesOf_append, copiesOf_cons, copiesOf_nil]
  split
  · rename_i h
    simp [h.2]
  · rename_i h
    rw [if_neg fun hfp => h ⟨hnormal, hfp⟩, List.append_nil]

variable (st') in
private theorem PassInv.last_step (h : PassInv recent st₀ before done stored st)
    (hnormal : c.isNormal = true) (hfp : c'.fp = c.fp) (hnormal' : c'.isNormal = true)
    (hother : ∀ fp, fp ≠ c.fp → st'.recentlyRewritten.lookup fp = st.recentlyRewritten.lookup fp)
    (hc : LastId st₀ st' c c') :
    ∀ fp d d', (copiesOf fp (before ++ [c])).getLast? = some d →
      (copiesOf fp (done ++ [c'])).getLast? = some d' → LastId st₀ st' d d' := by
  intro fp d d' hd hd'
  rw [getLast?_copiesOf_append hnormal] at hd
  rw [getLast?_copiesOf_append hnormal', hfp] at hd'
  by_cases heq : c.fp = fp
  · rw [if_pos heq] at hd hd'
    cases hd
    cases hd'
    exact hc
  · rw [if_neg heq] at hd hd'
    have hdfp : d.fp = fp := (mem_copiesOf.mp (List.mem_of_getLast? hd)).2.2
    have hsame := hother d.fp (hdfp ▸ Ne.symm heq)
    cases h.last fp d d' hd hd' with
    | rewritten hid => exact .rewritten (hsame.trans hid)
    | kept hnone hid => exact .kept (hsame.trans hnone) hid
    | newest hnone hid => exact .newest (hsame.trans hnone) hid

/-- The invariant over one normal chunk. -/
theorem PassInv.step (h : PassInv recent st₀ before done stored st)
    (hinv : FilterInv cfg sc versions st₀ before done st) (hout : FilterOutcome st c st' c')
    (hnormal : c.isNormal = true) (hrecent : c.fp ∈ recent → c.Refused)
    (hfp : c'.fp = c.fp) (hdup : c'.flag.duplicate = c.flag.duplicate)
    (hnormal' : c'.isNormal = true) :
    PassInv recent st₀ (before ++ [c]) (done ++ [c'])
      (if ¬ Stored st.pool st.storage.containerBuffer c'.id c'.fp then stored ++ [c'] else stored)
      st' := by
  have hlast := h.last_step st' hnormal hfp hnormal'
  rw [hfp]
  cases hout with
  | denied hid hstored htable =>
      rw [if_neg (not_not.mpr hstored)]
      rw [htable] at hlast
      refine ⟨htable ▸ h.table, htable ▸ h.newer, hlast (fun _ _ => rfl) ?_, h.once⟩
      exact .rewritten (htable ▸ hid)
  | kept hnone hid hstored htable =>
      rw [if_neg (not_not.mpr hstored)]
      rw [htable] at hlast
      refine ⟨htable ▸ h.table, htable ▸ h.newer, hlast (fun _ _ => rfl) ?_, h.once⟩
      exact .kept (htable ▸ hnone) hid
  | written hnone hrefused hopen htable =>
      have hopen₀ : ∀ id, Stored st₀.pool st₀.storage.containerBuffer id c.fp → id ≤ c'.id :=
        fun id hs => hopen id c.fp (hinv.stored_mono id c.fp hs)
      have hnew : c.fp ∉ rewrittenOf stored := by
        rw [h.table, hnone]
        simp
      by_cases hstored : Stored st.pool st.storage.containerBuffer c'.id c.fp
      · -- the container had the chunk
        rw [if_neg fun hand => hand.2 hstored] at htable
        rw [if_neg (not_not.mpr hstored)]
        rw [htable] at hlast
        refine ⟨htable ▸ h.table, htable ▸ h.newer, hlast (fun _ _ => rfl) ?_, h.once⟩
        exact .newest (htable ▸ hnone) hopen₀
      · rw [if_pos hstored]
        have honce := repeats_append (c := c') h.once (hfp ▸ fun hmem => hrefused (hrecent hmem))
          (hfp ▸ hnew)
        by_cases hcdup : c.flag.duplicate = true
        · rw [if_pos ⟨hcdup, hstored⟩] at htable
          have hself : st'.recentlyRewritten.lookup c.fp = some c'.id := by
            rw [htable]
            exact AList.lookup_insert _
          have hother : ∀ fp, fp ≠ c.fp →
              st'.recentlyRewritten.lookup fp = st.recentlyRewritten.lookup fp := by
            intro fp hne
            rw [htable]
            exact AList.lookup_insert_ne hne
          refine ⟨fun fp => ?_, fun fp id hid i hi => ?_, hlast hother (.rewritten hself), honce⟩
          · rw [mem_rewrittenOf_append, hdup, hfp]
            by_cases heq : fp = c.fp
            · rw [heq, hself]
              simp [hcdup]
            · rw [hother fp heq, h.table fp]
              simp [heq]
          · by_cases heq : fp = c.fp
            · subst heq
              rw [hself] at hid
              cases hid
              refine lt_of_le_of_ne (hopen₀ i hi) fun heq => hstored ?_
              exact heq ▸ hinv.stored_mono i c.fp hi
            · rw [hother fp heq] at hid
              exact h.newer fp id hid i hi
        · -- a unique chunk enters another table
          rw [if_neg fun hand => hcdup hand.1] at htable
          rw [htable] at hlast
          refine ⟨fun fp => ?_, htable ▸ h.newer, hlast (fun _ _ => rfl) ?_, honce⟩
          · rw [mem_rewrittenOf_append, hdup, htable, h.table fp]
            simp [hcdup]
          · exact .newest (htable ▸ hnone) hopen₀

/-- A file boundary passes through the loop. -/
theorem PassInv.signal (h : PassInv recent st₀ before done stored st)
    (hsignal : c.isNormal = false) :
    PassInv recent st₀ (before ++ [c]) (done ++ [c]) stored st := by
  have hcopies : ∀ (fp : Fingerprint) (l : List Chunk),
      copiesOf fp (l ++ [c]) = copiesOf fp l := by
    intro fp l
    simp [copiesOf_cons, hsignal]
  refine ⟨h.table, h.newer, fun fp d d' hd hd' => ?_, h.once⟩
  rw [hcopies] at hd hd'
  exact h.last fp d d' hd hd'

/-- The history leaves the loop as it is. -/
theorem filterWatched_eq (cfg : Config) (st : FilterState) (stored chunks : List Chunk) :
    (traverseE (filterWatched cfg) (st, stored) chunks).map (fun r => (r.1.1, r.2)) =
      traverseE (filterChunk cfg) st chunks := by
  refine traverseE_history Prod.fst (fun t c => ?_) (st, stored) chunks
  unfold filterWatched
  cases filterChunk cfg t.1 c <;> rfl

/-- The loop over a checked segment none of whose chunks of `recent` is to be written. -/
theorem filterWatched_ensures (hset : cfg.Settled) (hexact : sc.exact → ExactIndex cfg)
    (h : FilterInv cfg sc versions st₀ [] [] st₀) (hnone : st₀.recentlyRewritten = ∅)
    (hchecked : ∀ fp, CheckedState
      (fun id => sc.Sound st₀.pool st₀.storage.containerBuffer id fp)
      (sc.Absent st₀.pool st₀.storage.containerBuffer fp) (copiesOf fp chunks))
    (hchunks : ∀ c ∈ chunks, Filterable cfg sc c)
    (hrecent : ∀ c ∈ chunks, c.isNormal = true → c.fp ∈ recent → c.Refused) :
    Ensures (fun _ => True)
      (fun r => FilterInv cfg sc versions st₀ chunks r.2 r.1.1 ∧
        PassInv recent st₀ chunks r.2 r.1.2 r.1.1)
      (traverseE (filterWatched cfg) (st₀, []) chunks) := by
  have hloop := traverseE_ensures (fun _ => True) (f := filterWatched cfg)
    (fun done st rest => ∃ before, before ++ rest = chunks ∧
      FilterInv cfg sc versions st₀ before done st.1 ∧
      PassInv recent st₀ before done st.2 st.1)
    (by
      rintro done ⟨st, stored⟩ c rest ⟨before, hsplit, hinv, hpass⟩
      simp only at hinv hpass
      have hmem : c ∈ chunks := hsplit ▸ List.mem_append_right _ List.mem_cons_self
      have hstep := filterChunk_ensures hset hexact rest hinv (hsplit ▸ hchecked c.fp)
        (hchunks c hmem)
      apply (hstep.and_eq.mono (fun _ _ => trivial) fun _ h => h).bind
      rintro ⟨st', c'⟩ ⟨⟨hinv', hfilter⟩, hok⟩
      refine ⟨before ++ [c], by simpa using hsplit, hinv', ?_⟩
      simp only
      cases hnormal : c.isNormal with
      | false =>
          obtain ⟨rfl, rfl⟩ := hfilter.signal hnormal
          rw [if_neg fun hand => absurd (hnormal.symm.trans hand.1) Bool.false_ne_true]
          exact hpass.signal hnormal
      | true =>
          obtain ⟨hfp, hdup, hnormal'⟩ := hfilter.payload hnormal
          simp only [hnormal', true_and]
          exact hpass.step hinv (filterChunk_outcome hset hexact rest hinv (hsplit ▸ hchecked c.fp)
            (hchunks c hmem) hnormal hok) hnormal (hrecent c hmem hnormal) hfp hdup hnormal')
    (s := (st₀, [])) (l := chunks) ⟨[], rfl, h, .start recent hnone⟩
  apply hloop.imp
  rintro r ⟨before, hsplit, hinv, hpass⟩
  rw [List.append_nil] at hsplit
  exact hsplit ▸ ⟨hinv, hpass⟩

end Pass

end Destor
