/- digest: Along every restore through the optimal cache, the window is a stretch of the recorded
   accesses, and an eviction takes a container whose next access in it comes last. -/

import Destor.Recipe.AccessRecords
import Destor.Restore.OptimalPaging

set_option autoImplicit false
set_option relaxedAutoImplicit false

namespace Destor

open Library Library.Outcome Library.Paging OptimalCache

variable {α : Type}

namespace OptimalCache

section Buffers

/-- The sequence numbers that the table holds. -/
def heldSeqnos (table : IdMap (List Int)) : Nat := (table.entries.map fun e => e.2.length).sum

/-- The window is a stretch of the recorded accesses from number `n` on, and the table holds the
sequence numbers of its elements, which are of type `int`, and no others. -/
structure Buffers (records : List Int) (n : Nat) (s : OptimalCache α) (window : List Int) :
    Prop where
  stretch : window <+: records.drop n
  seqnos : ∀ cid, seqnoQueue s.accessRecordTable cid = (occurrences n window cid).map toInt32
  num : s.bufferedAccessRecordNum = window.length
  held : s.bufferedAccessRecordNum = heldSeqnos s.accessRecordTable

variable {env : RestoreEnv} {s : OptimalCache α} {table : IdMap (List Int)} {window : List Int}
  {base : Int}

theorem length_occurrences (base : Int) (l : List Int) (id : Int) :
    (occurrences base l id).length = l.count id := by
  induction l generalizing base with
  | nil => rfl
  | cons x l ih =>
      by_cases hx : x = id
      · rw [hx, occurrences_cons_self, List.length_cons, ih, List.count_cons_self]
      · rw [occurrences_cons_of_ne hx, ih, List.count_cons_of_ne hx]

private theorem sum_count (keys : List Int) (hnodup : keys.Nodup) (window : List Int)
    (hmem : ∀ x ∈ window, x ∈ keys) : (keys.map fun k => window.count k).sum = window.length := by
  induction window with
  | nil => simp
  | cons x window ih =>
      obtain ⟨hx, hrest⟩ := List.forall_mem_cons.mp hmem
      have hone := List.count_eq_one_of_mem hnodup hx
      have hsplit : ∀ l : List Int, (l.map fun k => (x :: window).count k).sum =
          (l.map fun k => window.count k).sum + l.count x := by
        intro l
        induction l with
        | nil => rfl
        | cons k l ihl =>
            rw [List.map_cons, List.sum_cons, List.map_cons, List.sum_cons, ihl, List.count_cons,
              List.count_cons]
            by_cases hk : x = k
            · simp only [hk, beq_self_eq_true, if_true]
              omega
            · have hk' : ¬ k = x := fun heq => hk heq.symm
              simp only [beq_iff_eq, hk, hk', if_false]
              omega
      rw [hsplit, hone, ih hrest, List.length_cons]

theorem heldSeqnos_eq
    (h : ∀ cid, seqnoQueue table cid = (occurrences base window cid).map toInt32) :
    heldSeqnos table = window.length := by
  have hqueue : ∀ e ∈ table.entries, e.2.length = window.count e.1 := by
    intro e he
    have hlookup : table.lookup e.1 = some e.2 := AList.mem_lookup_iff.mpr he
    have heq := h e.1
    rw [seqnoQueue, hlookup, Option.getD_some] at heq
    rw [heq, List.length_map, length_occurrences]
  have hkeys : ∀ x ∈ window, x ∈ table.keys := by
    intro x hx
    apply AList.lookup_isSome.mp
    apply lookup_isSome_of_queue
    rw [h x]
    exact fun hnil => occurrences_eq_nil.mp (List.map_eq_nil_iff.mp hnil) hx
  rw [heldSeqnos, List.map_congr_left hqueue, ← sum_count table.keys table.nodupKeys window hkeys,
    AList.keys, List.keys, List.map_map]
  rfl

theorem WindowInv.buffers {future records before : List Int}
    (h : WindowInv env before.length s window future)
    (hrecords : records = before ++ (future ++ [temporaryId])) :
    Buffers records before.length s window := by
  constructor
  · rw [hrecords, List.drop_left, ← h.pending]
    exact List.prefix_append window s.records
  · exact h.queues
  · exact h.buffered
  · rw [h.buffered, heldSeqnos_eq h.queues]

end Buffers

section Eviction

variable {reader : CacheReader α} {env : RestoreEnv} {s s' : OptimalCache α} {id : Int}
  {n : Nat} {window future : List Int}

/-- The records of the sequence and the cached containers belong together, and each of these records
is still in the table. -/
structure OneToOne (reader : CacheReader α) (s : OptimalCache α) : Prop where
  distinct : (reader.ids s.lruQueue).Nodup
  matched : s.sortedRecords.Perm (reader.ids s.lruQueue)
  live : ∀ cid ∈ s.sortedRecords, (s.accessRecordTable.lookup cid).isSome = true

/-- Records that leave the table belong to containers that are neither cached nor accessed in the
window. -/
def FreesDead (reader : CacheReader α) (window : List Int) (s s' : OptimalCache α) : Prop :=
  ∀ cid, (s.accessRecordTable.lookup cid).isSome = true →
    s'.accessRecordTable.lookup cid = none → cid ∉ reader.ids s'.lruQueue ∧ cid ∉ window

/-- The victim is a cached container; it leaves the cache and its record the sequence, and no cached
container has a later next access in the window. -/
structure Evicts (reader : CacheReader α) (window : List Int) (s s' : OptimalCache α)
    (victim : Int) : Prop where
  cached : (reader.ids s.lruQueue).Perm (victim :: reader.ids s'.lruQueue)
  recorded : s.sortedRecords.Perm (victim :: s'.sortedRecords)
  latest : ∀ w ∈ reader.ids s.lruQueue, window.idxOf w ≤ window.idxOf victim
  freed : FreesDead reader window s s'

theorem CacheInv.oneToOne (h : CacheInv reader s) : OneToOne reader s := by
  constructor
  · exact h.distinct
  · exact h.sorted
  · exact fun cid hcid => h.recorded cid (h.sorted.mem_iff.mp hcid)

/-- An eviction leaves the queues alone: only empty ones go. -/
theorem evict_queues (h : s.evict reader = .ok s') (cid : Int) :
    seqnoQueue s'.accessRecordTable cid = seqnoQueue s.accessRecordTable cid := by
  rw [evict] at h
  split at h
  · cases h
  · rename_i victim _
    cases h
    exact seqnoQueue_dropRecord s (reader.toMeta victim).id cid

theorem CacheInv.evicts (hwindow : env.WindowSized) (h : CacheInv reader s)
    (hwin : WindowInv env n s window future) (hfull : s.lruQueue.isFull = true) :
    ∃ s' victim, s.evict reader = .ok s' ∧ CacheInv reader s' ∧
      Evicts reader window s s' victim := by
  obtain ⟨s', victim, hok, hcache, -, hperm, -, -, -, -, -, hlater⟩ := h.evict hwindow hwin hfull
  refine ⟨s', victim, hok, hcache, hperm, ?_, hlater, fun cid hsome hnone => ⟨?_, ?_⟩⟩
  · exact h.sorted.trans (hperm.trans (hcache.sorted.symm.cons victim))
  · intro hmem
    have hsome' := hcache.recorded cid hmem
    rw [hnone] at hsome'
    cases hsome'
  · have hempty := evict_queues hok cid
    rw [hwin.queues, seqnoQueue, hnone, Option.getD_none] at hempty
    exact occurrences_eq_nil.mp (List.map_eq_nil_iff.mp hempty.symm)

end Eviction

end OptimalCache

section Walk

variable {cfg : Config} {env : RestoreEnv} {reader : CacheReader α}

structure WalkInv (env : RestoreEnv) (done rest : List Int) (s : OptimalCache α) : Prop where
  window : ∃ window,
    WindowInv env (changes temporaryId done).length s window (changes s.lastId rest)
  slides : Slides env s
  last : s.lastId = (temporaryId :: done).getLast (List.cons_ne_nil _ _)

variable {done rest : List Int} {s s' : OptimalCache α} {c : Chunk} {t t' : OptimalRestore α}

/-- The records of a recipe, split where the walk stands. -/
theorem WalkInv.accessRecords_eq (h : WalkInv env done rest s) :
    accessRecords (done ++ rest) =
      changes temporaryId done ++ (changes s.lastId rest ++ [temporaryId]) := by
  rw [accessRecords, changes_append, ← h.last, List.append_assoc]

theorem WalkInv.setCached (h : WalkInv env done rest s) (lruQueue : LruCache α)
    (sortedRecords : List Int) :
    WalkInv env done rest { s with
      lruQueue := lruQueue
      sortedRecords := sortedRecords } := by
  obtain ⟨window, hwin⟩ := h.window
  refine ⟨⟨window, ?_⟩, h.slides, h.last⟩
  exact ⟨hwin.number, hwin.queues, hwin.buffered, hwin.within, hwin.pending, hwin.recordsEnd⟩

theorem WalkInv.makeRoom (h : WalkInv env done rest s) (hok : s.makeRoom reader = .ok s') :
    WalkInv env done rest s' := by
  obtain ⟨window, hwin⟩ := h.window
  rw [OptimalCache.makeRoom] at hok
  split at hok
  · have hqueues := evict_queues hok
    rw [evict] at hok
    split at hok
    · cases hok
    · cases hok
      refine ⟨⟨window, ?_⟩, h.slides, h.last⟩
      exact ⟨hwin.number, fun cid => (hqueues cid).trans (hwin.queues cid), hwin.buffered,
        hwin.within, hwin.pending, hwin.recordsEnd⟩
  · cases hok
    exact h

/-- What a fetch that succeeds has done. -/
theorem fetch_cases (h : t.fetch env reader c = .ok t') :
    ∃ s₁, t.cache.access env c.id = .ok s₁ ∧
      ((c.id ∈ reader.ids s₁.lruQueue ∧
          t'.cache = { s₁ with lruQueue := (s₁.lruQueue.hits (reader.checkId c.id)).2 }) ∨
        (c.id ∉ reader.ids s₁.lruQueue ∧ ∃ s₂ e, s₁.makeRoom reader = .ok s₂ ∧
          reader.retrieve c.id = .ok e ∧ (s₂.accessRecordTable.lookup c.id).isSome = true ∧
          t'.cache = OptimalCache.insertRecord env { s₂ with lruQueue := s₂.lruQueue.insert e }
            c.id)) := by
  obtain ⟨⟨hit, cache⟩, hhits, h⟩ := bind_ok_iff.mp h
  obtain ⟨s₁, haccess, hhits⟩ := bind_ok_iff.mp hhits
  have hsplit := Except.ok.inj hhits
  refine ⟨s₁, haccess, ?_⟩
  by_cases hid : c.id ∈ reader.ids s₁.lruQueue
  · have hfound : (s₁.lruQueue.hits (reader.checkId c.id)).1.isSome = true := by
      rw [LruCache.hits_fst]
      exact List.find?_isSome.mpr (mem_ids_iff.mp hid)
    have hhit : hit = true := (congrArg Prod.fst hsplit).symm.trans hfound
    rw [hhit] at h
    change Except.ok { t with cache := cache } = Except.ok t' at h
    cases h
    exact .inl ⟨hid, (congrArg Prod.snd hsplit).symm⟩
  · have hmiss := hits_of_notMem hid
    have hhit : hit = false := by
      apply (congrArg Prod.fst hsplit).symm.trans
      show (s₁.lruQueue.hits (reader.checkId c.id)).1.isSome = false
      rw [hmiss]
      rfl
    have hcache : cache = s₁ := by
      apply (congrArg Prod.snd hsplit).symm.trans
      show { s₁ with lruQueue := (s₁.lruQueue.hits (reader.checkId c.id)).2 } = s₁
      rw [hmiss]
    rw [hhit, hcache] at h
    change (s₁.insert env reader c.id >>= fun cache => Except.ok { t with
      cache := cache
      counts := t.counts.readContainer }) = Except.ok t' at h
    obtain ⟨s₃, hinsert, h⟩ := bind_ok_iff.mp h
    cases h
    obtain ⟨s₂, hroom, hinsert⟩ := bind_ok_iff.mp hinsert
    obtain ⟨e, hretrieve, hinsert⟩ := bind_ok_iff.mp hinsert
    obtain ⟨u, hrecord, hinsert⟩ := bind_ok_iff.mp hinsert
    cases hinsert
    exact .inr ⟨hid, s₂, e, hroom, hretrieve, require_ok_iff.mp hrecord, rfl⟩

/-- The number of accesses made so far. -/
theorem WalkInv.length_changes {id : Int} (h : WalkInv env done (id :: rest) s) :
    (changes temporaryId (done ++ [id])).length =
      (changes temporaryId done).length + if s.lastId = id then 0 else 1 := by
  rw [changes_append, ← h.last, List.length_append]
  by_cases hid : s.lastId = id
  · rw [if_pos hid, hid, changes_cons_self]
    rfl
  · rw [if_neg hid, changes_cons_of_ne hid]
    rfl

theorem WalkInv.access {id : Int} (hwindow : env.WindowSized)
    (hids : ∀ x ∈ id :: rest, x ≠ temporaryId) (h : WalkInv env done (id :: rest) s)
    (hok : s.access env id = .ok s') : WalkInv env (done ++ [id]) rest s' := by
  have hlength := h.length_changes
  obtain ⟨window, hwin⟩ := h.window
  obtain ⟨s₁, n₁, window₁, haccess, hwin₁, hn₁, -, hlast, hend, -⟩ :=
    access_spec hwindow hids hwin h.slides
  have heq : s₁ = s' := Except.ok.inj (haccess.symm.trans hok)
  subst heq
  refine ⟨⟨window₁, ?_⟩, h.slides.of_records hend, ?_⟩
  · rw [hlast, hlength, ← hn₁]
    exact hwin₁
  · rw [hlast, List.getLast_cons (List.append_ne_nil_of_right_ne_nil _ (List.cons_ne_nil _ _)),
      List.getLast_append_singleton]

theorem WalkInv.fetch (hwindow : env.WindowSized)
    (hids : ∀ x ∈ c.id :: rest, x ≠ temporaryId) (h : WalkInv env done (c.id :: rest) t.cache)
    (hok : t.fetch env reader c = .ok t') : WalkInv env (done ++ [c.id]) rest t'.cache := by
  obtain ⟨s₁, haccess, hcases⟩ := fetch_cases hok
  have hwalk := h.access hwindow hids haccess
  rcases hcases with ⟨-, heq⟩ | ⟨-, s₂, e, hroom, -, -, heq⟩
  · rw [heq]
    exact hwalk.setCached _ _
  · rw [heq]
    exact (hwalk.makeRoom hroom).setCached _ _

theorem fetch_queues {s₁ : OptimalCache α} (hok : t.fetch env reader c = .ok t')
    (haccess : t.cache.access env c.id = .ok s₁) (cid : Int) :
    seqnoQueue t'.cache.accessRecordTable cid = seqnoQueue s₁.accessRecordTable cid := by
  obtain ⟨s₁', haccess', hcases⟩ := fetch_cases hok
  have heq : s₁' = s₁ := Except.ok.inj (haccess'.symm.trans haccess)
  subst heq
  rcases hcases with ⟨-, heq⟩ | ⟨-, s₂, e, hroom, -, -, heq⟩
  · rw [heq]
  · rw [heq]
    show seqnoQueue s₂.accessRecordTable cid = _
    rw [OptimalCache.makeRoom] at hroom
    split at hroom
    · exact evict_queues hroom cid
    · cases hroom
      rfl

/-- A fetch that succeeds keeps the cache as it should be. -/
theorem OptimalInv.fetch (hwindow : env.WindowSized) (hlawful : reader.Lawful)
    (hids : ∀ x ∈ c.id :: rest, x ≠ temporaryId)
    (h : OptimalInv env reader t.cache (c.id :: rest))
    (hok : t.fetch env reader c = .ok t') : OptimalInv env reader t'.cache rest := by
  obtain ⟨n, window, hwin⟩ := h.window
  obtain ⟨s₁, -, -, haccess, -, -, hsame, -, -, -⟩ := access_spec hwindow hids hwin h.slides
  obtain ⟨s₁', haccess', hcases⟩ := fetch_cases hok
  have heq : s₁' = s₁ := Except.ok.inj (haccess'.symm.trans haccess)
  subst heq
  obtain ⟨e, hretrieve⟩ : ∃ e, reader.retrieve c.id = .ok e := by
    rcases hcases with ⟨hid, -⟩ | ⟨-, -, e, -, hretrieve, -⟩
    · obtain ⟨e, he, hide⟩ := List.mem_map.mp hid
      exact ⟨e, hide ▸ (h.cache.of_same hsame).retrieved e he⟩
    · exact ⟨e, hretrieve⟩
  obtain ⟨t'', -, -, hok', hinv, -⟩ := OptimalRestore.fetch_spec hwindow hlawful hids h hretrieve
  have heq : t'' = t' := Except.ok.inj (hok'.symm.trans hok)
  exact heq ▸ hinv

/-- A lookup by fingerprint permutes the cached containers. -/
theorem OptimalInv.lookup (h : OptimalInv env reader s rest) (hit : α → Bool) :
    OptimalInv env reader { s with lruQueue := (s.lruQueue.lookup hit).2 } rest := by
  have hperm : (s.lruQueue.lookup hit).2.elemQueue.Perm s.lruQueue.elemQueue := by
    rw [LruCache.lookup]
    split
    · exact LruCache.moveToFront_perm hit _
    · exact List.Perm.refl _
  have hmax : (s.lruQueue.lookup hit).2.maxSize = s.lruQueue.maxSize := by
    rw [LruCache.lookup]
    split
    · rfl
    · rfl
  have hids : (reader.ids (s.lruQueue.lookup hit).2).Perm (reader.ids s.lruQueue) := hperm.map _
  obtain ⟨n, window, hwin⟩ := h.window
  have hcache := h.cache
  refine ⟨⟨?_, ?_, ?_, ?_, ?_, ?_⟩, ⟨n, window, ?_⟩, h.slides, ?_⟩
  · exact hcache.bound.lookup hit
  · show 0 < (s.lruQueue.lookup hit).2.maxSize
    rw [hmax]
    exact hcache.positive
  · exact fun e he => hcache.retrieved e (hperm.mem_iff.mp he)
  · exact hids.nodup_iff.mpr hcache.distinct
  · exact hcache.sorted.trans hids.symm
  · exact fun cid hcid => hcache.recorded cid (hids.mem_iff.mp hcid)
  · exact ⟨hwin.number, hwin.queues, hwin.buffered, hwin.within, hwin.pending, hwin.recordsEnd⟩
  · exact h.last.imp_right hids.mem_iff.mpr

end Walk

section Loops

variable {cfg : Config} {env : RestoreEnv} {reader : CacheReader α}
  {step : OptimalRestore α → Chunk → Except Abort (OptimalRestore α)}

/-- The loop bodies of `optimal_restore_thread`, as far as their cache is concerned: a fetch, and
perhaps a lookup by fingerprint. -/
structure WalkStep (env : RestoreEnv) (reader : CacheReader α)
    (step : OptimalRestore α → Chunk → Except Abort (OptimalRestore α)) : Prop where
  normal : ∀ {t t' : OptimalRestore α} {c : Chunk}, c.isNormal = true → step t c = .ok t' →
    ∃ t₁, t.fetch env reader c = .ok t₁ ∧ (t'.cache = t₁.cache ∨
      ∃ hit, t'.cache = { t₁.cache with lruQueue := (t₁.cache.lruQueue.lookup hit).2 })
  signal : ∀ {t t' : OptimalRestore α} {c : Chunk}, c.isNormal = false → step t c = .ok t' →
    t'.cache = t.cache

theorem walkStep_chunk (cfg : Config) (env : RestoreEnv) :
    WalkStep env (containerReader cfg env) (OptimalRestore.chunk cfg env) where
  normal := by
    intro t t' c hc hok
    rw [OptimalRestore.chunk, if_pos hc] at hok
    obtain ⟨t₁, hfetch, hok⟩ := bind_ok_iff.mp hok
    obtain ⟨⟨rc, t₂⟩, hlookup, hok⟩ := bind_ok_iff.mp hok
    cases hok
    refine ⟨t₁, hfetch, .inr ⟨(containerReader cfg env).hasFp c.fp, ?_⟩⟩
    rw [OptimalRestore.lookup] at hlookup
    split at hlookup
    · cases hlookup
    · rename_i hfound
      obtain ⟨rc', -, hlookup⟩ := bind_ok_iff.mp hlookup
      cases hlookup
      rw [hfound]
  signal := by
    intro t t' c hc hok
    rw [OptimalRestore.chunk, if_neg (by simp [hc])] at hok
    cases hok
    rfl

theorem walkStep_chunkMeta (cfg : Config) (env : RestoreEnv) :
    WalkStep env (containerMetaReader cfg env) (OptimalRestore.chunkMeta cfg env) where
  normal := by
    intro t t' c hc hok
    rw [OptimalRestore.chunkMeta, if_pos hc] at hok
    obtain ⟨t₁, hfetch, hok⟩ := bind_ok_iff.mp hok
    cases hok
    exact ⟨t₁, hfetch, .inl rfl⟩
  signal := by
    intro t t' c hc hok
    rw [OptimalRestore.chunkMeta, if_neg (by simp [hc])] at hok
    cases hok
    rfl

theorem containerIds_append (l l' : List Chunk) :
    containerIds (l ++ l') = containerIds l ++ containerIds l' := by
  rw [containerIds, List.filter_append, List.map_append]
  rfl

/-- What every fetch and every lookup keep holds along the stream. -/
theorem walk_run (hstep : WalkStep env reader step)
    (Inv : List Int → List Int → OptimalCache α → Prop)
    (hfetch : ∀ {done rest : List Int} {t t' : OptimalRestore α} {c : Chunk},
      (∀ x ∈ c.id :: rest, x ≠ temporaryId) → Inv done (c.id :: rest) t.cache →
        t.fetch env reader c = .ok t' → Inv (done ++ [c.id]) rest t'.cache)
    (hlookup : ∀ {done rest : List Int} {s : OptimalCache α} (hit : α → Bool),
      Inv done rest s → Inv done rest { s with lruQueue := (s.lruQueue.lookup hit).2 })
    {chunks rest : List Chunk} (before : List Int) {t t' : OptimalRestore α}
    (hids : ∀ x ∈ containerIds (chunks ++ rest), x ≠ temporaryId)
    (h : Inv before (containerIds (chunks ++ rest)) t.cache) (hok : foldE step t chunks = .ok t') :
    Inv (before ++ containerIds chunks) (containerIds rest) t'.cache := by
  induction chunks generalizing before t with
  | nil =>
      cases hok
      rwa [containerIds, List.filter_nil, List.map_nil, List.append_nil]
  | cons c chunks ih =>
      obtain ⟨t₁, hc, hrest⟩ := bind_ok_iff.mp hok
      rw [List.cons_append] at hids h
      by_cases hnormal : c.isNormal = true
      · rw [containerIds_cons hnormal] at hids h
        have hids' : ∀ x ∈ containerIds (chunks ++ rest), x ≠ temporaryId :=
          fun x hx => hids x (List.mem_cons_of_mem _ hx)
        obtain ⟨t₂, hok₂, hcache⟩ := hstep.normal hnormal hc
        have hinv₂ := hfetch hids h hok₂
        have hinv₁ : Inv (before ++ [c.id]) (containerIds (chunks ++ rest)) t₁.cache := by
          rcases hcache with heq | ⟨hit, heq⟩
          · exact heq ▸ hinv₂
          · rw [heq]
            exact hlookup hit hinv₂
        have hdone := ih _ hids' hinv₁ hrest
        rwa [List.append_assoc, List.singleton_append, ← containerIds_cons hnormal] at hdone
      · have hsignal : c.isNormal = false := Bool.eq_false_iff.mpr hnormal
        rw [containerIds_cons_of_signal hsignal] at hids h ⊢
        rw [← hstep.signal hsignal hc] at h
        exact ih _ hids h hrest

variable {stream : List Chunk}

/-- The walk of the thread starts with the accesses of the recipe ahead. -/
theorem WalkInv.init (cfg : Config) (hpos : 1 ≤ env.optWindowSize)
    (hids : ∀ x ∈ containerIds stream, x ≠ temporaryId)
    (hfits : env.WindowFits (accessRecords (containerIds stream)).length) :
    ∃ t : OptimalRestore α,
      OptimalRestore.init cfg env (accessRecords (containerIds stream)) = .ok t ∧
      WalkInv env [] (containerIds stream) t.cache := by
  have hfuture : ∀ id ∈ changes temporaryId (containerIds stream), id ≠ temporaryId :=
    fun id hid => hids id (mem_of_mem_changes hid)
  obtain ⟨s, window, hok, hwin, -, -, hlast, hall, -⟩ :=
    OptimalCache.init_spec (α := α) cfg (hfits.sized hpos) hfuture
  refine ⟨{ cache := s, counts := {}, pushed := [] }, bind_ok_iff.mpr ⟨s, hok, rfl⟩,
    ⟨window, ?_⟩, hfits.slides.imp_right hall, hlast⟩
  show WindowInv env 0 s window (changes s.lastId _)
  rw [hlast]
  exact hwin

end Loops

section Recipe

variable {b : BackupFile} {cps : List ChunkPointer}

theorem ne_temporaryId_of_appended (h : PointersAppended b cps) {stream : List Chunk}
    (hstream : containerIds stream = cps.map ChunkPointer.id) :
    ∀ x ∈ containerIds stream, x ≠ temporaryId := by
  intro x hx
  rw [hstream] at hx
  obtain ⟨cp, hcp, rfl⟩ := List.mem_map.mp hx
  exact (recordsInv_of_pointersAppended h).assigned cp hcp

end Recipe

section Aligned

variable {cfg : Config} {env : RestoreEnv} {reader : CacheReader α}
  {step : OptimalRestore α → Chunk → Except Abort (OptimalRestore α)} {stream : List Chunk}

/-- Whenever the walk of the stream comes to another container, the buffered records are a stretch
of the recorded accesses that starts with this one, so its record is found with its number. -/
def AlignsRecords (cfg : Config) (env : RestoreEnv)
    (step : OptimalRestore α → Chunk → Except Abort (OptimalRestore α)) (stream : List Chunk) :
    Prop :=
  ∃ t₀, OptimalRestore.init cfg env (accessRecords (containerIds stream)) = .ok t₀ ∧
    ∀ done c rest t, stream = done ++ c :: rest → foldE step t₀ done = .ok t →
      c.isNormal = true → (containerIds done).getLast? ≠ some c.id →
        ∃ s₁ s₂ window queue, t.cache.refill env = .ok s₁ ∧
          Buffers (accessRecords (containerIds stream))
            (changes temporaryId (containerIds done)).length s₁ (c.id :: window) ∧
          s₁.accessRecordTable.lookup c.id =
            some (toInt32 (changes temporaryId (containerIds done)).length :: queue) ∧
          s₁.popAccess c.id = .ok s₂ ∧
          Buffers (accessRecords (containerIds stream))
            ((changes temporaryId (containerIds done)).length + 1) s₂ window

theorem walkInv_run (hstep : WalkStep env reader step) (hwindow : env.WindowSized)
    {done rest : List Chunk} (hids : ∀ x ∈ containerIds (done ++ rest), x ≠ temporaryId)
    {t₀ t : OptimalRestore α} (h : WalkInv env [] (containerIds (done ++ rest)) t₀.cache)
    (hok : foldE step t₀ done = .ok t) :
    WalkInv env (containerIds done) (containerIds rest) t.cache := by
  have hrun := walk_run hstep (WalkInv env) (fun hids h hok => h.fetch hwindow hids hok)
    (fun _ h => h.setCached _ _) [] hids h hok
  rwa [List.nil_append] at hrun

theorem alignsRecords (hstep : WalkStep env reader step) (hpos : 1 ≤ env.optWindowSize)
    (hids : ∀ x ∈ containerIds stream, x ≠ temporaryId)
    (hfits : env.WindowFits (accessRecords (containerIds stream)).length) :
    AlignsRecords cfg env step stream := by
  have hwindow := hfits.sized hpos
  obtain ⟨t₀, hinit, hwalk₀⟩ := WalkInv.init cfg hpos hids hfits
  refine ⟨t₀, hinit, fun done c rest t hstream hok hc hchange => ?_⟩
  subst hstream
  have hwalk := walkInv_run hstep hwindow hids hwalk₀ hok
  rw [containerIds_append, containerIds_cons hc] at hids ⊢
  rw [containerIds_cons hc] at hwalk
  obtain ⟨window, hwin⟩ := hwalk.window
  have hlast : t.cache.lastId ≠ c.id := by
    rw [hwalk.last]
    intro heq
    cases hdone : containerIds done with
    | nil =>
        simp only [hdone, List.getLast_singleton] at heq
        exact hids c.id (List.mem_append_right _ List.mem_cons_self) heq.symm
    | cons x l =>
        apply hchange
        simp only [hdone] at heq
        rw [hdone, ← heq, List.getLast_cons (List.cons_ne_nil x l)]
        exact List.getLast?_eq_getLast_of_ne_nil (List.cons_ne_nil x l)
  have hrecords := hwalk.accessRecords_eq
  rw [changes_cons_of_ne hlast] at hwin hrecords
  have hfuture : ∀ x ∈ c.id :: changes c.id (containerIds rest), x ≠ temporaryId := by
    intro x hx
    apply hids x
    apply List.mem_append_right
    rcases List.mem_cons.mp hx with rfl | hx
    · exact List.mem_cons_self
    · exact List.mem_cons_of_mem _ (mem_of_mem_changes hx)
  obtain ⟨s₁, window₁, hrefill, hwin₁, -, -, hne₁, -⟩ :=
    refill_spec hwindow hfuture hwin hwalk.slides
  obtain ⟨x, window', rfl⟩ := List.exists_cons_of_ne_nil hne₁
  have hx : x = c.id := (List.cons.inj hwin₁.pending).1
  subst hx
  obtain ⟨s₂, hpop, hwin₂, -, -, -⟩ := popAccess_spec hwin₁
  have hbuffers₁ := hwin₁.buffers hrecords
  have hrecords₂ : accessRecords (containerIds done ++ c.id :: containerIds rest) =
      (changes temporaryId (containerIds done) ++ [c.id]) ++
        (changes c.id (containerIds rest) ++ [temporaryId]) := by
    rw [hrecords, List.append_assoc, List.singleton_append, List.cons_append]
  have hlength : (changes temporaryId (containerIds done) ++ [c.id]).length =
      (changes temporaryId (containerIds done)).length + 1 := List.length_append
  rw [← hlength] at hwin₂
  have hbuffers₂ := hwin₂.buffers hrecords₂
  rw [hlength] at hbuffers₂
  have hqueue := hbuffers₁.seqnos c.id
  rw [occurrences_cons_self, List.map_cons] at hqueue
  have hsome : (s₁.accessRecordTable.lookup c.id).isSome = true := by
    apply lookup_isSome_of_queue
    rw [hqueue]
    exact List.cons_ne_nil _ _
  obtain ⟨queue, hlookup⟩ := Option.isSome_iff_exists.mp hsome
  rw [seqnoQueue, hlookup, Option.getD_some] at hqueue
  exact ⟨s₁, s₂, window', _, hrefill, hbuffers₁, hqueue ▸ hlookup, hpop, hbuffers₂⟩

theorem containerIds_of_signals {done : List Chunk} (h : ∀ c ∈ done, c.isNormal = false) :
    containerIds done = [] := by
  unfold containerIds
  rw [List.filter_eq_nil_iff.mpr fun c hc => by simp [h c hc]]
  rfl

/-- Where the window does not fit, the walk does not get past the first access. -/
theorem AlignsRecords.windowFits (hstep : FetchStep env reader step)
    (hpos : 1 ≤ env.optWindowSize) (hids : ∀ x ∈ containerIds stream, x ≠ temporaryId)
    (h : AlignsRecords cfg env step stream) :
    env.WindowFits (accessRecords (containerIds stream)).length := by
  by_contra hnot
  obtain ⟨t₀, hinit, halign⟩ := h
  obtain ⟨hne, hstuck⟩ := init_of_not_windowFits hpos hids hnot hinit
  obtain ⟨done, c, rest, rfl, hc, hdone⟩ := exists_first_access hne
  obtain ⟨t, hok, hcache⟩ := hstep.signals hdone t₀
  have hnone : (containerIds done).getLast? ≠ some c.id := by
    rw [containerIds_of_signals hdone]
    exact Option.some_ne_none c.id |>.symm
  obtain ⟨s₁, -, -, -, hrefill, -⟩ := halign done c rest t rfl hok hc hnone
  have hid : c.id ∈ containerIds (done ++ c :: rest) := by
    rw [containerIds_append, containerIds_cons hc]
    exact List.mem_append_right _ List.mem_cons_self
  rw [hcache, (hstuck c.id (hids c.id hid)).1] at hrefill
  cases hrefill

/-- The `.records` file of a version holds the containers of its pointers with repeats collapsed and a
terminator, and along every restore of these pointers both loops stay aligned with it. -/
def RecordsAligned (cfg : Config) (env : RestoreEnv) (b : BackupFile) (cps : List ChunkPointer) :
    Prop :=
  (b.updateBackupVersion).recordFp.content =
      (accessRecords (cps.map ChunkPointer.id)).flatMap (Library.Bytes.leInt 8) ∧
    ∀ stream, containerIds stream = cps.map ChunkPointer.id →
      AlignsRecords cfg env (OptimalRestore.chunk cfg env) stream ∧
        AlignsRecords cfg env (OptimalRestore.chunkMeta cfg env) stream

/-- However the pointers were batched, the records and the restores of them are aligned if and only if
the optimal thread can serve its window. -/
theorem access_records_aligned_iff {b : BackupFile} {cps : List ChunkPointer}
    (happended : PointersAppended b cps) (cfg : Config) (env : RestoreEnv)
    (hpos : 1 ≤ env.optWindowSize) :
    RecordsAligned cfg env b cps ↔
      env.WindowFits (accessRecords (cps.map ChunkPointer.id)).length := by
  constructor
  · intro h
    have hstream : containerIds (cps.map ChunkPointer.toChunk) = cps.map ChunkPointer.id :=
      containerIds_toChunk cps
    have hids := ne_temporaryId_of_appended happended hstream
    have hfits := (h.2 _ hstream).1.windowFits (fetchStep_chunk cfg env) hpos hids
    rwa [hstream] at hfits
  · intro hfits
    refine ⟨records_updateBackupVersion happended, fun stream hstream => ?_⟩
    have hids := ne_temporaryId_of_appended happended hstream
    rw [← hstream] at hfits
    exact ⟨alignsRecords (walkStep_chunk cfg env) hpos hids hfits,
      alignsRecords (walkStep_chunkMeta cfg env) hpos hids hfits⟩

/-- Six pointers, the first two of them into one container. -/
def bytePointers : List ChunkPointer :=
  [bytePointer 1 0, bytePointer 2 0, bytePointer 3 1, bytePointer 4 2, bytePointer 2 0,
    bytePointer 3 1]

set_option maxRecDepth 4096 in
/-- A segment for six pointers, which are appended in two batches. -/
theorem bytePointers_appended : ∃ b, PointersAppended b bytePointers :=
  ⟨_, .pointers [bytePointer 4 2, bytePointer 2 0, bytePointer 3 1]
    (.pointers [bytePointer 1 0, bytePointer 2 0, bytePointer 3 1]
      (.segmentStart 6 (.create 0 []) rfl) rfl) rfl⟩

/-- Two records at a time, and a cache that evicts on the way. -/
theorem access_records_aligned_iff_pooled : ∃ b, PointersAppended b bytePointers ∧
    RecordsAligned pooledConfig (pooledEnv 2) b bytePointers := by
  obtain ⟨b, happended⟩ := bytePointers_appended
  exact ⟨b, happended, (access_records_aligned_iff happended pooledConfig (pooledEnv 2)
    (by decide)).mpr ⟨by decide, .inl (by decide)⟩⟩

/-- In the greatest window that an `int` takes, no record is read. -/
theorem greatest_window_not_aligned : ∃ b, PointersAppended b bytePointers ∧
    ¬ RecordsAligned pooledConfig (pooledEnv 2147483647) b bytePointers := by
  obtain ⟨b, happended⟩ := bytePointers_appended
  refine ⟨b, happended, fun h => ?_⟩
  have hstream : containerIds (bytePointers.map ChunkPointer.toChunk) =
      bytePointers.map ChunkPointer.id := containerIds_toChunk bytePointers
  have hfits := (h.2 _ hstream).1.windowFits (fetchStep_chunk _ _) (by decide)
    (ne_temporaryId_of_appended happended hstream)
  exact absurd hfits.allocates (by decide)

end Aligned

section Consistent

variable {cfg : Config} {env : RestoreEnv} {reader : CacheReader α}
  {step : OptimalRestore α → Chunk → Except Abort (OptimalRestore α)} {stream : List Chunk}

/-- In every state of the walk, records and cached containers belong together; when the next chunk
makes room, the victim is one whose next access in the window comes last, and the records that are
freed belong to no cached container and to no access in the window. -/
def KeepsCache (cfg : Config) (env : RestoreEnv) (reader : CacheReader α)
    (step : OptimalRestore α → Chunk → Except Abort (OptimalRestore α)) (stream : List Chunk) :
    Prop :=
  ∀ t₀, OptimalRestore.init cfg env (accessRecords (containerIds stream)) = .ok t₀ →
    ∀ done rest t, stream = done ++ rest → foldE step t₀ done = .ok t →
      OneToOne reader t.cache ∧
      ∀ c rest' s₁, rest = c :: rest' → c.isNormal = true → t.cache.access env c.id = .ok s₁ →
        ∃ window, Buffers (accessRecords (containerIds stream))
            (changes temporaryId (containerIds (done ++ [c]))).length s₁ window ∧
          OneToOne reader s₁ ∧
          (c.id ∉ reader.ids s₁.lruQueue → s₁.lruQueue.isFull = true →
            ∃ s₂ victim, s₁.evict reader = .ok s₂ ∧ OneToOne reader s₂ ∧
              Evicts reader window s₁ s₂ victim) ∧
          ∀ t', step t c = .ok t' → FreesDead reader window t.cache t'.cache

/-- The walk starts, and comes to no chunk whose access fails. -/
def WalksOn (cfg : Config) (env : RestoreEnv)
    (step : OptimalRestore α → Chunk → Except Abort (OptimalRestore α)) (stream : List Chunk) :
    Prop :=
  ∃ t₀, OptimalRestore.init cfg env (accessRecords (containerIds stream)) = .ok t₀ ∧
    ∀ done c rest t, stream = done ++ c :: rest → foldE step t₀ done = .ok t →
      c.isNormal = true → ∃ s₁, t.cache.access env c.id = .ok s₁

theorem OptimalInv.run (hstep : WalkStep env reader step) (hlawful : reader.Lawful)
    (hwindow : env.WindowSized) {done rest : List Chunk}
    (hids : ∀ x ∈ containerIds (done ++ rest), x ≠ temporaryId) {t₀ t : OptimalRestore α}
    (h : OptimalInv env reader t₀.cache (containerIds (done ++ rest)))
    (hok : foldE step t₀ done = .ok t) : OptimalInv env reader t.cache (containerIds rest) :=
  walk_run hstep (fun _ rest s => OptimalInv env reader s rest)
    (fun hids h hok => h.fetch hwindow hlawful hids hok) (fun hit h => h.lookup hit) [] hids h hok

theorem walksOn (hstep : WalkStep env reader step) (hpos : 1 ≤ env.optWindowSize)
    (hids : ∀ x ∈ containerIds stream, x ≠ temporaryId)
    (hfits : env.WindowFits (accessRecords (containerIds stream)).length) :
    WalksOn cfg env step stream := by
  have hwindow := hfits.sized hpos
  obtain ⟨t₀, hinit, hwalk₀⟩ := WalkInv.init cfg hpos hids hfits
  refine ⟨t₀, hinit, fun done c rest t hstream hok hc => ?_⟩
  subst hstream
  have hwalk := walkInv_run hstep hwindow hids hwalk₀ hok
  rw [containerIds_append, containerIds_cons hc] at hids
  rw [containerIds_cons hc] at hwalk
  obtain ⟨window, hwin⟩ := hwalk.window
  obtain ⟨s₁, -, -, haccess, -⟩ := access_spec hwindow
    (fun x hx => hids x (List.mem_append_right _ hx)) hwin hwalk.slides
  exact ⟨s₁, haccess⟩

theorem keepsCache_of_windowFits (hstep : WalkStep env reader step) (hlawful : reader.Lawful)
    (hcache : 1 ≤ cfg.restoreCacheSize) (hpos : 1 ≤ env.optWindowSize)
    (hids : ∀ x ∈ containerIds stream, x ≠ temporaryId)
    (hfits : env.WindowFits (accessRecords (containerIds stream)).length) :
    KeepsCache cfg env reader step stream := by
  have hwindow := hfits.sized hpos
  obtain ⟨t₁, hinit₁, hwalk₀⟩ := WalkInv.init (α := α) cfg hpos hids hfits
  obtain ⟨t₂, hinit₂, hinv₀, -⟩ := OptimalInv.init cfg reader hpos hcache hids hfits
  intro t₀ hinit done rest t hstream hok
  obtain rfl := Except.ok.inj (hinit₁.symm.trans hinit)
  obtain rfl := Except.ok.inj (hinit₂.symm.trans hinit)
  subst hstream
  have hwalk := walkInv_run hstep hwindow hids hwalk₀ hok
  have hinv := hinv₀.run hstep hlawful hwindow hids hok
  refine ⟨hinv.cache.oneToOne, fun c rest' s₁ hrest hc haccess => ?_⟩
  subst hrest
  rw [containerIds_append, containerIds_cons hc] at hids
  rw [containerIds_cons hc] at hwalk hinv
  have hids' : ∀ x ∈ c.id :: containerIds rest', x ≠ temporaryId :=
    fun x hx => hids x (List.mem_append_right _ hx)
  obtain ⟨window, hwin⟩ := hwalk.window
  obtain ⟨s₁', n₁, window₁, haccess', hwin₁, hn₁, hsame, hlast, -, -⟩ :=
    access_spec hwindow hids' hwin hwalk.slides
  obtain rfl := Except.ok.inj (haccess'.symm.trans haccess)
  have hwalk₁ := hwalk.access hwindow hids' haccess
  have hcache₁ := hinv.cache.of_same hsame
  have hrecords := hwalk₁.accessRecords_eq
  rw [hlast] at hrecords
  have hlength := hwalk.length_changes
  rw [← hn₁] at hlength
  rw [← hlength] at hwin₁
  have hbuffers := hwin₁.buffers hrecords
  have hdone : containerIds (done ++ [c]) = containerIds done ++ [c.id] := by
    rw [containerIds_append, containerIds_cons hc]
    rfl
  refine ⟨window₁, ?_, hcache₁.oneToOne, fun _ hfull => ?_,
    fun t' hok' cid hsome hnone => ⟨?_, ?_⟩⟩
  · rw [hdone, containerIds_append, containerIds_cons hc]
    rw [List.append_assoc, List.singleton_append] at hbuffers
    exact hbuffers
  · obtain ⟨s₂, victim, hevict, hcache₂, hevicts⟩ := hcache₁.evicts hwindow hwin₁ hfull
    exact ⟨s₂, victim, hevict, hcache₂.oneToOne, hevicts⟩
  · -- what is cached after the step has a record
    obtain ⟨t₁, hfetch, hcache⟩ := hstep.normal hc hok'
    have hinv₁ := hinv.fetch hwindow hlawful hids' hfetch
    have hinv' : OptimalInv env reader t'.cache (containerIds rest') := by
      rcases hcache with heq | ⟨hit, heq⟩
      · exact heq ▸ hinv₁
      · rw [heq]
        exact hinv₁.lookup hit
    intro hmem
    have hsome' := hinv'.cache.recorded cid hmem
    rw [hnone] at hsome'
    cases hsome'
  · obtain ⟨t₁, hfetch, hcache⟩ := hstep.normal hc hok'
    have htable : t'.cache.accessRecordTable = t₁.cache.accessRecordTable := by
      rcases hcache with heq | ⟨hit, heq⟩
      · rw [heq]
      · rw [heq]
    have hqueue := fetch_queues hfetch haccess cid
    rw [← htable, seqnoQueue, hnone, Option.getD_none, hwin₁.queues] at hqueue
    exact occurrences_eq_nil.mp (List.map_eq_nil_iff.mp hqueue.symm)

/-- No chunk gets past an access that fails. -/
theorem cache_of_stuck (hstep : WalkStep env reader step) {done : List Chunk}
    (hids : ∀ x ∈ containerIds done, x ≠ temporaryId) {e : Abort} {t₀ t : OptimalRestore α}
    (hstuck : ∀ id, id ≠ temporaryId → t₀.cache.access env id = .error e)
    (hok : foldE step t₀ done = .ok t) : t.cache = t₀.cache := by
  induction done generalizing t₀ with
  | nil =>
      cases hok
      rfl
  | cons c done ih =>
      obtain ⟨t₁, hc, hrest⟩ := bind_ok_iff.mp hok
      by_cases hnormal : c.isNormal = true
      · rw [containerIds_cons hnormal] at hids
        obtain ⟨t₂, hfetch, -⟩ := hstep.normal hnormal hc
        rw [fetch_of_access_error (hstuck c.id (hids c.id List.mem_cons_self))] at hfetch
        cases hfetch
      · have hsignal : c.isNormal = false := Bool.eq_false_iff.mpr hnormal
        rw [containerIds_cons_of_signal hsignal] at hids
        have hcache := hstep.signal hsignal hc
        rw [← hcache] at hstuck ⊢
        exact ih hids hstuck hrest

/-- Where it does not fit, nothing was cached when the walk stops. -/
theorem keepsCache_of_not_windowFits (hstep : WalkStep env reader step)
    (hpos : 1 ≤ env.optWindowSize) (hids : ∀ x ∈ containerIds stream, x ≠ temporaryId)
    (hnot : ¬ env.WindowFits (accessRecords (containerIds stream)).length) :
    KeepsCache cfg env reader step stream := by
  intro t₀ hinit done rest t hstream hok
  subst hstream
  obtain ⟨-, hstuck⟩ := init_of_not_windowFits hpos hids hnot hinit
  obtain ⟨-, window, -, hsorted, hlru, -⟩ := init_ok hpos hids hinit
  have hcache := cache_of_stuck hstep
    (fun x hx => hids x (containerIds_append done rest ▸ List.mem_append_left _ hx))
    (fun id hid => (hstuck id hid).2) hok
  rw [hcache]
  refine ⟨⟨?_, ?_, fun cid hcid => ?_⟩, fun c rest' s₁ hrest hc haccess => ?_⟩
  · rw [hlru]
    exact List.nodup_nil
  · rw [hsorted, hlru]
    exact List.Perm.refl _
  · rw [hsorted] at hcid
    cases hcid
  · have hid : c.id ∈ containerIds (done ++ rest) := by
      rw [hrest, containerIds_append, containerIds_cons hc]
      exact List.mem_append_right _ List.mem_cons_self
    rw [(hstuck c.id (hids c.id hid)).2] at haccess
    cases haccess

theorem keepsCache (hstep : WalkStep env reader step) (hlawful : reader.Lawful)
    (hcache : 1 ≤ cfg.restoreCacheSize) (hpos : 1 ≤ env.optWindowSize)
    (hids : ∀ x ∈ containerIds stream, x ≠ temporaryId) :
    KeepsCache cfg env reader step stream := by
  by_cases hfits : env.WindowFits (accessRecords (containerIds stream)).length
  · exact keepsCache_of_windowFits hstep hlawful hcache hpos hids hfits
  · exact keepsCache_of_not_windowFits hstep hpos hids hfits

/-- For every recipe, every cache and every window, both loops of the restore keep records and
cached containers one to one, evict by the buffered accesses and free dead records only; and where
the optimal thread can serve its window, no access fails. -/
theorem optimal_cache_consistent {b : BackupFile} {cps : List ChunkPointer}
    (happended : PointersAppended b cps) (cfg : Config) (env : RestoreEnv)
    (hcache : 1 ≤ cfg.restoreCacheSize) (hpos : 1 ≤ env.optWindowSize) (stream : List Chunk)
    (hstream : containerIds stream = cps.map ChunkPointer.id) :
    KeepsCache cfg env (containerReader cfg env) (OptimalRestore.chunk cfg env) stream ∧
      KeepsCache cfg env (containerMetaReader cfg env) (OptimalRestore.chunkMeta cfg env) stream ∧
      (env.WindowFits (accessRecords (cps.map ChunkPointer.id)).length →
        WalksOn cfg env (OptimalRestore.chunk cfg env) stream ∧
          WalksOn cfg env (OptimalRestore.chunkMeta cfg env) stream) := by
  have hids := ne_temporaryId_of_appended happended hstream
  refine ⟨keepsCache (walkStep_chunk cfg env) (containerReader_lawful cfg env) hcache hpos hids,
    keepsCache (walkStep_chunkMeta cfg env) (containerMetaReader_lawful cfg env) hcache hpos hids,
    fun hfits => ?_⟩
  rw [← hstream] at hfits
  exact ⟨walksOn (walkStep_chunk cfg env) hpos hids hfits,
    walksOn (walkStep_chunkMeta cfg env) hpos hids hfits⟩

/-- Three containers through a cache of two. -/
theorem optimal_cache_consistent_pooled :
    KeepsCache pooledConfig (pooledEnv 2) (containerReader pooledConfig (pooledEnv 2))
        (OptimalRestore.chunk pooledConfig (pooledEnv 2))
        (bytePointers.map ChunkPointer.toChunk) ∧
      WalksOn pooledConfig (pooledEnv 2) (OptimalRestore.chunk pooledConfig (pooledEnv 2))
        (bytePointers.map ChunkPointer.toChunk) := by
  obtain ⟨b, happended⟩ := bytePointers_appended
  obtain ⟨hkeeps, -, hwalks⟩ := optimal_cache_consistent happended pooledConfig (pooledEnv 2)
    (by decide) (by decide) (bytePointers.map ChunkPointer.toChunk)
    (containerIds_toChunk bytePointers)
  exact ⟨hkeeps, (hwalks ⟨by decide, .inl (by decide)⟩).1⟩

end Consistent

end Destor
