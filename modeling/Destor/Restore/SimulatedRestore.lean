/- digest: A simulated restore counts what the real one counts, with each of the three caches. -/

import Destor.Restore.RestoreAgree

set_option autoImplicit false
set_option relaxedAutoImplicit false

namespace Destor

open Library Library.Outcome

def Config.simulated (cfg : Config) : Config := { cfg with simulationLevel := .restore }

section Caches

variable {α β : Type} {f : α → β} {c : LruCache α} {c' : LruCache β}

/-- A cache with the images of another one's elements, in the same order. The hit and miss
counters may differ. -/
structure LruCache.Mirrors (f : α → β) (c : LruCache α) (c' : LruCache β) : Prop where
  elemQueue : c'.elemQueue = c.elemQueue.map f
  maxSize : c'.maxSize = c.maxSize
  size : c'.size = c.size

namespace LruCache

theorem mirrors_new (f : α → β) (size : Int) :
    Mirrors f (newLruCache size) (newLruCache size) := ⟨rfl, rfl, rfl⟩

theorem moveToFront_map {hit : α → Bool} {hit' : β → Bool} (hhit : ∀ e, hit' (f e) = hit e)
    (queue : List α) : moveToFront hit' (queue.map f) = (moveToFront hit queue).map f := by
  have hcomp : hit' ∘ f = hit := funext hhit
  unfold moveToFront
  rw [List.find?_map, hcomp, List.eraseP_map, hcomp]
  cases queue.find? hit <;> rfl

theorem Mirrors.find? (h : Mirrors f c c') {hit : α → Bool} {hit' : β → Bool}
    (hhit : ∀ e, hit' (f e) = hit e) :
    c'.elemQueue.find? hit' = (c.elemQueue.find? hit).map f := by
  have hcomp : hit' ∘ f = hit := funext hhit
  rw [h.elemQueue, List.find?_map, hcomp]

theorem Mirrors.lookup (h : Mirrors f c c') {hit : α → Bool} {hit' : β → Bool}
    (hhit : ∀ e, hit' (f e) = hit e) :
    (c'.lookup hit').1 = (c.lookup hit).1.map f ∧
      Mirrors f (c.lookup hit).2 (c'.lookup hit').2 := by
  have hfind := h.find? hhit
  refine ⟨by rw [lookup_fst, lookup_fst, hfind], ?_⟩
  unfold LruCache.lookup
  rw [hfind]
  cases c.elemQueue.find? hit with
  | none => exact ⟨h.elemQueue, h.maxSize, h.size⟩
  | some e =>
      refine ⟨?_, h.maxSize, h.size⟩
      show moveToFront hit' c'.elemQueue = (moveToFront hit c.elemQueue).map f
      rw [h.elemQueue, moveToFront_map hhit]

theorem Mirrors.hits (h : Mirrors f c c') {hit : α → Bool} {hit' : β → Bool}
    (hhit : ∀ e, hit' (f e) = hit e) :
    (c'.hits hit').1 = (c.hits hit).1.map f ∧ Mirrors f (c.hits hit).2 (c'.hits hit').2 := by
  have hfind := h.find? hhit
  refine ⟨by rw [hits_fst, hits_fst, hfind], ?_⟩
  unfold LruCache.hits
  rw [hfind]
  cases c.elemQueue.find? hit with
  | none => exact h
  | some e =>
      refine ⟨?_, h.maxSize, h.size⟩
      show moveToFront hit' c'.elemQueue = (moveToFront hit c.elemQueue).map f
      rw [h.elemQueue, moveToFront_map hhit]

theorem Mirrors.insert (h : Mirrors f c c') (e : α) :
    Mirrors f (c.insert e) (c'.insert (f e)) := by
  unfold LruCache.insert
  rw [h.elemQueue, h.maxSize, h.size]
  split
  · exact ⟨by simp, rfl, rfl⟩
  · exact ⟨by simp, rfl, rfl⟩

theorem Mirrors.kicks (h : Mirrors f c c') {func : α → Bool} {func' : β → Bool}
    (hfunc : ∀ e, func' (f e) = func e) : Mirrors f (c.kicks func) (c'.kicks func') := by
  have hcomp : func' ∘ f = func := funext hfunc
  unfold LruCache.kicks
  rw [h.elemQueue, List.any_map, hcomp]
  split
  · refine ⟨?_, h.maxSize, congrArg (· - 1) h.size⟩
    show ((c.elemQueue.map f).reverse.eraseP func').reverse =
      (c.elemQueue.reverse.eraseP func).reverse.map f
    rw [← List.map_reverse, List.eraseP_map, hcomp, List.map_reverse]
  · exact ⟨h.elemQueue, h.maxSize, h.size⟩

theorem Mirrors.isFull (h : Mirrors f c c') : c'.isFull = c.isFull := by
  unfold LruCache.isFull
  rw [h.maxSize, h.size]

end LruCache

end Caches

section Readers

variable {cfg : Config} {env : RestoreEnv}

/-- Both levels find a container's metadata in the same place. -/
theorem retrieveContainerMetaById_simulated (hlevel : cfg.simulationLevel = .no) {id : Int}
    {con : Container} (hid : ContainerStore.InPool cfg id)
    (h : (containerReader cfg env).retrieve id = .ok con) :
    (containerMetaReader cfg.simulated env).retrieve id = .ok con.toContainerMeta := by
  have hmeta := retrieveContainerMetaById_of_byId hid h
  have hoffset : ContainerStore.metaOffset cfg.simulated id = ContainerStore.metaOffset cfg id := by
    unfold ContainerStore.metaOffset Config.simulated
    rw [hlevel]
    rfl
  show env.store.retrieveContainerMetaById cfg.simulated [] id = _
  unfold ContainerStore.retrieveContainerMetaById at hmeta ⊢
  rw [hoffset]
  exact hmeta

end Readers

section Lru

variable {cfg : Config} {env : RestoreEnv}

/-- The two LRU threads between two chunks. -/
structure LruMirrors (s : LruRestore Container) (t : LruRestore ContainerMeta) : Prop where
  cache : LruCache.Mirrors Container.toContainerMeta s.cache t.cache
  counts : t.counts = s.counts

theorem lruFetch_mirrors (hlevel : cfg.simulationLevel = .no) {s s' : LruRestore Container}
    {t : LruRestore ContainerMeta} {c : Chunk} {con : Container}
    (hheld : Holds cfg env c.id c.fp c.size) (h : LruMirrors s t)
    (hok : lruFetch (containerReader cfg env) (fun _ => .ok ()) s c = .ok (con, s')) :
    ∃ t', lruFetch (containerMetaReader cfg.simulated env)
        (fun cm => require (cm.lookupFingerprint c.fp = true) .fingerprintNotInMeta) t c =
          .ok (con.toContainerMeta, t') ∧ LruMirrors s' t' := by
  have hhit : ∀ con : Container, (containerMetaReader cfg.simulated env).hasFp c.fp
      con.toContainerMeta = (containerReader cfg env).hasFp c.fp con := fun _ => rfl
  obtain ⟨hfst, hsnd⟩ := h.cache.lookup hhit
  unfold lruFetch at hok ⊢
  rcases hlookup : s.cache.lookup ((containerReader cfg env).hasFp c.fp) with ⟨found, cache⟩
  rcases hlookup' : t.cache.lookup ((containerMetaReader cfg.simulated env).hasFp c.fp) with
    ⟨found', cache'⟩
  rw [hlookup] at hok
  rw [hlookup, hlookup'] at hfst hsnd
  have hfound : found' = found.map Container.toContainerMeta := hfst
  subst hfound
  cases found with
  | some e =>
      cases hok
      exact ⟨_, rfl, hsnd, h.counts⟩
  | none =>
      obtain ⟨e, he, hok⟩ := bind_ok_iff.mp hok
      obtain ⟨_, -, hok⟩ := bind_ok_iff.mp hok
      cases hok
      obtain ⟨con', hcon', hfp⟩ := hheld.lookupFingerprint
      have hsame : con' = con := by
        have heq := hcon'.symm.trans he
        exact Except.ok.inj heq
      subst hsame
      have hretrieve := retrieveContainerMetaById_simulated hlevel hheld.1 he
      refine ⟨_, bind_ok_iff.mpr ⟨_, hretrieve, bind_ok_iff.mpr ⟨(), require_of hfp, rfl⟩⟩,
        hsnd.insert _, ?_⟩
      show t.counts.readContainer = s.counts.readContainer
      rw [h.counts]

theorem lruRestoreChunk_mirrors (hlevel : cfg.simulationLevel = .no) {s s' : LruRestore Container}
    {t : LruRestore ContainerMeta} {c : Chunk} (hheld : c.Held cfg env) (h : LruMirrors s t)
    (hok : lruRestoreChunk cfg env s c = .ok s') :
    ∃ t', lruRestoreChunkMeta cfg.simulated env t c = .ok t' ∧ LruMirrors s' t' := by
  unfold lruRestoreChunk at hok
  unfold lruRestoreChunkMeta
  by_cases hc : c.isNormal = true
  · rw [if_pos hc] at hok ⊢
    obtain ⟨⟨con, s₁⟩, hfetch, hok⟩ := bind_ok_iff.mp hok
    obtain ⟨rc, -, hok⟩ := bind_ok_iff.mp hok
    cases hok
    obtain ⟨t₁, hfetch', h₁⟩ := lruFetch_mirrors hlevel (hheld hc) h hfetch
    refine ⟨_, bind_ok_iff.mpr ⟨_, hfetch', rfl⟩, h₁.cache, ?_⟩
    show t₁.counts.restoreChunk c = s₁.counts.restoreChunk c
    rw [h₁.counts]
  · rw [if_neg hc] at hok ⊢
    cases hok
    exact ⟨_, rfl, h.cache, h.counts⟩

theorem lruRestoreThread_simulated (hlevel : cfg.simulationLevel = .no) {stream : List Chunk}
    (hheld : ∀ c ∈ stream, c.Held cfg env) {r : RestoreCounts × List Chunk}
    (hok : lruRestoreThread cfg env stream = .ok r) :
    ∃ r', lruRestoreThread cfg.simulated env stream = .ok r' ∧ r'.1 = r.1 := by
  have hreads : cfg.simulationLevel.readsData = true := by
    rw [hlevel]
    decide
  unfold lruRestoreThread at hok
  rw [if_pos hreads] at hok
  obtain ⟨s, hrun, hok⟩ := bind_ok_iff.mp hok
  cases hok
  have hinit : LruMirrors (LruRestore.init cfg) (LruRestore.init cfg.simulated) :=
    ⟨LruCache.mirrors_new _ _, rfl⟩
  obtain ⟨t, hrun', h⟩ := foldE_simulates LruMirrors
    (fun c hc _ _ _ h hstep => lruRestoreChunk_mirrors hlevel (hheld c hc) h hstep) hinit hrun
  exact ⟨(t.counts, t.pushed), bind_ok_iff.mpr ⟨t, hrun', rfl⟩, h.counts⟩

end Lru

section Assembly

open AssemblyRestore

variable {cfg : Config} {env : RestoreEnv}

/-- A chunk as far as a simulation assembles it. -/
def Chunk.withoutData (c : Chunk) : Chunk := { c with data := [] }

theorem withoutData_fields {c d : Chunk} (h : d.withoutData = c.withoutData) :
    d.isNormal = c.isNormal ∧ d.id = c.id ∧ d.size = c.size ∧ d.flag = c.flag ∧ d.fp = c.fp := by
  have hnormal := congrArg Chunk.isNormal h
  have hid := congrArg Chunk.id h
  have hsize := congrArg Chunk.size h
  have hflag := congrArg Chunk.flag h
  have hfp := congrArg Chunk.fp h
  exact ⟨hnormal, hid, hsize, hflag, hfp⟩

/-- The two assembly threads between two chunks. -/
structure AreaMirrors (s t : AssemblyRestore) : Prop where
  area : t.area.map Chunk.withoutData = s.area.map Chunk.withoutData
  areaSize : t.areaSize = s.areaSize
  size : t.size = s.size
  counts : t.counts = s.counts

/-- Lists that agree without their data are cut alike. -/
theorem takeWhile_withoutData {p : Chunk → Bool} (hp : ∀ c, p c.withoutData = p c)
    {l l' : List Chunk} (h : l'.map Chunk.withoutData = l.map Chunk.withoutData) :
    (l'.takeWhile p).map Chunk.withoutData = (l.takeWhile p).map Chunk.withoutData ∧
      (l'.dropWhile p).map Chunk.withoutData = (l.dropWhile p).map Chunk.withoutData := by
  have hcomp : p ∘ Chunk.withoutData = p := funext hp
  have htake : ∀ l : List Chunk, (l.takeWhile p).map Chunk.withoutData =
      (l.map Chunk.withoutData).takeWhile p := by
    intro l
    rw [List.takeWhile_map, hcomp]
  have hdrop : ∀ l : List Chunk, (l.dropWhile p).map Chunk.withoutData =
      (l.map Chunk.withoutData).dropWhile p := by
    intro l
    rw [List.dropWhile_map, hcomp]
  rw [htake, htake, hdrop, hdrop, h]
  exact ⟨rfl, rfl⟩

theorem assembleChunk_mirrors {con : Container} {id : Int} {c c' d : Chunk}
    (hd : d.withoutData = c.withoutData)
    (hok : assembleChunk cfg env (some con) id c = .ok c') :
    ∃ d', assembleChunk cfg.simulated env none id d = .ok d' ∧
      d'.withoutData = c'.withoutData := by
  obtain ⟨hnormal, hid, hsize, hflag, hfp⟩ := withoutData_fields hd
  have hcond : (d.isNormal && id == d.id) = (c.isNormal && id == c.id) := by rw [hnormal, hid]
  unfold assembleChunk at hok ⊢
  rw [hcond]
  split at hok
  · rename_i hmatch
    obtain ⟨buf, -, hok⟩ := bind_ok_iff.mp hok
    obtain ⟨_, -, hok⟩ := bind_ok_iff.mp hok
    cases hok
    refine ⟨_, if_pos hmatch, ?_⟩
    simp only [Chunk.withoutData, hid, hsize, hflag, hfp]
  · rename_i hmatch
    cases hok
    exact ⟨d, if_neg hmatch, hd⟩

theorem assembleChunks_mirrors {con : Container} {id : Int} {cs area ds : List Chunk}
    (hds : ds.map Chunk.withoutData = cs.map Chunk.withoutData)
    (hok : assembleChunks cfg env (some con) id cs = .ok area) :
    ∃ area', assembleChunks cfg.simulated env none id ds = .ok area' ∧
      area'.map Chunk.withoutData = area.map Chunk.withoutData := by
  induction cs generalizing area ds with
  | nil =>
      have hnil : ds = [] := List.map_eq_nil_iff.mp hds
      subst hnil
      cases hok
      exact ⟨[], rfl, rfl⟩
  | cons c cs ih =>
      obtain ⟨d, ds, rfl⟩ : ∃ d ds', ds = d :: ds' := by
        apply List.exists_cons_of_ne_nil
        intro hnil
        rw [hnil] at hds
        cases hds
      rw [List.map_cons, List.map_cons] at hds
      obtain ⟨hd, hds⟩ := List.cons.inj hds
      obtain ⟨c', cs', rfl, hc, hcs⟩ := assembleChunks_cons hok
      obtain ⟨d', hd', hsame⟩ := assembleChunk_mirrors hd hc
      obtain ⟨ds', hds', hrest⟩ := ih hds hcs
      refine ⟨d' :: ds', bind_ok_iff.mpr ⟨d', hd', bind_ok_iff.mpr ⟨ds', hds', rfl⟩⟩, ?_⟩
      rw [List.map_cons, List.map_cons, hsame, hrest]

/-- What is counted of some chunks does not depend on their data. -/
theorem issuedSize_withoutData {l l' : List Chunk}
    (h : l'.map Chunk.withoutData = l.map Chunk.withoutData) : issuedSize l' = issuedSize l := by
  have hsize : ∀ l : List Chunk, issuedSize (l.map Chunk.withoutData) = issuedSize l := by
    intro l
    have hcomp : Chunk.isNormal ∘ Chunk.withoutData = Chunk.isNormal := rfl
    unfold issuedSize
    rw [List.filter_map, hcomp, List.map_map]
    rfl
  rw [← hsize l', h, hsize l]

theorem assembleArea_mirrors (hlevel : cfg.simulationLevel = .no) {s s' t : AssemblyRestore}
    {q : Option (List Chunk)} (h : AreaMirrors s t) (hok : s.assembleArea cfg env = .ok (q, s')) :
    ∃ q' t', t.assembleArea cfg.simulated env = .ok (q', t') ∧ AreaMirrors s' t' ∧
      q'.map (List.map Chunk.withoutData) = q.map (List.map Chunk.withoutData) := by
  have hreads : cfg.simulationLevel.readsData = true := by
    rw [hlevel]
    decide
  obtain ⟨hsignals, hrest⟩ := takeWhile_withoutData (p := fun c => !c.isNormal)
    (fun _ => rfl) h.area
  have hempty : t.area = [] ↔ s.area = [] := by
    rw [← List.map_eq_nil_iff (f := Chunk.withoutData), h.area, List.map_eq_nil_iff]
  unfold assembleArea at hok ⊢
  by_cases hnil : s.area = []
  · rw [if_pos hnil] at hok
    rw [if_pos (hempty.mpr hnil)]
    cases hok
    exact ⟨none, t, rfl, h, rfl⟩
  · rw [if_neg hnil] at hok
    rw [if_neg fun ht => hnil (hempty.mp ht)]
    cases hdrop : s.area.dropWhile fun c => !c.isNormal with
    | nil =>
        rw [hdrop] at hrest
        have hdrop' := List.map_eq_nil_iff.mp hrest
        simp only [hdrop] at hok
        simp only [hdrop']
        cases hok
        exact ⟨_, _, rfl, ⟨rfl, h.areaSize, h.size, h.counts⟩, congrArg some hsignals⟩
    | cons c cs =>
        simp only [hdrop] at hok
        obtain ⟨con, hcon, hok⟩ := bind_ok_iff.mp hok
        obtain ⟨area, harea, hok⟩ := bind_ok_iff.mp hok
        cases hok
        unfold readContainer at hcon
        rw [if_pos hreads] at hcon
        obtain ⟨con, -, hcon⟩ := bind_ok_iff.mp hcon
        cases hcon
        rw [hdrop] at hrest
        cases hdrop' : t.area.dropWhile fun c => !c.isNormal with
        | nil =>
            rw [hdrop'] at hrest
            cases hrest
        | cons d ds =>
            rw [hdrop'] at hrest
            have hid : d.id = c.id := (withoutData_fields (List.cons.inj hrest).1).2.1
            obtain ⟨area', harea', hsame⟩ := assembleChunks_mirrors hrest harea
            obtain ⟨htake, hleft⟩ := takeWhile_withoutData (p := issuable) (fun _ => rfl) hsame
            have hissued := issuedSize_withoutData htake
            rw [← hid] at harea'
            refine ⟨_, _, bind_ok_iff.mpr ⟨none, rfl, bind_ok_iff.mpr ⟨area', harea', rfl⟩⟩,
              ⟨hleft, h.areaSize, ?_, ?_⟩, ?_⟩
            · show t.size - issuedSize (area'.takeWhile issuable) = _
              rw [h.size, hissued]
            · show t.counts.readContainer = _
              rw [h.counts]
            · rw [Option.map_some, Option.map_some, List.map_append, List.map_append, hsignals,
                htake]

theorem foldl_issueChunk_mirrors {q q' : List Chunk} {s t : AssemblyRestore}
    (hq : q'.map Chunk.withoutData = q.map Chunk.withoutData) (h : AreaMirrors s t) :
    AreaMirrors (q.foldl (issueChunk cfg) s) (q'.foldl (issueChunk cfg.simulated) t) := by
  induction q generalizing q' s t with
  | nil =>
      have hnil : q' = [] := List.map_eq_nil_iff.mp hq
      subst hnil
      exact h
  | cons c q ih =>
      obtain ⟨d, q', rfl⟩ : ∃ d q'', q' = d :: q'' := by
        apply List.exists_cons_of_ne_nil
        intro hnil
        rw [hnil] at hq
        cases hq
      rw [List.map_cons, List.map_cons] at hq
      obtain ⟨hd, hq⟩ := List.cons.inj hq
      obtain ⟨hnormal, -, hsize, -, -⟩ := withoutData_fields hd
      rw [List.foldl_cons, List.foldl_cons]
      apply ih hq
      unfold issueChunk
      rw [hnormal]
      split
      · refine ⟨h.area, h.areaSize, h.size, ?_⟩
        show t.counts.restoreChunk d = s.counts.restoreChunk c
        rw [h.counts, RestoreCounts.restoreChunk, hsize]
        rfl
      · exact ⟨h.area, h.areaSize, h.size, h.counts⟩

theorem areaPush_mirrors {s t : AssemblyRestore} (h : AreaMirrors s t) (c : Chunk) :
    (t.areaPush c).1 = (s.areaPush c).1 ∧ AreaMirrors (s.areaPush c).2 (t.areaPush c).2 := by
  have harea : (t.area ++ [c]).map Chunk.withoutData = (s.area ++ [c]).map Chunk.withoutData := by
    rw [List.map_append, List.map_append, h.area]
  unfold areaPush
  rw [h.areaSize, h.size]
  split
  · exact ⟨rfl, harea, rfl, rfl, h.counts⟩
  · exact ⟨rfl, harea, rfl, rfl, h.counts⟩

theorem assemblyChunk_mirrors (hlevel : cfg.simulationLevel = .no) {s s' t : AssemblyRestore}
    {c : Chunk} (h : AreaMirrors s t) (hok : AssemblyRestore.chunk cfg env s c = .ok s') :
    ∃ t', AssemblyRestore.chunk cfg.simulated env t c = .ok t' ∧ AreaMirrors s' t' := by
  obtain ⟨hfull, hpush⟩ := areaPush_mirrors h c
  unfold AssemblyRestore.chunk at hok ⊢
  rcases hs : s.areaPush c with ⟨full, s₁⟩
  rcases ht : t.areaPush c with ⟨full', t₁⟩
  rw [hs, ht] at hfull hpush
  have hsame : full' = full := hfull
  subst hsame
  rw [hs] at hok
  by_cases hf : full' = true
  · simp only [if_pos hf] at hok ⊢
    obtain ⟨⟨q, s₂⟩, hassemble, hok⟩ := bind_ok_iff.mp hok
    cases hok
    obtain ⟨q', t₂, hassemble', h₂, hq⟩ := assembleArea_mirrors hlevel hpush hassemble
    refine ⟨_, bind_ok_iff.mpr ⟨_, hassemble', rfl⟩, foldl_issueChunk_mirrors ?_ h₂⟩
    cases q with
    | none =>
        rw [Option.map_eq_none_iff.mp hq]
    | some q =>
        obtain ⟨q'', rfl, hsame⟩ := Option.map_eq_some_iff.mp hq
        exact hsame
  · simp only [if_neg hf] at hok ⊢
    cases hok
    exact ⟨t₁, rfl, hpush⟩

theorem drain_mirrors (hlevel : cfg.simulationLevel = .no) (s : AssemblyRestore)
    {s' t : AssemblyRestore} (h : AreaMirrors s t) (hok : s.drain cfg env = .ok s') :
    ∃ t', t.drain cfg.simulated env = .ok t' ∧ AreaMirrors s' t' := by
  induction hn : s.area.length using Nat.strong_induction_on generalizing s t with
  | _ n ih =>
      cases hassemble : s.assembleArea cfg env with
      | error e =>
          rw [drain_error hassemble] at hok
          cases hok
      | ok r =>
          obtain ⟨q, s₁⟩ := r
          obtain ⟨q', t₁, hassemble', h₁, hq⟩ := assembleArea_mirrors hlevel h hassemble
          cases q with
          | none =>
              rw [Option.map_eq_none_iff.mp hq] at hassemble'
              rw [drain_none hassemble] at hok
              cases hok
              exact ⟨t₁, drain_none hassemble', h₁⟩
          | some q =>
              obtain ⟨q'', rfl, hsame⟩ := Option.map_eq_some_iff.mp hq
              have hless := assembleArea_length (area_ne_nil hassemble) hassemble
              rw [drain_some hassemble] at hok
              rw [drain_some hassemble']
              refine ih _ ?_ _ (foldl_issueChunk_mirrors hsame h₁) hok rfl
              rw [← hn, foldl_issueChunk_area]
              exact hless

theorem assemblyRestoreThread_simulated (hlevel : cfg.simulationLevel = .no) {stream : List Chunk}
    {r : RestoreCounts × List Chunk × List Chunk}
    (hok : assemblyRestoreThread cfg env stream = .ok r) :
    ∃ r', assemblyRestoreThread cfg.simulated env stream = .ok r' ∧ r'.1 = r.1 := by
  obtain ⟨s₁, hrun, hok⟩ := bind_ok_iff.mp hok
  obtain ⟨s₂, hdrain, hok⟩ := bind_ok_iff.mp hok
  cases hok
  have hinit : AreaMirrors (AssemblyRestore.init cfg) (AssemblyRestore.init cfg.simulated) :=
    ⟨rfl, rfl, rfl, rfl⟩
  have hstep : ∀ c ∈ stream, ∀ s t s', AreaMirrors s t → chunk cfg env s c = .ok s' →
      ∃ t', chunk cfg.simulated env t c = .ok t' ∧ AreaMirrors s' t' :=
    fun _ _ _ _ _ h hok => assemblyChunk_mirrors hlevel h hok
  obtain ⟨t₁, hrun', h₁⟩ := foldE_simulates AreaMirrors hstep hinit hrun
  obtain ⟨t₂, hdrain', h₂⟩ := drain_mirrors hlevel s₁ h₁ hdrain
  exact ⟨_, bind_ok_iff.mpr ⟨t₁, hrun', bind_ok_iff.mpr ⟨t₂, hdrain', rfl⟩⟩, h₂.counts⟩

end Assembly

section Optimal

open OptimalCache

variable {α β : Type} {cfg : Config} {env : RestoreEnv}

def OptimalCache.withQueue (s : OptimalCache α) (q : LruCache β) : OptimalCache β :=
  { s with lruQueue := q }

section Window

variable {s s' : OptimalCache α} {q : LruCache β} {id : Int}

theorem windowFill_withQueue (h : windowFill env s = .ok s') (q : LruCache β) :
    windowFill env (s.withQueue q) = .ok (s'.withQueue q) := by
  have hfold : ∀ (ids : List Int) (s : OptimalCache α),
      ids.foldl pushAccess (s.withQueue q) = (ids.foldl pushAccess s).withQueue q := by
    intro ids
    induction ids with
    | nil => exact fun _ => rfl
    | cons id ids ih => exact fun s => ih (s.pushAccess id)
  unfold windowFill readNextNRecords at h ⊢
  by_cases hend : s.recordsEnd = true
  · rw [if_pos hend] at h
    rw [if_pos (show (s.withQueue q).recordsEnd = true from hend)]
    cases h
    rfl
  · rw [if_neg hend] at h
    rw [if_neg (show ¬ (s.withQueue q).recordsEnd = true from hend)]
    have hrecords : (s.withQueue q).records = s.records := rfl
    have hbuffered : (s.withQueue q).bufferedAccessRecordNum = s.bufferedAccessRecordNum := rfl
    rw [hrecords, hbuffered]
    generalize env.optWindowSize - s.bufferedAccessRecordNum = n at h ⊢
    obtain ⟨⟨ids, s₁⟩, hread, h⟩ := bind_ok_iff.mp h
    obtain ⟨u, hroom, hread⟩ := bind_ok_iff.mp hread
    rw [hroom]
    cases hlast : (s.records.take n.toNat).getLast? with
    | none =>
        rw [hlast] at hread
        cases hread
    | some id =>
        rw [hlast] at hread
        cases hread
        cases h
        exact congrArg Except.ok (hfold (s.records.take n.toNat)
          { s with
            records := s.records.drop n.toNat
            recordsEnd := id == temporaryId
            bufferedAccessRecordNum := s.bufferedAccessRecordNum + (s.records.take n.toNat).length })

theorem access_withQueue (h : s.access env id = .ok s') (q : LruCache β) :
    (s.withQueue q).access env id = .ok (s'.withQueue q) := by
  unfold access at h ⊢
  by_cases hlast : s.lastId = id
  · rw [if_neg (fun hne => hne hlast)] at h
    rw [if_neg (show ¬ (s.withQueue q).lastId ≠ id from fun hne => hne hlast)]
    cases h
    rfl
  · rw [if_pos hlast] at h
    rw [if_pos (show (s.withQueue q).lastId ≠ id from hlast)]
    obtain ⟨s₂, hslides, h⟩ := bind_ok_iff.mp h
    obtain ⟨s₁, hrefill, hpop⟩ := bind_ok_iff.mp hslides
    cases h
    have hrefill' : (s.withQueue q).refill env = .ok (s₁.withQueue q) := by
      unfold refill at hrefill ⊢
      by_cases hhalf : toInt32 (s.bufferedAccessRecordNum * 2) ≤ env.optWindowSize
      · rw [if_pos hhalf] at hrefill
        exact (if_pos hhalf).trans (windowFill_withQueue hrefill q)
      · rw [if_neg hhalf] at hrefill
        cases hrefill
        exact if_neg hhalf
    have hpop' : (s₁.withQueue q).popAccess id = .ok (s₂.withQueue q) := by
      unfold popAccess at hpop ⊢
      have htable : (s₁.withQueue q).accessRecordTable = s₁.accessRecordTable := rfl
      rw [htable]
      cases hlookup : s₁.accessRecordTable.lookup id with
      | none =>
          rw [hlookup] at hpop
          cases hpop
      | some queue =>
          rw [hlookup] at hpop
          cases hpop
          rfl
    exact bind_ok_iff.mpr ⟨_, bind_ok_iff.mpr ⟨_, hrefill', hpop'⟩, rfl⟩

end Window

section Readers

variable {f : α → β} {reader : CacheReader α} {reader' : CacheReader β} {s s' : OptimalCache α}
  {q : LruCache β} {id : Int}

def SameMeta (f : α → β) (reader : CacheReader α) (reader' : CacheReader β) : Prop :=
  ∀ e, reader'.toMeta (f e) = reader.toMeta e

theorem hits_withQueue (hmeta : SameMeta f reader reader')
    (hq : LruCache.Mirrors f s.lruQueue q) {hit : Bool}
    (h : s.hits env reader id = .ok (hit, s')) :
    ∃ q', (s.withQueue q).hits env reader' id = .ok (hit, s'.withQueue q') ∧
      LruCache.Mirrors f s'.lruQueue q' := by
  have hcheck : ∀ e, reader'.checkId id (f e) = reader.checkId id e := by
    intro e
    unfold CacheReader.checkId
    rw [hmeta]
  obtain ⟨s₁, haccess, h⟩ := bind_ok_iff.mp h
  have haccess' : s.access env id = .ok (s₁.withQueue s.lruQueue) :=
    access_withQueue haccess s.lruQueue
  have hself : s₁ = s₁.withQueue s.lruQueue := Except.ok.inj (haccess.symm.trans haccess')
  have hqueue : s₁.lruQueue = s.lruQueue := by
    rw [hself]
    rfl
  rw [← hqueue] at hq
  obtain ⟨hfst, hsnd⟩ := hq.hits hcheck
  rcases hfound : s₁.lruQueue.hits (reader.checkId id) with ⟨found, lru⟩
  rcases hfound' : q.hits (reader'.checkId id) with ⟨found', lru'⟩
  rw [hfound, hfound'] at hfst hsnd
  rw [hfound] at h
  have hsome : found'.isSome = found.isSome := by
    rw [show found' = found.map f from hfst, Option.isSome_map]
  cases h
  refine ⟨lru', bind_ok_iff.mpr ⟨_, access_withQueue haccess q, ?_⟩, hsnd⟩
  have hlru : (s₁.withQueue q).lruQueue = q := rfl
  rw [hlru, hfound', ← hsome]
  rfl

theorem makeRoom_withQueue (hmeta : SameMeta f reader reader')
    (hq : LruCache.Mirrors f s.lruQueue q) (h : s.makeRoom reader = .ok s') :
    ∃ q', (s.withQueue q).makeRoom reader' = .ok (s'.withQueue q') ∧
      LruCache.Mirrors f s'.lruQueue q' := by
  have hfull : (s.withQueue q).lruQueue.isFull = s.lruQueue.isFull := hq.isFull
  unfold makeRoom at h ⊢
  rw [hfull]
  by_cases hf : s.lruQueue.isFull = true
  · rw [if_pos hf] at h ⊢
    unfold evict at h ⊢
    have hcandidates : (s.withQueue q).candidates = s.candidates := rfl
    have hkick : ∀ e, s.candidates.contains (reader'.toMeta (f e)).id =
        s.candidates.contains (reader.toMeta e).id := by
      intro e
      rw [hmeta]
    have hcomp : (fun e => s.candidates.contains (reader'.toMeta e).id) ∘ f =
        fun e => s.candidates.contains (reader.toMeta e).id := funext hkick
    have hfind : (s.withQueue q).lruQueue.elemQueue.reverse.find?
          (fun e => s.candidates.contains (reader'.toMeta e).id) =
        (s.lruQueue.elemQueue.reverse.find?
          fun e => s.candidates.contains (reader.toMeta e).id).map f := by
      show q.elemQueue.reverse.find? _ = _
      rw [hq.elemQueue, ← List.map_reverse, List.find?_map, hcomp]
    simp only [hcandidates, hfind]
    cases hvictim : s.lruQueue.elemQueue.reverse.find?
        fun e => s.candidates.contains (reader.toMeta e).id with
    | none =>
        simp only [hvictim] at h
        cases h
    | some victim =>
        simp only [hvictim] at h
        cases h
        refine ⟨q.kicks fun e => s.candidates.contains (reader'.toMeta e).id, ?_, hq.kicks hkick⟩
        rw [Option.map_some]
        simp only [hmeta victim]
        rfl
  · rw [if_neg hf] at h ⊢
    cases h
    exact ⟨q, rfl, hq⟩

theorem insert_withQueue (hmeta : SameMeta f reader reader')
    (hretrieve : ∀ e, reader.retrieve id = .ok e → reader'.retrieve id = .ok (f e))
    (hq : LruCache.Mirrors f s.lruQueue q) (h : s.insert env reader id = .ok s') :
    ∃ q', (s.withQueue q).insert env reader' id = .ok (s'.withQueue q') ∧
      LruCache.Mirrors f s'.lruQueue q' := by
  obtain ⟨s₁, hroom, h⟩ := bind_ok_iff.mp h
  obtain ⟨e, he, h⟩ := bind_ok_iff.mp h
  obtain ⟨_, hrecord, h⟩ := bind_ok_iff.mp h
  cases h
  obtain ⟨q₁, hroom', hq₁⟩ := makeRoom_withQueue hmeta hq hroom
  exact ⟨q₁.insert (f e), bind_ok_iff.mpr ⟨_, hroom', bind_ok_iff.mpr ⟨f e, hretrieve e he,
    bind_ok_iff.mpr ⟨(), hrecord, rfl⟩⟩⟩, hq₁.insert e⟩

/-- The two optimal threads between two chunks. -/
structure OptimalMirrors (f : α → β) (s : OptimalRestore α) (t : OptimalRestore β) : Prop where
  cache : ∃ q, t.cache = s.cache.withQueue q ∧ LruCache.Mirrors f s.cache.lruQueue q
  counts : t.counts = s.counts

theorem fetch_mirrors (hmeta : SameMeta f reader reader') {s s' : OptimalRestore α}
    {t : OptimalRestore β} {c : Chunk}
    (hretrieve : ∀ e, reader.retrieve c.id = .ok e → reader'.retrieve c.id = .ok (f e))
    (h : OptimalMirrors f s t) (hok : s.fetch env reader c = .ok s') :
    ∃ t', t.fetch env reader' c = .ok t' ∧ OptimalMirrors f s' t' := by
  obtain ⟨q, hcache, hq⟩ := h.cache
  obtain ⟨⟨hit, cache⟩, hhits, hok⟩ := bind_ok_iff.mp hok
  obtain ⟨q₁, hhits', hq₁⟩ := hits_withQueue hmeta hq hhits
  rw [← hcache] at hhits'
  by_cases hhit : hit = true
  · subst hhit
    cases hok
    exact ⟨_, bind_ok_iff.mpr ⟨_, hhits', rfl⟩, ⟨q₁, rfl, hq₁⟩, h.counts⟩
  · have hmiss : hit = false := by simpa using hhit
    subst hmiss
    obtain ⟨cache', hinsert, hok⟩ := bind_ok_iff.mp hok
    cases hok
    obtain ⟨q₂, hinsert', hq₂⟩ := insert_withQueue hmeta hretrieve hq₁ hinsert
    refine ⟨_, bind_ok_iff.mpr ⟨_, hhits', bind_ok_iff.mpr ⟨_, hinsert', rfl⟩⟩, ⟨q₂, rfl, hq₂⟩, ?_⟩
    show t.counts.readContainer = s.counts.readContainer
    rw [h.counts]

end Readers

variable {s s' : OptimalRestore Container} {t : OptimalRestore ContainerMeta}

/-- Looking up a fingerprint in the front container moves nothing. -/
theorem optimalChunk_mirrors (hlevel : cfg.simulationLevel = .no)
    (hwindow : env.WindowSized) {c : Chunk} {rest : List Chunk}
    (hids : ∀ x ∈ containerIds (c :: rest), x ≠ temporaryId) (hheld : c.Held cfg env)
    (hinv : OptimalInv env (containerReader cfg env) s.cache (containerIds (c :: rest)))
    (h : OptimalMirrors Container.toContainerMeta s t)
    (hok : OptimalRestore.chunk cfg env s c = .ok s') :
    ∃ t', OptimalRestore.chunkMeta cfg.simulated env t c = .ok t' ∧
      OptimalMirrors Container.toContainerMeta s' t' := by
  have hreads : cfg.simulationLevel.readsData = true := by
    rw [hlevel]
    decide
  unfold OptimalRestore.chunk at hok
  unfold OptimalRestore.chunkMeta
  by_cases hc : c.isNormal = true
  · rw [if_pos hc] at hok ⊢
    rw [containerIds_cons hc] at hids hinv
    obtain ⟨s₁, hfetch, hok⟩ := bind_ok_iff.mp hok
    obtain ⟨⟨rc, s₂⟩, hlookup, hok⟩ := bind_ok_iff.mp hok
    cases hok
    obtain ⟨con, hcon, hfp⟩ := (hheld hc).lookupFingerprint
    obtain ⟨s₁', queue, loads, hfetch', -, hqueue, -⟩ :=
      OptimalRestore.fetch_spec hwindow (containerReader_lawful cfg env) hids hinv hcon
    have hsame : s₁' = s₁ := Except.ok.inj (hfetch'.symm.trans hfetch)
    subst hsame
    obtain ⟨rc', hlookup', -⟩ := OptimalRestore.lookup_spec hreads hqueue hc hcon hfp
    have hpair := Except.ok.inj (hlookup'.symm.trans hlookup)
    cases hpair
    have hmeta : SameMeta Container.toContainerMeta (containerReader cfg env)
        (containerMetaReader cfg.simulated env) := fun _ => rfl
    obtain ⟨t₁, hfetched, h₁⟩ := fetch_mirrors hmeta
      (fun e he => retrieveContainerMetaById_simulated hlevel (hheld hc).1 he) h hfetch
    obtain ⟨q, hcache, hq⟩ := h₁.cache
    refine ⟨_, bind_ok_iff.mpr ⟨t₁, hfetched, rfl⟩, ⟨q, hcache, hq.elemQueue, hq.maxSize, hq.size⟩,
      ?_⟩
    show t₁.counts.restoreChunk c = s₁'.counts.restoreChunk c
    rw [h₁.counts]
  · rw [if_neg hc] at hok ⊢
    cases hok
    exact ⟨_, rfl, h.cache, h.counts⟩

theorem foldE_optimalChunk_mirrors (hlevel : cfg.simulationLevel = .no)
    (hwindow : env.WindowSized) {stream : List Chunk}
    (hids : ∀ x ∈ containerIds stream, x ≠ temporaryId) (hheld : ∀ c ∈ stream, c.Held cfg env)
    (hinv : OptimalInv env (containerReader cfg env) s.cache (containerIds stream))
    (h : OptimalMirrors Container.toContainerMeta s t)
    (hok : foldE (OptimalRestore.chunk cfg env) s stream = .ok s') :
    ∃ t', foldE (OptimalRestore.chunkMeta cfg.simulated env) t stream = .ok t' ∧
      OptimalMirrors Container.toContainerMeta s' t' := by
  have hreads : cfg.simulationLevel.readsData = true := by
    rw [hlevel]
    decide
  induction stream generalizing s t with
  | nil =>
      cases hok
      exact ⟨t, rfl, h⟩
  | cons c stream ih =>
      obtain ⟨hc, hstream⟩ := List.forall_mem_cons.mp hheld
      obtain ⟨s₁, hstep, hrest⟩ := bind_ok_iff.mp hok
      obtain ⟨t₁, hstep', h₁⟩ := optimalChunk_mirrors hlevel hwindow hids hc hinv h hstep
      obtain ⟨s₁', rc, hspec, hinv₁, -⟩ := optimalChunk_spec hreads hwindow hids hc hinv
      have hsame : s₁' = s₁ := Except.ok.inj (hspec.symm.trans hstep)
      subst hsame
      have hids' : ∀ x ∈ containerIds stream, x ≠ temporaryId :=
        fun x hx => hids x (mem_containerIds_cons hx)
      obtain ⟨t', hrest', h'⟩ := ih hids' hstream hinv₁ h₁ hrest
      exact ⟨t', bind_ok_iff.mpr ⟨t₁, hstep', hrest'⟩, h'⟩

theorem optimalRestoreThread_simulated (hlevel : cfg.simulationLevel = .no)
    (hcache : 1 ≤ cfg.restoreCacheSize) (hpos : 1 ≤ env.optWindowSize) {rb : RecordedBackup}
    (hfits : env.WindowFits rb.records.length) (hsound : rb.Sound cfg env)
    {r : RestoreCounts × List Chunk}
    (hok : optimalRestoreThread cfg env rb.records rb.restoreStream = .ok r) :
    ∃ r', optimalRestoreThread cfg.simulated env rb.records rb.restoreStream = .ok r' ∧
      r'.1 = r.1 := by
  have hreads : cfg.simulationLevel.readsData = true := by
    rw [hlevel]
    decide
  unfold optimalRestoreThread at hok
  rw [if_pos hreads] at hok
  obtain ⟨s, hinit, hok⟩ := bind_ok_iff.mp hok
  obtain ⟨s', hrun, hok⟩ := bind_ok_iff.mp hok
  cases hok
  obtain ⟨cache, hcacheInit, hinit'⟩ := bind_ok_iff.mp hinit
  cases hinit'
  have hrecords : rb.records = accessRecords (containerIds rb.restoreStream) := by
    rw [containerIds_restoreStream]
    rfl
  rw [hrecords] at hfits
  obtain ⟨s₀, hinit₀, hinv, -, -, hlru, -⟩ :=
    OptimalInv.init cfg (containerReader cfg env) hpos hcache hsound.ids hfits
  rw [← hrecords] at hinit₀
  have hsame := Except.ok.inj (hinit₀.symm.trans hinit)
  subst hsame
  -- the window of the simulated thread is filled in the same way
  have hfill : OptimalCache.init (α := ContainerMeta) cfg.simulated env rb.records =
      .ok (cache.withQueue (LruCache.newLruCache cfg.restoreCacheSize)) :=
    windowFill_withQueue hcacheInit _
  have hmirrors : OptimalMirrors Container.toContainerMeta
      { cache := cache, counts := {}, pushed := [] }
      { cache := cache.withQueue (LruCache.newLruCache cfg.restoreCacheSize), counts := {},
        pushed := [] } := by
    refine ⟨⟨_, rfl, ?_⟩, rfl⟩
    rw [hlru]
    exact LruCache.mirrors_new _ _
  obtain ⟨t', hrun', h'⟩ := foldE_optimalChunk_mirrors hlevel (hfits.sized hpos) hsound.ids
    hsound.held hinv hmirrors hrun
  exact ⟨(t'.counts, t'.pushed), bind_ok_iff.mpr ⟨_, bind_ok_iff.mpr ⟨_, hfill, rfl⟩,
    bind_ok_iff.mpr ⟨t', hrun', rfl⟩⟩, h'.counts⟩

end Optimal

/-- On what the recipe thread reads of a backup, each of the three restore threads comes to its end at
`SIMULATION_NO` and at `SIMULATION_RESTORE`, with the same counts of containers, chunks and bytes. -/
def SimulationCounts (cfg : Config) (env : RestoreEnv) (rb : RecordedBackup) (bvNum : Nat) : Prop :=
  ∃ bv stream, rb.write bvNum = .ok bv ∧ readRecipeThread bv = .ok stream ∧
    (∃ r r', lruRestoreThread cfg env stream = .ok r ∧
      lruRestoreThread cfg.simulated env stream = .ok r' ∧ r'.1 = r.1) ∧
    (∃ r r', optimalRestoreThread cfg env bv.records stream = .ok r ∧
      optimalRestoreThread cfg.simulated env bv.records stream = .ok r' ∧ r'.1 = r.1) ∧
    (∃ r r', assemblyRestoreThread cfg env stream = .ok r ∧
      assemblyRestoreThread cfg.simulated env stream = .ok r' ∧ r'.1 = r.1)

/-- Of a backup with a sound recipe, each of the threads ends at both levels with the same counts if
and only if the recipe thread can count the files and chunks and the optimal thread can serve its
window. -/
theorem simulated_restore_counts_iff (cfg : Config) (env : RestoreEnv) (rb : RecordedBackup)
    (bvNum : Nat) (hlevel : cfg.simulationLevel = .no) (hcache : 1 ≤ cfg.restoreCacheSize)
    (hwindow : 1 ≤ env.optWindowSize) (hsound : rb.Sound cfg env) :
    SimulationCounts cfg env rb bvNum ↔ rb.CountsFit ∧ env.WindowFits rb.records.length := by
  obtain ⟨bv, hwrite, hrec⟩ := rb.write_recorded bvNum fun cp hcp => (hsound cp hcp).1.nonneg
  constructor
  · rintro ⟨bv', stream, hwrite', hstream, -, ⟨r, -, hopt, -⟩, -⟩
    obtain rfl := Except.ok.inj (hwrite.symm.trans hwrite')
    exact windowFits_of_recorded hwindow hsound hrec hstream hopt
  · rintro ⟨hcounts, hfits⟩
    have hreads : cfg.simulationLevel.readsData = true := by
      rw [hlevel]
      decide
    have hrecords : bv.records = rb.records := hrec.records
    obtain ⟨lru, hlru, -⟩ := lruRestoreThread_spec hreads hsound.held
    obtain ⟨opt, hopt, -⟩ := optimalRestoreThread_spec hreads hcache hwindow hfits hsound hrec
    obtain ⟨asm, hasm, -⟩ :=
      assemblyRestoreThread_spec hreads (restoreStream_not_ready rb) hsound.held
    obtain ⟨lru', hlru', hlruCounts⟩ := lruRestoreThread_simulated hlevel hsound.held hlru
    rw [hrecords] at hopt
    obtain ⟨opt', hopt', hoptCounts⟩ :=
      optimalRestoreThread_simulated hlevel hcache hwindow hfits hsound hopt
    rw [← hrecords] at hopt hopt'
    obtain ⟨asm', hasm', hasmCounts⟩ := assemblyRestoreThread_simulated hlevel hasm
    exact ⟨bv, rb.restoreStream, hwrite, hrec.readRecipeThread hcounts,
      ⟨lru, lru', hlru, hlru', hlruCounts⟩, ⟨opt, opt', hopt, hopt', hoptCounts⟩,
      ⟨asm, asm', hasm, hasm', hasmCounts⟩⟩

/-- Two files in three containers, restored by each thread at both levels through a cache of two
containers. -/
theorem simulated_restore_counts_iff_pooled :
    SimulationCounts pooledConfig (pooledEnv 2) pooledBackup 0 :=
  (simulated_restore_counts_iff pooledConfig (pooledEnv 2) pooledBackup 0 rfl (by decide)
    (by decide) (pooledBackup_sound 2)).mpr ⟨pooledBackup_countsFit, by decide, .inl (by decide)⟩

/-- In the greatest window that an `int` takes, the optimal thread ends at no level. -/
theorem greatest_window_counts_nothing :
    ¬ SimulationCounts pooledConfig (pooledEnv 2147483647) pooledBackup 0 := by
  obtain ⟨bv, hwrite, hrec⟩ :=
    pooledBackup.write_recorded 0 fun cp hcp => (pooledBackup_sound 2147483647 cp hcp).1.nonneg
  rintro ⟨bv', stream, hwrite', hstream, -, ⟨r, -, hopt, -⟩, -⟩
  obtain rfl := Except.ok.inj (hwrite.symm.trans hwrite')
  obtain ⟨-, hfits⟩ :=
    windowFits_of_recorded (by decide) (pooledBackup_sound 2147483647) hrec hstream hopt
  exact absurd hfits.allocates (by decide)

end Destor
