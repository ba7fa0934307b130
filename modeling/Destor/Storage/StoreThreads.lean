/- digest: The container store under the filter, append and dedup threads, over many runs. -/

import Destor.Library.Transition
import Destor.Storage.ContainerFile

set_option autoImplicit false
set_option relaxedAutoImplicit false

namespace Destor

open Library.Outcome Library.Bytes Library.Transition

/-- Where the append thread stands in its loop. -/
inductive Appender where
  | idle
  | holds (c : Container)
  | wrote (c : Container)
  | exited

/-- The container store of a process, between critical sections. `pool` and `writes` are no part
of the program: they record what was handed over and, in order, which ids were written. -/
structure StoreThreads where
  running : Bool
  store : ContainerStore
  queue : List Container
  terminated : Bool
  opened : Option Container
  appender : Appender
  reading : Nat → Option Int
  replies : List (Int × ContainerMeta)
  pool : ContainerPool
  writes : List Int

/-- A critical section of one of the threads, or the start or end of a run. -/
inductive StoreAction where
  | init
  | create
  | fill (ck : Chunk)
  | handOver
  | getTop
  | write
  | pop
  | search (thread : Nat) (id : Int)
  | readDisk (thread : Nat)
  | terminate
  | finish

def containerBufferSize : Nat := 25

namespace StoreThreads

/-- The store before its first run: no file, so the counter starts at zero. -/
def initial : StoreThreads :=
  { running := false, store := { containerCount := 0, file := zeros }, queue := [],
    terminated := false, opened := none, appender := .idle, reading := fun _ => none,
    replies := [], pool := { containers := ∅, containerCount := 0 }, writes := [] }

def initContainerStore (st : StoreThreads) : StoreThreads :=
  { st with
    running := true
    store := { st.store with containerCount := ofLeInt (read st.store.file 0 8) }
    queue := []
    terminated := false
    opened := none
    appender := .idle
    reading := fun _ => none }

def createContainer (cfg : Config) (st : StoreThreads) : StoreThreads :=
  { st with
    opened := some { initContainerMeta with
      id := st.store.containerCount
      data := if cfg.simulationLevel.writesData then some zeros else none }
    store := { st.store with containerCount := st.store.containerCount + 1 }
    pool := { st.pool with containerCount := st.pool.containerCount + 1 } }

/-- `write_container_async`. -/
def handOver (st : StoreThreads) (c : Container) : Except Abort StoreThreads := do
  let pool ← writeContainerAsync st.pool c
  return if c.isEmpty then
      { st with
        opened := none
        pool := pool
        store := { st.store with containerCount := st.store.containerCount - 1 } }
    else { st with opened := none, pool := pool, queue := st.queue ++ [c] }

/-- The search of `retrieve_container_meta_by_id` in the buffer. -/
def search (st : StoreThreads) (thread : Nat) (id : Int) : StoreThreads :=
  match st.queue.find? (fun c => c.id == id) with
  | some c => { st with replies := st.replies ++ [(id, c.toContainerMeta)] }
  | none => { st with reading := Function.update st.reading thread (some id) }

/-- Its read of the file, which another section may precede. -/
def readDisk (cfg : Config) (st : StoreThreads) (thread : Nat) (id : Int) :
    Except Abort StoreThreads := do
  let cm ← ContainerStore.retrieveContainerMetaById cfg [] st.store id
  return { st with
    reading := Function.update st.reading thread none
    replies := st.replies ++ [(id, cm)] }

/-- `close_container_store` after the append thread was joined. -/
def finish (st : StoreThreads) : StoreThreads :=
  { st with
    running := false
    store := { st.store with
      file := Library.Bytes.write st.store.file 0 (leInt 8 st.store.containerCount) } }

/-- One critical section. A section whose thread is not there changes nothing. -/
def step (cfg : Config) (order : TableOrder) (st : StoreThreads) :
    StoreAction → Except Abort StoreThreads
  | .init => .ok st.initContainerStore
  | .create => .ok (st.createContainer cfg)
  | .fill ck =>
      match st.opened with
      | none => .ok st
      | some c => do
          let r ← addChunkToContainer cfg c ck
          return { st with opened := some r.2.1 }
  | .handOver =>
      match st.opened with
      | none => .ok st
      | some c => st.handOver c
  | .getTop =>
      match st.queue with
      | c :: _ => .ok { st with appender := .holds c }
      | [] => .ok (if st.terminated then { st with appender := .exited } else st)
  | .write =>
      match st.appender with
      | .holds c => do
          let store ← ContainerStore.writeContainer cfg order st.store c
          return { st with store := store, appender := .wrote c, writes := st.writes ++ [c.id] }
      | _ => .ok st
  | .pop => .ok { st with queue := st.queue.tail, appender := .idle }
  | .search thread id => .ok (st.search thread id)
  | .readDisk thread =>
      match st.reading thread with
      | none => .ok st
      | some id => st.readDisk cfg thread id
  | .terminate => .ok { st with terminated := true }
  | .finish => .ok st.finish

/-- What each thread does next: the filter thread has one container open at a time and fills it
within its limits; a retrieve asks for a container that was handed over; the store is closed once
the filter thread has handed over its last container and the readers are done. -/
def Admissible (cfg : Config) (st : StoreThreads) : StoreAction → Prop
  | .init => st.running = false
  | .create => st.running = true ∧ st.terminated = false ∧ st.opened = none ∧
      ContainerStore.InPool cfg st.store.containerCount
  | .fill ck => ∃ c, st.opened = some c ∧ containerOverflow c ck.size = false ∧
      c.dataSize + ck.size < 2 ^ 31 ∧ (cfg.simulationLevel.writesData = true → ck.data.length = ck.size)
  | .handOver => ∃ c, st.opened = some c ∧
      (c.isEmpty = true ∨ st.queue.length < containerBufferSize)
  | .getTop => st.running = true ∧ st.appender = .idle
  | .write => ∃ c, st.appender = .holds c
  | .pop => ∃ c, st.appender = .wrote c
  | .search thread id => st.running = true ∧ st.reading thread = none ∧
      ∃ c, st.pool.containers.lookup id = some c
  | .readDisk thread => ∃ id, st.reading thread = some id
  | .terminate => st.running = true ∧ st.terminated = false ∧ st.opened = none
  | .finish => st.running = true ∧ st.appender = .exited ∧ ∀ thread, st.reading thread = none

def unwritten (st : StoreThreads) : List Container :=
  match st.appender with
  | .wrote _ => st.queue.tail
  | _ => st.queue

def firstIds (n : Nat) : List Int := (List.range n).map (fun i : Nat => (i : Int))

end StoreThreads

section Invariant

open StoreThreads ContainerStore

variable {cfg : Config} {order : TableOrder} {st : StoreThreads}

def AppenderInv (cfg : Config) (store : ContainerStore) (queue : List Container)
    (terminated : Bool) : Appender → Prop
  | .idle => True
  | .holds c => ∃ rest, queue = c :: rest
  | .wrote c => (∃ rest, queue = c :: rest) ∧ Intact cfg store c
  | .exited => queue = [] ∧ terminated = true

theorem AppenderInv.mono {store store' : ContainerStore} {queue : List Container} {term : Bool}
    {a : Appender} (h : AppenderInv cfg store queue term a)
    (hintact : ∀ c, Intact cfg store c → Intact cfg store' c) :
    AppenderInv cfg store' queue term a := by
  cases a with
  | wrote c => exact ⟨h.1, hintact c h.2⟩
  | idle | holds | exited => exact h

theorem AppenderInv.push {store : ContainerStore} {queue : List Container} {a : Appender}
    (h : AppenderInv cfg store queue false a) (c : Container) :
    AppenderInv cfg store (queue ++ [c]) false a := by
  cases a with
  | idle => trivial
  | holds c₀ =>
      obtain ⟨rest, rfl⟩ := h
      exact ⟨rest ++ [c], rfl⟩
  | wrote c₀ =>
      obtain ⟨⟨rest, rfl⟩, hintact⟩ := h
      exact ⟨⟨rest ++ [c], rfl⟩, hintact⟩
  | exited => exact absurd h.2 (by decide)

/-- The invariant between critical sections. `next` is the id that follows those handed over. -/
structure StoreThreadsInv (cfg : Config) (st : StoreThreads) (next : Nat) : Prop where
  count_eq : st.store.containerCount = st.pool.containerCount
  count_lt : st.store.containerCount < 2 ^ 63
  next_eq : st.pool.containerCount = next + (if st.opened.isSome then 1 else 0)
  represents : Represents cfg st.queue st.store st.pool
  below : ∀ id c, st.pool.containers.lookup id = some c → id < next
  opened : ∀ c, st.opened = some c →
    c.id = next ∧ InPool cfg c.id ∧ ∃ chunks, Filled cfg c chunks
  written : st.writes ++ st.unwritten.map (·.id) = firstIds next
  appender : AppenderInv cfg st.store st.queue st.terminated st.appender
  terminated : st.terminated = true → st.opened = none
  reading : ∀ thread id, st.reading thread = some id →
    ∃ c, st.pool.containers.lookup id = some c ∧ Intact cfg st.store c
  replies : ∀ r ∈ st.replies,
    ∃ c, st.pool.containers.lookup r.1 = some c ∧ r.2.Same c.toContainerMeta
  closed : st.running = false → st.queue = [] ∧ st.opened = none ∧
    ofLeInt (read st.store.file 0 8) = st.store.containerCount

theorem storeThreadsInv_initial (cfg : Config) : StoreThreadsInv cfg initial 0 where
  count_eq := rfl
  count_lt := by decide
  next_eq := rfl
  represents := ⟨by simp [initial], by simp [initial]⟩
  below := by simp [initial]
  opened := by simp [initial]
  written := rfl
  appender := trivial
  terminated := by simp [initial]
  reading := by simp [initial]
  replies := by simp [initial]
  closed _ := ⟨rfl, rfl, by decide⟩

variable {next : Nat}

private theorem init_inv (h : StoreThreadsInv cfg st next) (hrunning : st.running = false) :
    StoreThreadsInv cfg st.initContainerStore next := by
  obtain ⟨hqueue, hopened, hcount⟩ := h.closed hrunning
  have hstore : st.initContainerStore.store = st.store := by
    simp only [StoreThreads.initContainerStore, hcount]
  have hwritten : st.writes = firstIds next := by
    have hids := h.written
    have hnone : st.unwritten = [] := by
      unfold StoreThreads.unwritten
      split <;> simp [hqueue]
    simpa [hnone] using hids
  refine ⟨hstore ▸ h.count_eq, hstore ▸ h.count_lt, ?_, ?_, h.below, nofun, ?_, trivial,
    fun _ => rfl, nofun, h.replies, nofun⟩
  · have hnext := h.next_eq
    rw [hopened] at hnext
    exact hnext
  · rw [hstore, show st.initContainerStore.queue = st.queue from hqueue.symm]
    exact h.represents
  · show st.writes ++ [] = firstIds next
    rw [List.append_nil, hwritten]

private theorem create_inv (h : StoreThreadsInv cfg st next)
    (hok : st.Admissible cfg .create) : StoreThreadsInv cfg (st.createContainer cfg) next := by
  obtain ⟨hrunning, hterm, hopened, hpool⟩ := hok
  have hlt : st.store.containerCount + 1 < 2 ^ 63 := hpool.succ_lt
  have hnext : st.pool.containerCount = next := by
    have heq := h.next_eq
    rw [hopened] at heq
    exact heq
  have hid : st.store.containerCount = next := by rw [h.count_eq, hnext]
  have hintact : ∀ c, Intact cfg st.store c → Intact cfg (st.createContainer cfg).store c :=
    fun c hc => hc.of_file rfl
  refine ⟨?_, hlt, ?_, h.represents.congr rfl rfl, h.below, ?_, h.written,
    h.appender.mono hintact, ?_, ?_, h.replies, ?_⟩
  · show st.store.containerCount + 1 = ((st.pool.containerCount + 1 : Nat) : Int)
    rw [h.count_eq]
    omega
  · show st.pool.containerCount + 1 = next + 1
    rw [hnext]
  · intro c hc
    cases hc
    refine ⟨hid, hpool, [], ?_⟩
    have hfilled : Filled cfg (Destor.createContainer cfg ⟨∅, next⟩).1 [] := .create ⟨∅, next⟩
    rw [hid]
    exact hfilled
  · intro htrue
    exact absurd (htrue.symm.trans hterm) (by decide)
  · intro thread id hread
    obtain ⟨c, hc, hdisk⟩ := h.reading thread id hread
    exact ⟨c, hc, hintact c hdisk⟩
  · intro hfalse
    exact absurd (hrunning.symm.trans hfalse) (by decide)

private theorem fill_inv (h : StoreThreadsInv cfg st next) {ck : Chunk}
    (hok : st.Admissible cfg (.fill ck)) :
    Ensures (fun _ => False) (fun st' => StoreThreadsInv cfg st' next)
      (st.step cfg order (.fill ck)) := by
  obtain ⟨c, hc, hguard, hsum, hcontent⟩ := hok
  obtain ⟨hid, hpool, chunks, hfilled⟩ := h.opened c hc
  rw [StoreThreads.step, hc]
  apply Ensures.bind (addChunkToContainer_ensures cfg hguard hsum).and_eq
  intro r hr
  obtain ⟨hadded, heq⟩ := hr
  refine ⟨h.count_eq, h.count_lt, ?_, h.represents, h.below, fun c' hc' => ?_, h.written,
    h.appender, fun hterm => ?_, h.reading, h.replies, fun hclosed => ?_⟩
  · have hnext := h.next_eq
    rw [hc] at hnext
    exact hnext
  · cases hc'
    exact ⟨hadded.id_eq.trans hid, hadded.id_eq ▸ hpool, _, hfilled.add hguard hcontent heq⟩
  · rw [h.terminated hterm] at hc
    cases hc
  · rw [(h.closed hclosed).2.1] at hc
    cases hc

/-- While a container is open the run goes on, and its id is the last one given. -/
theorem StoreThreadsInv.of_opened (h : StoreThreadsInv cfg st next) {c : Container}
    (hc : st.opened = some c) :
    st.running = true ∧ st.terminated = false ∧ st.pool.containerCount = next + 1 := by
  refine ⟨?_, ?_, ?_⟩
  · cases hrunning : st.running with
    | true => rfl
    | false =>
        rw [(h.closed hrunning).2.1] at hc
        cases hc
  · cases hterm : st.terminated with
    | false => rfl
    | true =>
        rw [h.terminated hterm] at hc
        cases hc
  · have hnext := h.next_eq
    rw [hc] at hnext
    exact hnext

private theorem handOver_empty_inv (h : StoreThreadsInv cfg st next) {c : Container}
    (hc : st.opened = some c) (hempty : c.isEmpty = true) :
    Ensures (fun _ => False) (fun st' => StoreThreadsInv cfg st' next) (st.handOver c) := by
  obtain ⟨hid, hpool, chunks, hfilled⟩ := h.opened c hc
  obtain ⟨hrunning, -, hcount⟩ := h.of_opened hc
  have hasync : writeContainerAsync st.pool c =
      .ok { st.pool with containerCount := st.pool.containerCount - 1 } := by
    simp only [writeContainerAsync, bind_ok_iff, require_ok_iff]
    exact ⟨(), hfilled.fillInv.counted, by simp [hempty, pure, Except.pure]⟩
  have hintact : ∀ c', Intact cfg st.store c' →
      Intact cfg { st.store with containerCount := st.store.containerCount - 1 } c' :=
    fun c' hc' => hc'.of_file rfl
  have hnone : ∀ c', (none : Option Container) = some c' →
      c'.id = next ∧ InPool cfg c'.id ∧ ∃ chunks, Filled cfg c' chunks := by
    intro c' hc'
    cases hc'
  unfold StoreThreads.handOver
  rw [hasync]
  show StoreThreadsInv cfg (if c.isEmpty = true then _ else _) next
  rw [if_pos hempty]
  refine ⟨?_, ?_, ?_, h.represents.congr rfl rfl, h.below, hnone, h.written,
    h.appender.mono hintact, fun _ => rfl, fun thread id hread => ?_, h.replies, fun hclosed => ?_⟩
  · show st.store.containerCount - 1 = ((st.pool.containerCount - 1 : Nat) : Int)
    rw [h.count_eq, hcount]
    omega
  · show st.store.containerCount - 1 < 2 ^ 63
    have hlt := h.count_lt
    omega
  · show st.pool.containerCount - 1 = next
    omega
  · obtain ⟨c', hc', hdisk⟩ := h.reading thread id hread
    exact ⟨c', hc', hintact c' hdisk⟩
  · exact absurd (hrunning.symm.trans hclosed) (by decide)

private theorem written_push (h : StoreThreadsInv cfg st next) {c : Container} (hid : c.id = next) :
    st.writes ++ ({ st with queue := st.queue ++ [c] } : StoreThreads).unwritten.map (·.id) =
      firstIds (next + 1) := by
  have hids : firstIds (next + 1) = firstIds next ++ [c.id] := by
    rw [firstIds, List.range_succ, List.map_append, hid]
    rfl
  have happ := h.appender
  rw [hids, ← h.written, List.append_assoc]
  congr 1
  unfold unwritten
  cases hphase : st.appender with
  | wrote c₀ =>
      rw [hphase] at happ
      obtain ⟨⟨rest, hqueue⟩, -⟩ := happ
      simp [hqueue]
  | idle | holds | exited => simp

private theorem handOver_queue_inv (h : StoreThreadsInv cfg st next) {c : Container}
    (hc : st.opened = some c) (hne : c.isEmpty = false) :
    Ensures (fun _ => False) (fun st' => StoreThreadsInv cfg st' (next + 1)) (st.handOver c) := by
  obtain ⟨hid, hpool, chunks, hfilled⟩ := h.opened c hc
  obtain ⟨hrunning, hterm, hcount⟩ := h.of_opened hc
  have hnew : st.pool.containers.lookup c.id = none := by
    cases hlookup : st.pool.containers.lookup c.id with
    | none => rfl
    | some c' =>
        have hlt := h.below c.id c' hlookup
        omega
  have hasync : writeContainerAsync st.pool c =
      .ok { st.pool with containers := st.pool.containers.insert c.id c } :=
    writeContainerAsync_ensures hfilled.fillInv.counted hne
  obtain ⟨pool', hpool', hrepr⟩ := h.represents.push hfilled.fillInv hne hpool hnew
  rw [hasync, Except.ok.injEq] at hpool'
  subst hpool'
  have hlookup : ∀ id c', st.pool.containers.lookup id = some c' →
      (st.pool.containers.insert c.id c).lookup id = some c' := by
    intro id c' hc'
    have hother : id ≠ c.id := by
      rintro rfl
      rw [hnew] at hc'
      cases hc'
    rw [AList.lookup_insert_ne hother, hc']
  have happ := h.appender
  rw [hterm] at happ
  have hnone : ∀ c', (none : Option Container) = some c' →
      c'.id = next + 1 ∧ InPool cfg c'.id ∧ ∃ chunks, Filled cfg c' chunks := by
    intro c' hc'
    cases hc'
  unfold StoreThreads.handOver
  rw [hasync]
  show StoreThreadsInv cfg (if c.isEmpty = true then _ else _) (next + 1)
  rw [if_neg (by rw [hne]; decide)]
  refine ⟨h.count_eq, h.count_lt, hcount, hrepr, fun id c' hc' => ?_, hnone, written_push h hid,
    hterm ▸ happ.push c, fun _ => rfl, fun thread id hread => ?_, fun r hr => ?_, fun hclosed => ?_⟩
  · by_cases heq : id = c.id
    · omega
    · have hbelow := h.below id c' ((AList.lookup_insert_ne heq).symm.trans hc')
      omega
  · obtain ⟨c', hc', hintact⟩ := h.reading thread id hread
    exact ⟨c', hlookup id c' hc', hintact⟩
  · obtain ⟨c', hc', hsame⟩ := h.replies r hr
    exact ⟨c', hlookup r.1 c' hc', hsame⟩
  · exact absurd (hrunning.symm.trans hclosed) (by decide)

private theorem handOver_inv (h : StoreThreadsInv cfg st next)
    (hok : st.Admissible cfg .handOver) :
    Ensures (fun _ => False) (fun st' => ∃ next', StoreThreadsInv cfg st' next')
      (st.step cfg order .handOver) := by
  obtain ⟨c, hc, -⟩ := hok
  have hstep : st.step cfg order .handOver = st.handOver c := by
    simp only [StoreThreads.step, hc]
  rw [hstep]
  cases hempty : c.isEmpty with
  | true => exact (handOver_empty_inv h hc hempty).mono (fun _ he => he) fun _ hst => ⟨next, hst⟩
  | false =>
      exact (handOver_queue_inv h hc hempty).mono (fun _ he => he) fun _ hst => ⟨next + 1, hst⟩

private theorem getTop_inv (h : StoreThreadsInv cfg st next)
    (hok : st.Admissible cfg .getTop) :
    Ensures (fun _ => False) (fun st' => StoreThreadsInv cfg st' next)
      (st.step cfg order .getTop) := by
  obtain ⟨hrunning, hidle⟩ := hok
  have hopen : st.running ≠ false := by
    rw [hrunning]
    decide
  have hwritten : st.writes ++ st.queue.map (·.id) = firstIds next := by
    have hids := h.written
    rwa [unwritten, hidle] at hids
  cases hqueue : st.queue with
  | cons c rest =>
      have hstep : st.step cfg order .getTop = .ok { st with appender := .holds c } := by
        simp only [StoreThreads.step, hqueue]
      rw [hstep]
      exact ⟨h.count_eq, h.count_lt, h.next_eq, h.represents, h.below, h.opened, hwritten,
        ⟨rest, hqueue⟩, h.terminated, h.reading, h.replies, fun hclosed => absurd hclosed hopen⟩
  | nil =>
      have hstep : st.step cfg order .getTop =
          .ok (if st.terminated then { st with appender := .exited } else st) := by
        simp only [StoreThreads.step, hqueue]
      rw [hstep]
      by_cases hterm : st.terminated = true
      · rw [if_pos hterm]
        exact ⟨h.count_eq, h.count_lt, h.next_eq, h.represents, h.below, h.opened, hwritten,
          ⟨hqueue, hterm⟩, h.terminated, h.reading, h.replies,
          fun hclosed => absurd hclosed hopen⟩
      · rw [if_neg hterm]
        exact h

private theorem write_inv (h : StoreThreadsInv cfg st next)
    (hok : st.Admissible cfg .write) :
    Ensures (fun _ => False) (fun st' => StoreThreadsInv cfg st' next)
      (st.step cfg order .write) := by
  obtain ⟨c, hholds⟩ := hok
  have happ := h.appender
  rw [hholds] at happ
  obtain ⟨rest, hqueue⟩ := happ
  have hrepr := h.represents
  rw [hqueue] at hrepr
  obtain ⟨store, hwrite, hwritten, hrepr'⟩ := hrepr.write order
  obtain ⟨hne, hlookup⟩ := hrepr.queued c List.mem_cons_self
  obtain ⟨-, hpool, ⟨chunks, hfill⟩, -⟩ := hrepr.stored c.id c hlookup
  have hstep : st.step cfg order .write =
      .ok { st with store := store, appender := .wrote c, writes := st.writes ++ [c.id] } := by
    simp only [StoreThreads.step, hholds, hwrite]
    rfl
  rw [hstep]
  refine ⟨hwritten.count_eq.trans h.count_eq, hwritten.count_eq ▸ h.count_lt, h.next_eq,
    hqueue ▸ hrepr', h.below, h.opened, ?_, ⟨⟨rest, hqueue⟩, hwritten.intact⟩, h.terminated,
    fun thread id hread => ?_, h.replies, fun hclosed => ?_⟩
  · have hids := h.written
    rw [unwritten, hholds] at hids
    show st.writes ++ [c.id] ++ st.queue.tail.map (·.id) = firstIds next
    rw [← hids, hqueue, List.append_assoc]
    rfl
  · -- a reader's container is either the one just written or lies elsewhere
    obtain ⟨c', hc', hintact⟩ := h.reading thread id hread
    refine ⟨c', hc', ?_⟩
    obtain ⟨hid', hpool', ⟨chunks', hfill'⟩, -⟩ := h.represents.stored id c' hc'
    by_cases heq : c'.id = c.id
    · rw [← hid', heq, hlookup] at hc'
      cases hc'
      exact hwritten.intact
    · refine hintact.of_agree hfill' hpool'.reaches fun i hi => hwritten.frame i ?_
      exact not_region_of_ne (fun hoffset => heq (hpool'.offset_inj hpool hoffset)) hi
  · rw [(h.closed hclosed).1] at hqueue
    cases hqueue

private theorem pop_inv (h : StoreThreadsInv cfg st next)
    (hok : st.Admissible cfg .pop) :
    Ensures (fun _ => False) (fun st' => StoreThreadsInv cfg st' next)
      (st.step cfg order .pop) := by
  obtain ⟨c, hwrote⟩ := hok
  have happ := h.appender
  rw [hwrote] at happ
  obtain ⟨⟨rest, hqueue⟩, hintact⟩ := happ
  have hrepr := h.represents
  rw [hqueue] at hrepr
  have hids := h.written
  rw [unwritten, hwrote] at hids
  refine ⟨h.count_eq, h.count_lt, h.next_eq, ?_, h.below, h.opened, hids, trivial, h.terminated,
    h.reading, h.replies, fun hclosed => ?_⟩
  · show Represents cfg st.queue.tail st.store st.pool
    rw [hqueue]
    exact hrepr.pop hintact
  · rw [(h.closed hclosed).1] at hqueue
    cases hqueue

private theorem search_inv (h : StoreThreadsInv cfg st next) {thread : Nat} {id : Int}
    (hok : st.Admissible cfg (.search thread id)) :
    StoreThreadsInv cfg (st.search thread id) next := by
  obtain ⟨hrunning, -, c, hc⟩ := hok
  have hopen : st.running ≠ false := by
    rw [hrunning]
    decide
  obtain ⟨hid, -, -, hplace⟩ := h.represents.stored id c hc
  unfold StoreThreads.search
  cases hfind : st.queue.find? (fun c' => c'.id == id) with
  | some c' =>
      have hid' : c'.id = id := by simpa using List.find?_some hfind
      have hlookup := (h.represents.queued c' (List.mem_of_find?_eq_some hfind)).2
      refine ⟨h.count_eq, h.count_lt, h.next_eq, h.represents, h.below, h.opened, h.written,
        h.appender, h.terminated, h.reading, fun r hr => ?_, fun hclosed => absurd hclosed hopen⟩
      rcases List.mem_append.mp hr with hr | hr
      · exact h.replies r hr
      · rw [List.mem_singleton.mp hr]
        exact ⟨c', hid' ▸ hlookup, ContainerMeta.Same.refl _⟩
  | none =>
      refine ⟨h.count_eq, h.count_lt, h.next_eq, h.represents, h.below, h.opened, h.written,
        h.appender, h.terminated, fun t i hread => ?_, h.replies,
        fun hclosed => absurd hclosed hopen⟩
      by_cases ht : t = thread
      · -- what is not in the buffer any more has reached the disk
        subst ht
        have hasked : some id = some i :=
          (Function.update_self t (some id) st.reading).symm.trans hread
        cases hasked
        refine ⟨c, hc, hplace.resolve_left fun hmem => ?_⟩
        have hmiss := List.find?_eq_none.mp hfind c hmem
        simp [hid] at hmiss
      · exact h.reading t i ((Function.update_of_ne ht (some id) st.reading).symm.trans hread)

private theorem readDisk_inv (h : StoreThreadsInv cfg st next) {thread : Nat}
    (hok : st.Admissible cfg (.readDisk thread)) :
    Ensures (fun _ => False) (fun st' => StoreThreadsInv cfg st' next)
      (st.step cfg order (.readDisk thread)) := by
  obtain ⟨id, hread⟩ := hok
  obtain ⟨c, hc, hintact⟩ := h.reading thread id hread
  obtain ⟨rfl, hpool, ⟨chunks, hfill⟩, -⟩ := h.represents.stored id c hc
  obtain ⟨cm, hcm, hsame⟩ := hintact.retrieveContainerMetaById hfill hpool.lt
    (fun c' (hc' : c' ∈ []) => absurd hc' List.not_mem_nil)
  have hstep : st.step cfg order (.readDisk thread) =
      .ok { st with
        reading := Function.update st.reading thread none
        replies := st.replies ++ [(c.id, cm)] } := by
    simp only [StoreThreads.step, hread, StoreThreads.readDisk, hcm]
    rfl
  rw [hstep]
  refine ⟨h.count_eq, h.count_lt, h.next_eq, h.represents, h.below, h.opened, h.written,
    h.appender, h.terminated, fun t i hreading => ?_, fun r hr => ?_, h.closed⟩
  · by_cases ht : t = thread
    · subst ht
      cases (Function.update_self t none st.reading).symm.trans hreading
    · exact h.reading t i ((Function.update_of_ne ht none st.reading).symm.trans hreading)
  · rcases List.mem_append.mp hr with hr | hr
    · exact h.replies r hr
    · rw [List.mem_singleton.mp hr]
      exact ⟨c, hc, hsame⟩

private theorem terminate_inv (h : StoreThreadsInv cfg st next)
    (hok : st.Admissible cfg .terminate) :
    StoreThreadsInv cfg { st with terminated := true } next := by
  obtain ⟨-, hterm, hopened⟩ := hok
  refine ⟨h.count_eq, h.count_lt, h.next_eq, h.represents, h.below, h.opened, h.written, ?_,
    fun _ => hopened, h.reading, h.replies, h.closed⟩
  have happ := h.appender
  show AppenderInv cfg st.store st.queue true st.appender
  cases hphase : st.appender with
  | exited =>
      rw [hphase] at happ
      exact ⟨happ.1, rfl⟩
  | idle | holds | wrote =>
      rw [hphase] at happ
      exact happ

private theorem finish_inv (h : StoreThreadsInv cfg st next)
    (hok : st.Admissible cfg .finish) : StoreThreadsInv cfg st.finish next := by
  obtain ⟨-, hexited, hreading⟩ := hok
  have happ := h.appender
  rw [hexited] at happ
  obtain ⟨hqueue, hterm⟩ := happ
  have hopened := h.terminated hterm
  have hfile : ∀ i, 8 ≤ i → st.finish.store.file i = st.store.file i := by
    intro i hi
    exact write_apply_of_le (by simpa using hi)
  have hintact : ∀ id c, st.pool.containers.lookup id = some c → Intact cfg st.store c →
      Intact cfg st.finish.store c := by
    intro id c hc hdisk
    obtain ⟨-, hpool, ⟨chunks, hfill⟩, -⟩ := h.represents.stored id c hc
    refine hdisk.of_agree hfill hpool.reaches fun i hi => hfile i ?_
    by_contra hlow
    exact not_region_counter hpool.reaches (by omega) hi
  refine ⟨h.count_eq, h.count_lt, h.next_eq, ⟨fun id c hc => ?_, h.represents.queued⟩, h.below,
    h.opened, h.written, ?_, h.terminated, fun thread id hread => ?_, h.replies,
    fun _ => ⟨hqueue, hopened, ?_⟩⟩
  · obtain ⟨hid, hpool, hfill, hplace⟩ := h.represents.stored id c hc
    exact ⟨hid, hpool, hfill, hplace.imp_right (hintact id c hc)⟩
  · show AppenderInv cfg st.finish.store st.queue st.terminated st.appender
    rw [hexited]
    exact ⟨hqueue, hterm⟩
  · rw [show st.finish.reading = st.reading from rfl, hreading thread] at hread
    cases hread
  · have hread : read st.finish.store.file 0 8 = leInt 8 st.store.containerCount := by
      have hself := read_write_self st.store.file 0 (leInt 8 st.store.containerCount)
      rwa [length_leInt] at hself
    rw [hread]
    have hcount := h.count_eq
    exact ofLeInt_leInt (by omega) (by omega) (by have := h.count_lt; omega)

/-- Every admissible critical section succeeds and keeps the invariant. -/
theorem storeThreads_ensures (h : StoreThreadsInv cfg st next) {a : StoreAction}
    (hok : st.Admissible cfg a) :
    Ensures (fun _ => False) (fun st' => ∃ next', StoreThreadsInv cfg st' next')
      (st.step cfg order a) := by
  have stays : ∀ {x : Except Abort StoreThreads},
      Ensures (fun _ => False) (fun st' => StoreThreadsInv cfg st' next) x →
      Ensures (fun _ => False) (fun st' => ∃ next', StoreThreadsInv cfg st' next') x :=
    fun hx => hx.mono (fun _ he => he) fun _ hst => ⟨next, hst⟩
  cases a with
  | init => exact ⟨next, init_inv h hok⟩
  | create => exact ⟨next, create_inv h hok⟩
  | fill ck => exact stays (fill_inv h hok)
  | handOver => exact handOver_inv h hok
  | getTop => exact stays (getTop_inv h hok)
  | write => exact stays (write_inv h hok)
  | pop => exact stays (pop_inv h hok)
  | search thread id => exact ⟨next, search_inv h hok⟩
  | readDisk thread => exact stays (readDisk_inv h hok)
  | terminate => exact ⟨next, terminate_inv h hok⟩
  | finish => exact ⟨next, finish_inv h hok⟩

structure ClosedStore (cfg : Config) (st : StoreThreads) : Prop where
  onDisk : ∀ id c, st.pool.containers.lookup id = some c → Intact cfg st.store c ∧
    ∃ cm, ContainerStore.retrieveContainerMetaById cfg [] st.store id = .ok cm ∧
      cm.Same c.toContainerMeta
  writtenOnce : ∃ n : Nat, st.store.containerCount = n ∧ st.writes = firstIds n
  continues : st.initContainerStore.store.containerCount = st.store.containerCount

theorem StoreThreadsInv.closedStore (h : StoreThreadsInv cfg st next)
    (hclosed : st.running = false) : ClosedStore cfg st := by
  obtain ⟨hqueue, hopened, hcount⟩ := h.closed hclosed
  refine ⟨fun id c hc => ?_, ⟨next, ?_, ?_⟩, hcount⟩
  · obtain ⟨rfl, hpool, ⟨chunks, hfill⟩, hplace⟩ := h.represents.stored id c hc
    have hintact : Intact cfg st.store c := by
      apply hplace.resolve_left
      rw [hqueue]
      simp
    exact ⟨hintact, hintact.retrieveContainerMetaById hfill hpool.lt (by simp)⟩
  · have hnext := h.next_eq
    rw [hopened] at hnext
    rw [h.count_eq, hnext]
    simp
  · have hids := h.written
    have hnone : st.unwritten = [] := by
      unfold StoreThreads.unwritten
      split <;> simp [hqueue]
    rwa [hnone, List.map_nil, List.append_nil] at hids

/-- In every run of the three threads no critical section fails, a retrieve returns the metadata
of the container that was handed over, and a closed store holds every container. -/
theorem store_keeps_containers {actions : List StoreAction}
    (h : Run (StoreThreads.step cfg order) (StoreThreads.Admissible cfg) StoreThreads.initial
      actions st) :
    (∀ a, st.Admissible cfg a → ∃ st', st.step cfg order a = .ok st') ∧
      (∀ r ∈ st.replies,
        ∃ c, st.pool.containers.lookup r.1 = some c ∧ r.2.Same c.toContainerMeta) ∧
      (st.running = false → ClosedStore cfg st) := by
  have hinv : ∃ next, StoreThreadsInv cfg st next :=
    h.invariant (fun st => ∃ next, StoreThreadsInv cfg st next)
      ⟨0, storeThreadsInv_initial cfg⟩ fun _ _ ⟨_, hs⟩ hok => storeThreads_ensures hs hok
  obtain ⟨next, hinv⟩ := hinv
  refine ⟨fun a hok => ?_, hinv.replies, hinv.closedStore⟩
  have hstep : Ensures (fun _ => False) (fun st' => ∃ next', StoreThreadsInv cfg st' next')
      (st.step cfg order a) := storeThreads_ensures hinv hok
  cases heq : st.step cfg order a with
  | ok st' => exact ⟨st', rfl⟩
  | error e => exact (hstep.of_error heq).elim

private def oneByte : Chunk := .normal (.fill 1) 1 [7]

/-- Two containers: one is searched for when it has left the buffer, the other one while it waits
there. -/
theorem store_keeps_containers_two : ∃ st : StoreThreads,
    st.replies.map Prod.fst = [0, 1] ∧ st.running = false ∧
      ClosedStore (smallConfig .exact .physical) st := by
  have h₀ : Run (StoreThreads.step (smallConfig .exact .physical) ContainerStore.entryOrder)
    (StoreThreads.Admissible (smallConfig .exact .physical)) StoreThreads.initial []
    StoreThreads.initial := .nil
  have h₁ := h₀.after .init rfl rfl
  have h₂ := h₁.after .create ⟨rfl, rfl, rfl, ⟨by decide, by decide⟩⟩ rfl
  have h₃ := h₂.after (.fill oneByte) ⟨_, rfl, rfl, by decide, fun _ => rfl⟩ rfl
  have h₄ := h₃.after .handOver ⟨_, rfl, .inr (by decide)⟩ rfl
  have h₅ := h₄.after .create ⟨rfl, rfl, rfl, ⟨by decide, by decide⟩⟩ rfl
  have h₆ := h₅.after .getTop ⟨rfl, rfl⟩ rfl
  have h₇ := h₆.after .write ⟨_, rfl⟩ rfl
  have h₈ := h₇.after (.fill oneByte) ⟨_, rfl, rfl, by decide, fun _ => rfl⟩ rfl
  have h₉ := h₈.after .pop ⟨_, rfl⟩ rfl
  have h₁₀ := h₉.after .handOver ⟨_, rfl, .inr (by decide)⟩ rfl
  have h₁₁ := h₁₀.after (.search 0 0) ⟨rfl, rfl, _, rfl⟩ rfl
  obtain ⟨st, hread⟩ := (store_keeps_containers h₁₁).1 (.readDisk 0) ⟨0, rfl⟩
  have h₁₂ := h₁₁.after (.readDisk 0) ⟨0, rfl⟩ hread
  obtain ⟨cm, -, hst⟩ := bind_ok_iff.mp hread
  obtain rfl := Except.ok.inj hst
  have h₁₃ := h₁₂.after (.search 1 1) ⟨rfl, rfl, _, rfl⟩ rfl
  have h₁₄ := h₁₃.after .getTop ⟨rfl, rfl⟩ rfl
  have h₁₅ := h₁₄.after .write ⟨_, rfl⟩ rfl
  have h₁₆ := h₁₅.after .pop ⟨_, rfl⟩ rfl
  have h₁₇ := h₁₆.after .terminate ⟨rfl, rfl, rfl⟩ rfl
  have h₁₈ := h₁₇.after .getTop ⟨rfl, rfl⟩ rfl
  have hreading : ∀ thread : Nat, Function.update (Function.update (fun _ => none) 0
      (some (0 : Int))) 0 none thread = none := by
    intro thread
    rw [Function.update_idem]
    by_cases hthread : thread = 0
    · rw [hthread, Function.update_self]
    · rw [Function.update_of_ne hthread]
  have h₁₉ := h₁₈.after .finish ⟨rfl, rfl, hreading⟩ rfl
  exact ⟨_, rfl, rfl, (store_keeps_containers h₁₉).2.2 rfl⟩

end Invariant

end Destor
