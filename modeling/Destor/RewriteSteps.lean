/- digest: What the operations on the rewrite buffer did where they succeeded, whatever the chunks
   are. -/

import Destor.RewritePhase

set_option autoImplicit false
set_option relaxedAutoImplicit false

namespace Destor

open Library.Outcome Library.SortedSeq

def Chunk.Known (c : Chunk) : Prop := c.isSignal = false ∧ c.id ≠ temporaryId

instance (c : Chunk) : Decidable c.Known :=
  inferInstanceAs (Decidable (c.isSignal = false ∧ c.id ≠ temporaryId))

/-- A chunk as `rewrite_buffer_pop` hands it over. -/
def popped (har : Option (IdMap Int)) (c : Chunk) : Chunk :=
  if c.isSignal = false ∧ c.flag.duplicate = true ∧ c.id ≠ temporaryId then applyHar har c else c

section Popped

variable {har : Option (IdMap Int)} {c : Chunk}

theorem popped_onlyMarked (har : Option (IdMap Int)) (c : Chunk) : c.OnlyMarked (popped har c) := by
  unfold popped
  split
  · exact applyHar_onlyMarked har c
  · exact .refl c

/-- Looking for sparse containers sets no other mark. -/
theorem popped_outOfOrder : (popped har c).flag.outOfOrder = c.flag.outOfOrder := by
  unfold popped applyHar harCheck
  repeat' split
  all_goals rfl

end Popped

section Operations

variable {n : Nat} {b b' : RewriteBuffer} {c : Chunk} {full : Bool} {har : Option (IdMap Int)}
  {seq seq' : List ContainerRecord} {cid : Int}

theorem cid_of_mem_updateRecord {f : ContainerRecord → Option ContainerRecord}
    (hf : ∀ r r', f r = some r' → r'.cid = r.cid) {r : ContainerRecord}
    (hr : r ∈ updateRecord cid f seq) : ∃ r' ∈ seq, r'.cid = r.cid :=
  List.mem_map.mp ((updateRecord_sublist hf).subset (List.mem_map_of_mem hr))

/-- A record is new only for the container of the chunk, and that is known. -/
theorem pushRecord_ok (h : pushRecord seq c = .ok seq') :
    (c.id ≠ temporaryId → c.flag.duplicate = true) ∧
      ∀ r ∈ seq', (∃ r' ∈ seq, r'.cid = r.cid) ∨ (r.cid = c.id ∧ c.id ≠ temporaryId) := by
  unfold pushRecord at h
  split at h
  · rename_i hid
    cases h
    exact ⟨fun hne => absurd hid hne, fun r hr => .inl ⟨r, hr, rfl⟩⟩
  · rename_i hid
    obtain ⟨_, hdup, h⟩ := bind_ok_iff.mp h
    refine ⟨fun _ => require_ok_iff.mp hdup, fun r hr => ?_⟩
    split at h
    · cases h
      rcases (mem_insertSorted recordAfter).mp hr with rfl | hr
      · exact .inr ⟨rfl, hid⟩
      · exact .inl ⟨r, hr, rfl⟩
    · obtain ⟨_, _, h⟩ := bind_ok_iff.mp h
      cases h
      refine .inl (cid_of_mem_updateRecord ?_ hr)
      intro r r' hr'
      cases hr'
      rfl

theorem rewriteBufferPush_signal (hsignal : c.isSignal = true)
    (h : rewriteBufferPush n b c = .ok (full, b')) :
    full = false ∧ b' = { b with chunkQueue := b.chunkQueue ++ [c] } := by
  rw [rewriteBufferPush, if_pos hsignal] at h
  cases h
  exact ⟨rfl, rfl⟩

theorem rewriteBufferPush_ok (hsignal : c.isSignal = false)
    (h : rewriteBufferPush n b c = .ok (full, b')) :
    ∃ seq, pushRecord b.containerRecordSeq c = .ok seq ∧
      b' = { chunkQueue := b.chunkQueue ++ [c], containerRecordSeq := seq, num := b.num + 1,
             size := toInt32 (b.size + c.size) } ∧
      (full = true → b.num + 1 = n) ∧ (full = false → b.num + 1 < n) := by
  rw [rewriteBufferPush, hsignal, if_neg Bool.false_ne_true] at h
  obtain ⟨seq, hseq, h⟩ := bind_ok_iff.mp h
  obtain ⟨_, hfull, h⟩ := bind_ok_iff.mp h
  cases h
  refine ⟨seq, hseq, rfl, require_ok_iff.mp hfull, fun hnot => ?_⟩
  have hlt := of_decide_eq_false hnot
  omega

/-- A push appends the chunk, whatever else it does. -/
theorem rewriteBufferPush_queue (h : rewriteBufferPush n b c = .ok (full, b')) :
    b'.chunkQueue = b.chunkQueue ++ [c] := by
  cases hsignal : c.isSignal with
  | true => rw [(rewriteBufferPush_signal hsignal h).2]
  | false =>
      obtain ⟨_, _, rfl, _⟩ := rewriteBufferPush_ok hsignal h
      rfl

/-- A push that succeeds keeps a buffer consistent. -/
theorem rewriteBufferPush_consistent (hb : b.Consistent) (hc : c.Judgeable)
    (hfits : bufferedBytes (b.chunkQueue ++ [c]) < 2 ^ 31)
    (h : rewriteBufferPush n b c = .ok (full, b')) : b'.Consistent := by
  cases hsignal : c.isSignal with
  | true =>
      have hwide : rewriteBufferPush (b.num.toNat + 1) b c = .ok (full, b') := by
        rw [← h, rewriteBufferPush, rewriteBufferPush, if_pos hsignal, if_pos hsignal]
      obtain ⟨_, _, hpush, hconsistent, _⟩ :=
        rewriteBufferPush_spec (n := b.num.toNat + 1) hb hc hfits (by omega)
      rw [hwide, Except.ok.injEq, Prod.mk.injEq] at hpush
      exact hpush.2 ▸ hconsistent
  | false =>
      obtain ⟨_, _, _, hfull, hless⟩ := rewriteBufferPush_ok hsignal h
      have hroom : b.num < n := by
        cases full with
        | true =>
            have heq := hfull rfl
            omega
        | false =>
            have hlt := hless rfl
            omega
      obtain ⟨_, _, hpush, hconsistent, _⟩ := rewriteBufferPush_spec hb hc hfits hroom
      rw [h, Except.ok.injEq, Prod.mk.injEq] at hpush
      exact hpush.2 ▸ hconsistent

/-- The first chunk is popped, and leaves the records of other containers alone. -/
theorem rewriteBufferPop_ok {queue : List Chunk} {c' : Option Chunk}
    (hqueue : b.chunkQueue = c :: queue) (h : rewriteBufferPop har b = .ok (c', b')) :
    c' = some (popped har c) ∧ b'.chunkQueue = queue ∧
      b'.num = b.num - (if c.isSignal then 0 else 1) ∧
      b'.size = (if c.isSignal then b.size else toInt32 (b.size - c.size)) ∧
      ∀ r ∈ b'.containerRecordSeq, ∃ r' ∈ b.containerRecordSeq, r'.cid = r.cid := by
  rw [rewriteBufferPop, hqueue] at h
  simp only at h
  unfold popped
  cases hsignal : c.isSignal with
  | true =>
      rw [hsignal] at h
      cases h
      exact ⟨rfl, rfl, (Int.sub_zero _).symm, rfl, fun r hr => ⟨r, hr, rfl⟩⟩
  | false =>
      rw [hsignal, if_neg Bool.false_ne_true] at h
      split at h
      · rename_i hknown
        obtain ⟨seq, hseq, h⟩ := bind_ok_iff.mp h
        cases h
        refine ⟨by rw [if_pos ⟨rfl, hknown⟩], rfl, rfl, rfl, fun r hr => ?_⟩
        unfold popRecord at hseq
        split at hseq
        · cases hseq
        · cases hseq
          refine cid_of_mem_updateRecord ?_ hr
          intro r r' hr'
          split at hr'
          · cases hr'
          · cases hr'
            rfl
      · rename_i hunknown
        cases h
        exact ⟨by rw [if_neg fun h => hunknown h.2], rfl, rfl, rfl, fun r hr => ⟨r, hr, rfl⟩⟩

end Operations

/-- Of a sum kept in 32 bits one term is taken back. -/
theorem toInt32_sub_cancel (size rest : Nat) :
    toInt32 (toInt32 ((size + rest : Nat) : Int) - size) = toInt32 rest := by
  have hrest : ((size + rest : Nat) : Int) - size = rest := by omega
  unfold toInt32
  rw [Int.bmod_sub_bmod, hrest]

section Flush

variable {σ : Type} {har : Option (IdMap Int)} {mark : Chunk → Except Abort Chunk}
  {t t' : RewriteThread σ}

structure BufferFlushed (har : Option (IdMap Int)) (mark : Chunk → Except Abort Chunk)
    (t t' : RewriteThread σ) (emitted : List Chunk) : Prop where
  rewriteQueue : t'.rewriteQueue = t.rewriteQueue ++ emitted
  marked : List.Forall₂ (fun c c' => mark (popped har c) = .ok c') t.buffer.chunkQueue emitted
  empty : t'.buffer.chunkQueue = []
  num : t'.buffer.num = t.buffer.num - bufferedNum t.buffer.chunkQueue
  size : t.buffer.size = toInt32 (bufferedBytes t.buffer.chunkQueue) → t'.buffer.size = 0
  locals : t'.locals = t.locals
  records : ∀ r ∈ t'.buffer.containerRecordSeq, ∃ r' ∈ t.buffer.containerRecordSeq, r'.cid = r.cid

private theorem popAll_ok : ∀ fuel (t : RewriteThread σ), t.buffer.chunkQueue.length < fuel →
    popAll har mark fuel t = .ok t' → ∃ emitted, BufferFlushed har mark t t' emitted := by
  intro fuel
  induction fuel with
  | zero => exact fun t h => absurd h (Nat.not_lt_zero _)
  | succ fuel ih =>
      intro t hfuel h
      obtain ⟨⟨c', b⟩, hpop, h⟩ := bind_ok_iff.mp h
      cases hqueue : t.buffer.chunkQueue with
      | nil =>
          rw [rewriteBufferPop_nil hqueue] at hpop
          cases hpop
          cases h
          exact ⟨[],
            { rewriteQueue := (List.append_nil _).symm
              marked := by rw [hqueue]; exact .nil
              empty := hqueue
              num := by rw [hqueue, bufferedNum_nil]; simp
              size := fun h => by rw [h, hqueue]; decide
              locals := rfl
              records := fun r hr => ⟨r, hr, rfl⟩ }⟩
      | cons c queue =>
          obtain ⟨rfl, hqueue', hnum, hsize, hrecords⟩ := rewriteBufferPop_ok hqueue hpop
          obtain ⟨c'', hmark, h⟩ := bind_ok_iff.mp h
          have hlt : b.chunkQueue.length < fuel := by
            rw [hqueue, List.length_cons] at hfuel
            rw [hqueue']
            omega
          obtain ⟨emitted, hrest⟩ := ih _ hlt h
          refine ⟨c'' :: emitted,
            { rewriteQueue := ?_
              marked := ?_
              empty := hrest.empty
              num := ?_
              size := fun h => hrest.size ?_
              locals := hrest.locals
              records := ?_ }⟩
          · rw [hrest.rewriteQueue, List.append_assoc]
            rfl
          · have hmarked := hrest.marked
            rw [hqueue]
            refine .cons hmark ?_
            show List.Forall₂ _ queue emitted
            rw [← hqueue']
            exact hmarked
          · have hcount : t'.buffer.num = b.num - bufferedNum b.chunkQueue := hrest.num
            rw [hcount, hnum, hqueue', hqueue, bufferedNum_cons]
            cases c.isSignal
            · simp only [Bool.false_eq_true, if_false]
              omega
            · simp
          · show b.size = toInt32 (bufferedBytes b.chunkQueue)
            rw [hsize, hqueue', h, hqueue, bufferedBytes_cons]
            cases c.isSignal
            · rw [if_neg Bool.false_ne_true, if_neg Bool.false_ne_true]
              exact toInt32_sub_cancel c.size _
            · rw [if_pos rfl, if_pos rfl, Nat.zero_add]
          · intro r hr
            obtain ⟨r', hr', hcid⟩ := hrest.records r hr
            obtain ⟨r'', hr'', hcid'⟩ := hrecords r' hr'
            exact ⟨r'', hr'', hcid'.trans hcid⟩

theorem flush_ok (h : flush har mark t = .ok t') : ∃ emitted, BufferFlushed har mark t t' emitted :=
  popAll_ok _ t (Nat.lt_succ_self _) h

end Flush

end Destor
