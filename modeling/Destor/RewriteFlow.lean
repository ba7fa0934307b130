/- digest: What a round of the rewrite phase moves, whether or not a later one aborts: how many
   chunks stay behind in the buffer. -/

import Destor.RewritePhase

set_option autoImplicit false
set_option relaxedAutoImplicit false

namespace Destor

open Library.Outcome

def RewriteBuffer.Counted (b : RewriteBuffer) : Prop := b.num = bufferedNum b.chunkQueue

section Buffer

variable {b : RewriteBuffer} {c : Chunk} {queue : List Chunk} {n : Nat}

/-- What a push leaves, and what its return value tells. -/
structure Pushed (n : Nat) (b : RewriteBuffer) (c : Chunk) (r : Bool × RewriteBuffer) : Prop where
  queue : r.2.chunkQueue = b.chunkQueue ++ [c]
  counted : r.2.Counted
  full : r.1 = true → c.isSignal = false ∧ r.2.num = n
  notFull : r.1 = false → (c.isSignal = true ∧ r.2.num = b.num) ∨ r.2.num < n

theorem rewriteBufferPush_effect (hb : b.Counted) :
    Ensures (fun _ => True) (Pushed n b c) (rewriteBufferPush n b c) := by
  have hnum : b.num = bufferedNum b.chunkQueue := hb
  unfold rewriteBufferPush
  cases hsignal : c.isSignal with
  | true =>
      refine ⟨rfl, ?_, fun h => absurd h (by simp), fun _ => Or.inl ⟨hsignal, rfl⟩⟩
      show b.num = bufferedNum (b.chunkQueue ++ [c])
      rw [bufferedNum_append, bufferedNum_cons, hsignal, hnum]
      simp
  | false =>
      rw [if_neg Bool.false_ne_true]
      cases pushRecord b.containerRecordSeq c with
      | error e => trivial
      | ok seq =>
          apply (ensures_require (.inr trivial)).bind
          intro _ hfull
          refine ⟨rfl, ?_, fun h => ⟨hsignal, hfull h⟩, fun h => Or.inr ?_⟩
          · show b.num + 1 = bufferedNum (b.chunkQueue ++ [c])
            rw [bufferedNum_append, bufferedNum_cons, hsignal, hnum]
            simp
          · exact Int.not_le.mp (of_decide_eq_false h)

/-- What a pop takes. -/
inductive Popped (b : RewriteBuffer) (r : Option Chunk × RewriteBuffer) : Prop
  | nothing (hnil : b.chunkQueue = []) (hnone : r.1 = none) (hsame : r.2 = b)
  | chunk (c c' : Chunk) (queue : List Chunk) (hqueue : b.chunkQueue = c :: queue)
      (hsome : r.1 = some c') (hmark : c.OnlyMarked c') (hrest : r.2.chunkQueue = queue)
      (hcounted : r.2.Counted)

theorem rewriteBufferPop_effect (har : Option (IdMap Int)) (hb : b.Counted) :
    Ensures (fun _ => True) (Popped b) (rewriteBufferPop har b) := by
  have hnum : b.num = bufferedNum b.chunkQueue := hb
  unfold rewriteBufferPop
  cases hqueue : b.chunkQueue with
  | nil => exact .nothing hqueue rfl rfl
  | cons c queue =>
      rw [hqueue, bufferedNum_cons] at hnum
      simp only
      cases hsignal : c.isSignal with
      | true =>
          refine .chunk c c queue hqueue rfl (.refl c) rfl ?_
          show b.num = bufferedNum queue
          rw [hnum, hsignal]
          simp
      | false =>
          have hless : b.num - 1 = bufferedNum queue := by
            rw [hnum, hsignal]
            simp
          rw [if_neg Bool.false_ne_true]
          split
          · cases popRecord b.containerRecordSeq c with
            | error e => trivial
            | ok seq => exact .chunk c _ queue hqueue rfl (applyHar_onlyMarked har c) rfl hless
          · exact .chunk c c queue hqueue rfl (.refl c) rfl hless

end Buffer

section Flush

variable {σ : Type} {t : RewriteThread σ} {har : Option (IdMap Int)}
  {mark : Chunk → Except Abort Chunk}

/-- A flush leaves nothing behind. -/
structure Flushed (t t' : RewriteThread σ) : Prop where
  emits : Emits t t'
  queue : t'.buffer.chunkQueue = []
  counted : t'.buffer.Counted
  locals : t'.locals = t.locals

theorem popAll_effect (hmark : ∀ c, Ensures (fun _ => True) c.OnlyMarked (mark c)) :
    ∀ fuel (t : RewriteThread σ), t.buffer.Counted → t.buffer.chunkQueue.length < fuel →
      Ensures (fun _ => True) (Flushed t) (popAll har mark fuel t) := by
  intro fuel
  induction fuel with
  | zero => exact fun t _ h => absurd h (Nat.not_lt_zero _)
  | succ fuel ih =>
      intro t hb hfuel
      unfold popAll
      apply (rewriteBufferPop_effect har hb).bind
      intro r hr
      obtain ⟨popped, buffer⟩ := r
      cases hr with
      | nothing hnil hnone hsame =>
          simp only at hnone hsame
          subst hnone hsame
          exact ⟨forall₂_onlyMarked_refl _, hnil, hb, rfl⟩
      | chunk c c' queue hqueue hsome hsparse hrest hcounted =>
          simp only at hsome hrest hcounted
          subst hsome
          apply (hmark c').bind
          intro c'' hmarked
          rw [hqueue, List.length_cons] at hfuel
          refine (ih { t with buffer := buffer, rewriteQueue := t.rewriteQueue ++ [c''] } hcounted
            (hrest.symm ▸ Nat.lt_of_succ_lt_succ hfuel)).imp fun t' ht' => ?_
          exact ⟨(Emits.pop hqueue (hsparse.trans hmarked) hrest rfl).trans ht'.emits, ht'.queue,
            ht'.counted, ht'.locals⟩

theorem flush_effect (hmark : ∀ c, Ensures (fun _ => True) c.OnlyMarked (mark c))
    (hb : t.buffer.Counted) : Ensures (fun _ => True) (Flushed t) (flush har mark t) :=
  popAll_effect hmark _ t hb (Nat.lt_succ_self _)

end Flush

section Loop

variable {σ : Type}

/-- What one round of an algorithm may do: it takes a chunk in and passes others on, without
loss; those passed on come in multiples of `unit`; and after a signal less than `n` chunks stay
behind. -/
structure RewriteLoop.Passes (loop : RewriteLoop σ) (n unit : Nat)
    (Inv : RewriteBuffer → σ → Prop) : Prop where
  start : Inv initRewriteBuffer loop.start
  body : ∀ t c, Inv t.buffer t.locals → t.rewriteQueue = [] →
    Ensures (fun _ => True) (fun t' => Inv t'.buffer t'.locals ∧
      List.Forall₂ Chunk.OnlyMarked (t.buffer.chunkQueue ++ [c]) t'.held ∧
      unit ∣ bufferedNum t'.rewriteQueue) (loop.body n t c)
  bound : ∀ b x, Inv b x → ∀ queue c, b.chunkQueue = queue ++ [c] → c.isSignal = true →
    bufferedNum b.chunkQueue < n

theorem bufferedNum_onlyMarked {l l' : List Chunk} (h : List.Forall₂ Chunk.OnlyMarked l l') :
    bufferedNum l' = bufferedNum l := by
  induction h with
  | nil => rfl
  | cons hc _ ih => rw [bufferedNum_cons, bufferedNum_cons, hc.signal_eq, ih]

/-- A push appends to what the thread holds. -/
theorem held_pushed {t : RewriteThread σ} {b : RewriteBuffer} {c : Chunk}
    (hqueue : b.chunkQueue = t.buffer.chunkQueue ++ [c]) :
    ({ t with buffer := b } : RewriteThread σ).held = t.held ++ [c] := by
  unfold RewriteThread.held
  rw [hqueue, List.append_assoc]

/-- A thread that has passed everything on holds its buffer. -/
theorem held_of_nil {t : RewriteThread σ} (ht : t.rewriteQueue = []) :
    t.held = t.buffer.chunkQueue := by
  unfold RewriteThread.held
  rw [ht, List.nil_append]

end Loop

section Algorithms

variable {υ : Type} {cfg : Config} {s : RewriteSettings υ}

theorem cflMark_effect (outOfOrder : Bool) (c : Chunk) :
    Ensures (fun _ => True) c.OnlyMarked (cflMark outOfOrder c) := by
  unfold cflMark
  split
  · exact .refl c
  · split
    · exact (ensures_require (.inr trivial)).bind fun _ _ => markOutOfOrder_onlyMarked c
    · exact .refl c

theorem cflBoundary_effect {t : RewriteThread CflLocals} (c : Chunk) (hb : t.buffer.Counted) :
    Ensures (fun _ => True)
      (fun t' => Emits t t' ∧ t'.buffer.Counted ∧ t'.locals.bufferFull = false ∧
        (t'.buffer.chunkQueue = [] ∨ t' = t))
      (cflBoundary cfg s t c) := by
  unfold cflBoundary
  split
  · unfold cflJudge
    apply (flush_effect (cflMark_effect _) hb).bind
    intro t' ht'
    exact ⟨ht'.emits, ht'.counted, rfl, Or.inl ht'.queue⟩
  · rename_i hopen
    refine ⟨forall₂_onlyMarked_refl _, hb, ?_, Or.inr rfl⟩
    cases hfull : t.locals.bufferFull with
    | false => rfl
    | true => exact absurd (Or.inr hfull) hopen

/-- After a signal `cfl_rewrite` keeps less than a full buffer: a full one is flushed first. -/
theorem cflRewrite_passes (hn : 0 < cfg.rewriteBufferSize) :
    (cflRewrite cfg s).Passes cfg.rewriteBufferSize 1 fun b x =>
      b.Counted ∧ (x.bufferFull = false → b.num < cfg.rewriteBufferSize) ∧
        (x.bufferFull = true → ∀ queue c, b.chunkQueue = queue ++ [c] → c.isSignal = false) where
  start := by
    refine ⟨rfl, fun _ => ?_, fun h => absurd h (by simp [cflRewrite])⟩
    show (0 : Int) < cfg.rewriteBufferSize
    omega
  body := by
    intro t c ⟨hb, hroom, _⟩ ht
    unfold RewriteLoop.body
    refine ((cflBoundary_effect c hb).bind (R := fun t' => Emits t t' ∧ t'.buffer.Counted ∧
      t'.locals.bufferFull = false ∧ t'.buffer.num < cfg.rewriteBufferSize) ?_).bind ?_
    · intro t₁ ⟨hemits, hcounted, hopen, hcase⟩
      refine ⟨hemits, hcounted, hopen, ?_⟩
      rcases hcase with hnil | rfl
      · have hnum : t₁.buffer.num = bufferedNum t₁.buffer.chunkQueue := hcounted
        rw [hnil, bufferedNum_nil] at hnum
        show t₁.buffer.num < _
        omega
      · exact hroom hopen
    · intro t₁ ⟨hemits, hcounted, hopen, hlt⟩
      apply (rewriteBufferPush_effect hcounted).bind
      intro r hr
      have hheld : List.Forall₂ Chunk.OnlyMarked (t.buffer.chunkQueue ++ [c])
          ({ t₁ with buffer := r.2 } : RewriteThread CflLocals).held := by
        rw [held_pushed hr.queue, ← held_of_nil ht]
        exact List.rel_append hemits (forall₂_onlyMarked_refl [c])
      obtain ⟨full, b'⟩ := r
      cases full with
      | true =>
          refine ⟨⟨hr.counted, fun h => absurd h (by simp), fun _ queue c' hqueue => ?_⟩, hheld,
            one_dvd _⟩
          have heq := hr.queue.symm.trans hqueue
          rw [← List.singleton_inj.mp (List.append_inj_right' heq rfl)]
          exact (hr.full rfl).1
      | false =>
          refine ⟨⟨hr.counted, fun _ => ?_, fun h => ?_⟩, hheld, one_dvd _⟩
          · rcases hr.notFull rfl with ⟨_, hsame⟩ | hless
            · exact hsame ▸ hlt
            · exact hless
          · exact absurd (hopen.symm.trans h) (by simp)
  bound := by
    intro b x ⟨hb, hroom, hlast⟩ queue c hqueue hsignal
    have hnum : b.num = bufferedNum b.chunkQueue := hb
    cases hfull : x.bufferFull with
    | true => exact absurd (hlast hfull queue c hqueue) (by simp [hsignal])
    | false =>
        have hlt := hroom hfull
        omega

theorem capMark_effect (top : IdMap ContainerRecord) (c : Chunk) :
    Ensures (fun _ => True) c.OnlyMarked (capMark top c) := by
  obtain ⟨c', hok, hmark⟩ := capMark_spec top c
  rw [hok]
  exact hmark

private theorem bufferedNum_lt_of_num_lt {b : RewriteBuffer} (hb : b.Counted)
    (hroom : b.num < cfg.rewriteBufferSize) :
    bufferedNum b.chunkQueue < cfg.rewriteBufferSize := by
  have hnum : b.num = bufferedNum b.chunkQueue := hb
  omega

theorem capRewrite_passes (hn : 0 < cfg.rewriteBufferSize) :
    (capRewrite cfg s).Passes cfg.rewriteBufferSize cfg.rewriteBufferSize fun b _ =>
      b.Counted ∧ b.num < cfg.rewriteBufferSize where
  start := by
    refine ⟨rfl, ?_⟩
    show (0 : Int) < cfg.rewriteBufferSize
    omega
  body := by
    intro t c ⟨hb, hroom⟩ ht
    apply (rewriteBufferPush_effect hb).bind
    intro r hr
    have hheld := held_pushed hr.queue
    rw [held_of_nil ht] at hheld
    obtain ⟨full, b'⟩ := r
    cases full with
    | true =>
        have hnum : b'.num = cfg.rewriteBufferSize := (hr.full rfl).2
        show Ensures _ _ (capFlush cfg s capMark { t with buffer := b' })
        unfold capFlush
        have hcounted : (capSegmentGetTop s.cappingLevel
          { t with buffer := b' }).buffer.Counted := hr.counted
        apply (flush_effect (capMark_effect _) hcounted).bind
        intro t' ht'
        have hemits : List.Forall₂ Chunk.OnlyMarked (t.buffer.chunkQueue ++ [c]) t'.held := by
          rw [← hheld]
          exact ht'.emits
        have hout : t'.held = t'.rewriteQueue := by
          unfold RewriteThread.held
          rw [ht'.queue, List.append_nil]
        refine ⟨⟨ht'.counted, ?_⟩, hemits, ?_⟩
        · have hzero : t'.buffer.num = bufferedNum t'.buffer.chunkQueue := ht'.counted
          rw [ht'.queue, bufferedNum_nil] at hzero
          show t'.buffer.num < _
          omega
        · have hcount := bufferedNum_onlyMarked hemits
          have hqueue : b'.chunkQueue = t.buffer.chunkQueue ++ [c] := hr.queue
          have hall : b'.num = bufferedNum b'.chunkQueue := hr.counted
          rw [hout, ← hqueue] at hcount
          have heq : bufferedNum t'.rewriteQueue = cfg.rewriteBufferSize := by omega
          exact heq ▸ Nat.dvd_refl _
    | false =>
        refine ⟨⟨hr.counted, ?_⟩, ?_, ?_⟩
        · rcases hr.notFull rfl with ⟨_, hsame⟩ | hless
          · exact hsame ▸ hroom
          · exact hless
        · show List.Forall₂ _ _ (RewriteThread.held { t with buffer := b' })
          rw [hheld]
          exact forall₂_onlyMarked_refl _
        · show _ ∣ bufferedNum t.rewriteQueue
          rw [ht]
          exact Nat.dvd_zero _
  bound := fun _ _ hinv _ _ _ _ => bufferedNum_lt_of_num_lt hinv.1 hinv.2

/-- The signals before the decision chunk leave the count as it is. -/
theorem passSignals_effect (har : Option (IdMap Int)) :
    ∀ fuel (t : RewriteThread (UtilityBuckets υ)), t.buffer.Counted →
      Ensures (fun _ => True)
        (fun r => Emits t r.2 ∧ r.2.buffer.Counted ∧ r.2.buffer.num = t.buffer.num ∧
          r.1.isSignal = false ∧ ∃ queue, r.2.buffer.chunkQueue = r.1 :: queue)
        (passSignals har fuel t) := by
  intro fuel
  induction fuel with
  | zero => exact fun _ _ => trivial
  | succ fuel ih =>
      intro t hb
      unfold passSignals rewriteBufferTop
      cases hqueue : t.buffer.chunkQueue with
      | nil => trivial
      | cons d queue =>
          simp only [List.head?_cons]
          cases hsignal : d.isSignal with
          | false => exact ⟨forall₂_onlyMarked_refl _, hb, rfl, hsignal, queue, hqueue⟩
          | true =>
              rw [if_pos rfl]
              apply (rewriteBufferPop_effect har hb).bind
              intro r hr
              obtain ⟨popped, buffer⟩ := r
              cases hr with
              | nothing hnil => exact absurd (hqueue.symm.trans hnil) (by simp)
              | chunk c c' queue' hqueue' hsome hmark hrest hcounted =>
                  have heq := hqueue.symm.trans hqueue'
                  cases heq
                  have hnum : buffer.num = t.buffer.num := by
                    have h₁ : buffer.num = bufferedNum buffer.chunkQueue := hcounted
                    have h₂ : t.buffer.num = bufferedNum t.buffer.chunkQueue := hb
                    simp only at hrest
                    rw [hqueue, bufferedNum_cons, hsignal] at h₂
                    rw [hrest] at h₁
                    rw [h₁, h₂]
                    simp
                  refine (ih { t with buffer := buffer, rewriteQueue := t.rewriteQueue ++ [d] }
                    hcounted).imp fun r hr => ?_
                  obtain ⟨hemits, hcounted', hnum', hd, hcons⟩ := hr
                  exact ⟨(Emits.pop hqueue (.refl d) hrest rfl).trans hemits, hcounted',
                    hnum'.trans hnum, hd, hcons⟩

/-- A judgement leaves the chunks and their number. -/
theorem cbrJudge_effect (arith : UtilityArith υ) (ub : UtilityBuckets υ) {b : RewriteBuffer}
    {c : Chunk} {queue : List Chunk} (hqueue : b.chunkQueue = c :: queue) :
    Ensures (fun _ => True)
      (fun r => r.2.num = b.num ∧ ∃ c', r.2.chunkQueue = c' :: queue ∧ c.OnlyMarked c')
      (cbrJudge arith ub b c) := by
  unfold cbrJudge
  split
  · exact ⟨rfl, c, hqueue, .refl c⟩
  · apply (ensures_require (.inr trivial)).bind
    intro _ _
    split
    · trivial
    · split
      · cases getRewriteUtility arith b c with
        | error e => trivial
        | ok utility =>
            show Ensures _ _ (if _ then _ else _)
            split
            · exact ⟨rfl, c, hqueue, .refl c⟩
            · refine ⟨?_, markOutOfOrder c, ?_, markOutOfOrder_onlyMarked c⟩
              · show (markTop b).num = b.num
                unfold markTop
                rw [hqueue]
              · show (markTop b).chunkQueue = _
                unfold markTop
                rw [hqueue]
      · exact ⟨rfl, c, hqueue, .refl c⟩

/-- One chunk that is not a signal leaves a full buffer. -/
theorem cbrDecide_effect {t : RewriteThread (UtilityBuckets υ)} (hb : t.buffer.Counted) :
    Ensures (fun _ => True)
      (fun t' => Emits t t' ∧ t'.buffer.Counted ∧ t'.buffer.num = t.buffer.num - 1)
      (cbrDecide cfg s t) := by
  unfold cbrDecide
  apply (passSignals_effect (s.har cfg) _ t hb).bind
  intro r hr
  obtain ⟨d, t₁⟩ := r
  obtain ⟨hemits, hcounted, hnum, hsignal, queue, hqueue⟩ := hr
  simp only at hemits hcounted hnum hsignal hqueue
  apply (cbrJudge_effect s.cbr t₁.locals hqueue).bind
  intro r hr
  obtain ⟨utility, b₂⟩ := r
  obtain ⟨hnum₂, c₂, hqueue₂, hmark₂⟩ := hr
  simp only at hnum₂ hqueue₂
  have hsignal₂ : c₂.isSignal = false := hmark₂.signal_eq.trans hsignal
  have hcounted₂ : b₂.Counted := by
    have h₁ : t₁.buffer.num = bufferedNum t₁.buffer.chunkQueue := hcounted
    show b₂.num = bufferedNum b₂.chunkQueue
    rw [hqueue, bufferedNum_cons, hsignal] at h₁
    rw [hqueue₂, bufferedNum_cons, hsignal₂, hnum₂, h₁]
  apply (rewriteBufferPop_effect (s.har cfg) hcounted₂).bind
  intro r hr
  obtain ⟨popped, b₃⟩ := r
  cases hr with
  | nothing hnil => exact absurd (hqueue₂.symm.trans hnil) (by simp)
  | chunk c c₃ queue₃ hqueue₃ hsome hmark₃ hrest hcounted₃ =>
      have heq := hqueue₂.symm.trans hqueue₃
      cases heq
      simp only at hsome hrest hcounted₃
      subst hsome
      refine ⟨hemits.trans (Emits.pop hqueue (hmark₂.trans hmark₃) hrest rfl), hcounted₃, ?_⟩
      have h₂ : b₂.num = bufferedNum b₂.chunkQueue := hcounted₂
      have h₃ : b₃.num = bufferedNum b₃.chunkQueue := hcounted₃
      rw [hqueue₂, bufferedNum_cons, hsignal₂] at h₂
      rw [hrest] at h₃
      show b₃.num = t.buffer.num - 1
      simp only [Bool.false_eq_true, if_false] at h₂
      omega

/-- `cbr_rewrite` keeps one chunk less than a full buffer. -/
theorem cbrRewrite_passes (hn : 0 < cfg.rewriteBufferSize) :
    (cbrRewrite cfg s).Passes cfg.rewriteBufferSize 1 fun b _ =>
      b.Counted ∧ b.num < cfg.rewriteBufferSize where
  start := by
    refine ⟨rfl, ?_⟩
    show (0 : Int) < cfg.rewriteBufferSize
    omega
  body := by
    intro t c ⟨hb, hroom⟩ ht
    apply (rewriteBufferPush_effect hb).bind
    intro r hr
    have hheld := held_pushed hr.queue
    rw [held_of_nil ht] at hheld
    obtain ⟨full, b'⟩ := r
    cases full with
    | true =>
        show Ensures _ _ (cbrDecide cfg s { t with buffer := b' })
        apply (cbrDecide_effect (t := { t with buffer := b' }) hr.counted).imp
        intro t' ht'
        obtain ⟨hemits, hcounted, hnum⟩ := ht'
        have hsize : b'.num = cfg.rewriteBufferSize := (hr.full rfl).2
        refine ⟨⟨hcounted, ?_⟩, ?_, one_dvd _⟩
        · simp only at hnum
          omega
        · rw [← hheld]
          exact hemits
    | false =>
        refine ⟨⟨hr.counted, ?_⟩, ?_, one_dvd _⟩
        · rcases hr.notFull rfl with ⟨_, hsame⟩ | hless
          · exact hsame ▸ hroom
          · exact hless
        · show List.Forall₂ _ _ (RewriteThread.held { t with buffer := b' })
          rw [hheld]
          exact forall₂_onlyMarked_refl _
  bound := fun _ _ hinv _ _ _ _ => bufferedNum_lt_of_num_lt hinv.1 hinv.2

end Algorithms

end Destor
