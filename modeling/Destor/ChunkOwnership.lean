/- digest: Who owns a chunk between the rewrite thread and the filter thread, and which algorithm
   touches one that the filter thread has freed. -/

import Destor.HandOver

set_option autoImplicit false
set_option relaxedAutoImplicit false

namespace Destor

open Library.Operations Library.Outcome Library.Transition

namespace HandOver

variable {σ : Type}

/-- The next access of the rewrite thread reads or writes a chunk that has been freed. -/
def TouchesFreed (st : HandOver σ) : Prop :=
  ∃ op next addr, st.code = .perform op next ∧ op.target = some addr ∧ st.memory addr = none

end HandOver

/-- The rewrite thread never touches a freed chunk. -/
def RewriteRoutine.KeepsOff {σ : Type} (routine : RewriteRoutine σ) (stream : List Chunk) : Prop :=
  ∀ st, HandOver.Reachable routine stream st → ¬ st.TouchesFreed

/-- `start_rewrite_phase` with the configured algorithm. -/
def KeepsOffFreedChunks {υ : Type} (cfg : Config) (s : RewriteSettings υ) (stream : List Chunk) :
    Prop :=
  match cfg.rewriteAlgorithm with
  | .no => (RewriteCode.noRewrite (s.har cfg)).KeepsOff stream
  | .cflSelectiveDeduplication => (RewriteCode.cflRewrite cfg s).KeepsOff stream
  | .contextBased => (RewriteCode.cbrRewrite cfg s).KeepsOff stream
  | .capping => (RewriteCode.capRewrite cfg s).KeepsOff stream

section Ownership

variable {σ : Type}

/-- A thread accesses the chunks it owns, and owns them until it pushes them. -/
def ownership : Discipline ChunkAccess ChunkAccess.Answer (List Nat) where
  allows owned
    | .load addr => addr ∈ owned
    | .store addr _ => addr ∈ owned
    | .push addr => addr ∈ owned
    | .stop _ => True
  expects _ _ _ := True
  after owned op _ :=
    match op with
    | .push addr => owned.erase addr
    | _ => owned

/-- A program that ends owning what `held` says of its result. -/
abbrev Owns {α : Type} (held : α → List Nat) (owned : List Nat) (code : RewriteCode α) : Prop :=
  Obeys ownership (fun owned a => owned = held a) owned code

/-- Between two chunks, a thread owns what its state says. -/
structure RewriteRoutine.Disciplined (routine : RewriteRoutine σ) (held : σ → List Nat) : Prop where
  start : held routine.start = []
  body : ∀ s addr, Owns held (held s ++ [addr]) (routine.body s addr)
  finish : ∀ s, Owns held (held s) (routine.finish s)

variable {routine : RewriteRoutine σ} {held : σ → List Nat} {stream : List Chunk}
  {st st' : HandOver σ} {mine mine' : List Nat}

namespace HandOver

/-- All chunks that are not freed, by where they are; `mine` are those of the rewrite thread. -/
def all (st : HandOver σ) (mine : List Nat) : List Nat :=
  mine ++ (st.dedupQueue ++ (st.rewriteQueue ++ st.work.held))

/-- The chunks are all in different places, and what is in some place is not freed. -/
structure Separated (held : σ → List Nat) (st : HandOver σ) (mine : List Nat) : Prop where
  code : Owns held mine st.code
  nodup : (st.all mine).Nodup
  live : ∀ addr ∈ st.all mine, st.memory addr ≠ none

/-- Chunks may be moved and freed, as long as no other one is freed. -/
theorem Separated.move (freed : List Nat) (h : Separated held st mine) (hcode : Owns held mine' st'.code)
    (hperm : (st.all mine).Perm (freed ++ st'.all mine'))
    (hmemory : ∀ addr, addr ∉ freed → st'.memory addr = none → st.memory addr = none) :
    Separated held st' mine' := by
  obtain ⟨-, hnodup, hdisjoint⟩ := List.nodup_append.mp (hperm.nodup_iff.mp h.nodup)
  refine ⟨hcode, hnodup, fun addr haddr hnone => ?_⟩
  have hkept : addr ∉ freed := fun hfreed => hdisjoint addr hfreed addr haddr rfl
  exact h.live addr (hperm.mem_iff.mpr (List.mem_append_right freed haddr))
    (hmemory addr hkept hnone)

private theorem perm_pull (l₁ l₂ taken rest : List Nat) :
    (l₁ ++ (l₂ ++ (taken ++ rest))).Perm (taken ++ (l₁ ++ (l₂ ++ rest))) := by
  have hinner : (l₂ ++ (taken ++ rest)).Perm (taken ++ (l₂ ++ rest)) :=
    List.perm_append_comm_assoc l₂ taken rest
  exact (hinner.append_left l₁).trans (List.perm_append_comm_assoc l₁ taken (l₂ ++ rest))

theorem Separated.takes (hroutine : routine.Disciplined held) (h : Separated held st mine)
    (htakes : st.Takes routine st') : ∃ mine', Separated held st' mine' := by
  have hcode := h.code
  cases htakes with
  | wait => exact ⟨mine, h⟩
  | @pop s addr queue heq hqueue =>
      rw [heq] at hcode
      have hmine : mine = held s := hcode
      refine ⟨held s ++ [addr], h.move [] (hroutine.body s addr) ?_ fun _ _ hnone => hnone⟩
      rw [all, hmine, hqueue]
      simp [all]
  | @drain s heq hqueue =>
      rw [heq] at hcode
      have hmine : mine = held s := hcode
      refine ⟨held s, h.move [] (hroutine.finish s) ?_ fun _ _ hnone => hnone⟩
      rw [all, hmine]
      exact .refl _
  | load stray heq =>
      rw [heq] at hcode
      exact ⟨mine, h.move [] (hcode.2 _ trivial) (.refl _) fun _ _ hnone => hnone⟩
  | store heq =>
      rw [heq] at hcode
      exact ⟨mine, h.move [] (hcode.2 _ trivial) (.refl _) fun _ _ => modify_none⟩
  | @push addr next heq hroom =>
      rw [heq] at hcode
      refine ⟨mine.erase addr, h.move [] (hcode.2 _ trivial) ?_ fun _ _ hnone => hnone⟩
      have hmine := List.perm_cons_erase hcode.1
      have hmove := perm_pull (mine.erase addr) (st.dedupQueue ++ st.rewriteQueue) [addr]
        st.work.held
      simp only [List.append_assoc] at hmove
      show (st.all mine).Perm (mine.erase addr ++
        (st.dedupQueue ++ ((st.rewriteQueue ++ [addr]) ++ st.work.held)))
      rw [List.append_assoc st.rewriteQueue]
      exact (hmine.append_right _).trans hmove.symm
  | @collectStart addr queue hwork hqueue =>
      refine ⟨mine, h.move [addr] hcode ?_ fun x hx hnone => ?_⟩
      · rw [all, hwork, hqueue]
        exact perm_pull mine st.dedupQueue [addr] (queue ++ [])
      · rwa [← freeChunks_memory hx]
  | @collectEnd work addr queue hwork hqueue =>
      refine ⟨mine, h.move [addr] hcode ?_ fun x hx hnone => ?_⟩
      · rw [all, hwork, hqueue]
        exact perm_pull mine st.dedupQueue [addr] (queue ++ work)
      · rwa [← freeChunks_memory hx]
  | @collectChunk work addr queue hwork hqueue =>
      refine ⟨mine, h.move [] hcode ?_ fun _ _ hnone => hnone⟩
      rw [all, hwork, hqueue]
      have hmove : (addr :: (queue ++ work)).Perm (queue ++ (work ++ [addr])) := by
        rw [← List.append_assoc]
        exact (List.perm_append_singleton addr (queue ++ work)).symm
      exact (hmove.append_left st.dedupQueue).append_left mine
  | @evaluate work hwork =>
      refine ⟨mine, h.move [] hcode ?_ fun _ _ hnone => hnone⟩
      rw [all, hwork]
      exact .refl _
  | amend hwork hmem =>
      exact ⟨mine, h.move [] hcode (.refl _) fun _ _ => modify_none⟩
  | @free work hwork =>
      refine ⟨mine, h.move work hcode ?_ fun x hx hnone => ?_⟩
      · rw [all, hwork]
        have hmove : (st.rewriteQueue ++ work).Perm (work ++ (st.rewriteQueue ++ [])) := by
          rw [List.append_nil]
          exact List.perm_append_comm
        exact ((hmove.append_left st.dedupQueue).append_left mine).trans
          (perm_pull mine st.dedupQueue work (st.rewriteQueue ++ []))
      · rwa [← freeChunks_memory hx]

theorem separated_initial (hroutine : routine.Disciplined held) (stream : List Chunk) :
    Separated held (initial routine stream) [] := by
  have hall : (initial routine stream).all [] = List.range stream.length := List.append_nil _
  refine ⟨hroutine.start.symm, ?_, fun addr haddr => ?_⟩
  · rw [hall]
    exact List.nodup_range
  · rw [hall] at haddr
    have hlt := List.mem_range.mp haddr
    show stream[addr]? ≠ none
    rw [List.getElem?_eq_getElem hlt]
    exact Option.some_ne_none _

/-- The owner of a chunk does not see it freed. -/
theorem Separated.not_touchesFreed (h : Separated held st mine) : ¬ st.TouchesFreed := by
  rintro ⟨op, next, addr, hcode, htarget, hfreed⟩
  have hallows := h.code
  rw [hcode] at hallows
  have hmine : addr ∈ mine := by
    cases op with
    | load a =>
        cases htarget
        exact hallows.1
    | store a flag =>
        cases htarget
        exact hallows.1
    | push a => cases htarget
    | stop e => cases htarget
  exact h.live addr (List.mem_append_left _ hmine) hfreed

end HandOver

theorem RewriteRoutine.Disciplined.keepsOff (h : routine.Disciplined held) (stream : List Chunk) :
    routine.KeepsOff stream := by
  rintro st ⟨events, hrun⟩
  obtain ⟨mine, hst⟩ := hrun.invariant (fun st => ∃ mine, HandOver.Separated held st mine)
    ⟨[], HandOver.separated_initial h stream⟩ fun st event hst _ =>
      (HandOver.step_takes st event).imp fun st' htakes => by
        obtain ⟨mine, hst⟩ := hst
        exact hst.takes h htakes
  exact hst.not_touchesFreed

end Ownership

namespace RewriteCode

section Discipline

variable {α β : Type} {held : α → List Nat} {owned : List Nat} {addr n : Nat}
  {code : RewriteCode α} {har : Option (IdMap Int)}

/-- A statement that hands nothing over. -/
abbrev Keeps (owned : List Nat) (code : RewriteCode α) : Prop := Owns (fun _ => owned) owned code

theorem owns_bind {held' : β → List Nat} {f : α → RewriteCode β} (h : Owns held owned code)
    (hf : ∀ a, Owns held' (held a) (f a)) : Owns held' owned (code >>= f) := by
  apply Obeys.bind h
  rintro _ a rfl
  exact hf a

/-- The frame rule: a thread may own more. -/
theorem owns_frame (h : Owns held owned code) (rest : List Nat) :
    Owns (fun a => held a ++ rest) (owned ++ rest) code := by
  induction code generalizing owned with
  | done a => exact congrArg (· ++ rest) h
  | perform op next ih =>
      cases op with
      | load addr => exact ⟨List.mem_append_left rest h.1, fun r _ => ih r (h.2 r trivial)⟩
      | store addr flag =>
          exact ⟨List.mem_append_left rest h.1, fun r _ => ih r (h.2 r trivial)⟩
      | push addr =>
          refine ⟨List.mem_append_left rest h.1, fun r _ => ?_⟩
          have hnext : Owns (fun a => held a ++ rest) (owned.erase addr ++ rest) (next r) :=
            ih r (h.2 r trivial)
          rwa [← List.erase_append_left rest h.1] at hnext
      | stop e => exact ⟨trivial, fun r => r.elim⟩

theorem owns_pure {a : α} (h : owned = held a) : Owns held owned (pure a) := h

theorem owns_stop (e : Abort) : Owns held owned (stop e) := ⟨trivial, fun r => r.elim⟩

theorem keeps_load (h : addr ∈ owned) : Keeps owned (load addr) := ⟨h, fun _ _ => rfl⟩

theorem keeps_store (h : addr ∈ owned) (flag : ChunkFlag) : Keeps owned (store addr flag) :=
  ⟨h, fun _ _ => rfl⟩

theorem owns_push (h : addr ∈ owned) : Owns (fun _ => owned.erase addr) owned (push addr) :=
  ⟨h, fun _ _ => rfl⟩

theorem keeps_checkChunk (h : addr ∈ owned) (bit : ChunkFlag → Bool) :
    Keeps owned (checkChunk addr bit) :=
  owns_bind (keeps_load h) fun _ => owns_pure rfl

theorem keeps_checkAny (h : addr ∈ owned) (bits : List (ChunkFlag → Bool)) :
    Keeps owned (checkAny addr bits) := by
  induction bits with
  | nil => exact owns_pure rfl
  | cons bit bits ih =>
      apply owns_bind (keeps_checkChunk h bit)
      intro set
      cases set with
      | true => exact owns_pure rfl
      | false => exact ih

theorem keeps_checkSignal (h : addr ∈ owned) : Keeps owned (checkSignal addr) :=
  keeps_checkAny h _

theorem keeps_setChunk (h : addr ∈ owned) (mark : ChunkFlag → ChunkFlag) :
    Keeps owned (setChunk addr mark) :=
  owns_bind (keeps_load h) fun c => keeps_store h (mark c.flag)

theorem keeps_assert (p : Prop) [Decidable p] (e : Abort) : Keeps owned (assert p e) := by
  rw [assert]
  split
  · exact owns_pure rfl
  · exact owns_stop e

theorem keeps_lift (result : Except Abort α) : Keeps owned (lift result) := by
  cases result with
  | ok a => exact owns_pure rfl
  | error e => exact owns_stop e

theorem keeps_harCheck (h : addr ∈ owned) (inherited : IdMap Int) :
    Keeps owned (harCheck inherited addr) := by
  apply owns_bind (keeps_checkAny h _)
  intro file
  split
  · exact owns_pure rfl
  · apply owns_bind (keeps_checkChunk h _)
    intro duplicate
    split
    · apply owns_bind (keeps_load h)
      intro c
      split
      · apply owns_bind (keeps_setChunk h _)
        intro _
        exact owns_bind (keeps_load h) fun _ => owns_pure rfl
      · exact owns_pure rfl
    · exact owns_pure rfl

theorem keeps_applyHar (h : addr ∈ owned) (har : Option (IdMap Int)) :
    Keeps owned (applyHar har addr) := by
  cases har with
  | none => exact owns_pure rfl
  | some inherited =>
      apply owns_bind (keeps_checkChunk h _)
      intro duplicate
      split
      · exact keeps_harCheck h inherited
      · exact owns_pure rfl

theorem owns_rewriteBufferPush (n : Nat) (b : PointerBuffer) (addr : Nat) :
    Owns (fun r => r.2.chunkQueue) (b.chunkQueue ++ [addr]) (rewriteBufferPush n b addr) := by
  have hmem : addr ∈ b.chunkQueue ++ [addr] := List.mem_append_right _ (List.mem_singleton_self _)
  apply owns_bind (keeps_checkSignal hmem)
  intro signal
  split
  · exact owns_pure rfl
  · apply owns_bind (keeps_load hmem)
    intro c
    apply owns_bind (keeps_lift _)
    intro seq
    exact owns_bind (keeps_assert _ _) fun _ => owns_pure rfl

/-- What is owned around `rewrite_buffer_pop`: it takes the head off the queue. -/
def PopsHead (b : PointerBuffer) (owned : List Nat) (r : Option Nat × PointerBuffer) : Prop :=
  owned = b.chunkQueue ∧ r.1 = b.chunkQueue.head? ∧ r.2.chunkQueue = b.chunkQueue.tail

theorem obeys_rewriteBufferPop (har : Option (IdMap Int)) (b : PointerBuffer) :
    Obeys ownership (PopsHead b) b.chunkQueue (rewriteBufferPop har b) := by
  rw [rewriteBufferPop]
  split
  · rename_i hqueue
    exact ⟨rfl, by rw [hqueue, List.head?_nil], by rw [hqueue, List.tail_nil]⟩
  · rename_i addr queue hqueue
    have hmem : addr ∈ b.chunkQueue := hqueue ▸ List.mem_cons_self
    have hpops : ∀ b', b'.chunkQueue = queue → PopsHead b b.chunkQueue (some addr, b') := by
      intro b' hb'
      exact ⟨rfl, by rw [hqueue, List.head?_cons], by rw [hqueue, List.tail_cons, hb']⟩
    apply Obeys.bind (keeps_checkSignal hmem)
    intro _ signal h
    subst h
    split
    · exact hpops _ rfl
    · apply Obeys.bind (keeps_load hmem)
      intro _ c h
      subst h
      split
      · apply Obeys.bind (keeps_lift _)
        intro _ seq h
        subst h
        apply Obeys.bind (keeps_applyHar hmem har)
        intro _ _ h
        subst h
        exact hpops _ rfl
      · exact hpops _ rfl

def Judges (judge : Nat → RewriteCode Unit) : Prop :=
  ∀ owned addr, addr ∈ owned → Keeps owned (judge addr)

theorem owns_popAll {judge : Nat → RewriteCode Unit} (hjudge : Judges judge) (fuel : Nat)
    (b : PointerBuffer) :
    Owns PointerBuffer.chunkQueue b.chunkQueue (popAll har judge fuel b) := by
  induction fuel generalizing b with
  | zero => exact owns_pure rfl
  | succ fuel ih =>
      apply Obeys.bind (obeys_rewriteBufferPop har b)
      intro _ r hr
      obtain ⟨popped, b'⟩ := r
      obtain ⟨rfl, hpopped, hrest⟩ := hr
      cases hqueue : b.chunkQueue with
      | nil =>
          rw [hqueue] at hpopped hrest
          subst hpopped
          exact owns_pure hrest.symm
      | cons addr queue =>
          rw [hqueue] at hpopped hrest
          subst hpopped
          have hmem : addr ∈ addr :: queue := List.mem_cons_self
          apply owns_bind (hjudge _ addr hmem)
          intro _
          apply owns_bind (owns_push hmem)
          intro _
          have hrest : b'.chunkQueue = queue := hrest
          rw [List.erase_cons_head, ← hrest]
          exact ih b'

theorem owns_flush {judge : Nat → RewriteCode Unit} (hjudge : Judges judge) (b : PointerBuffer) :
    Owns PointerBuffer.chunkQueue b.chunkQueue (flush har judge b) :=
  owns_popAll hjudge _ b

theorem noRewrite_disciplined :
    (noRewrite none).Disciplined fun _ => [] where
  start := rfl
  body _ addr := by
    have hmem : addr ∈ [] ++ [addr] := List.mem_singleton_self addr
    refine owns_bind (owns_push hmem) fun _ => owns_pure ?_
    exact List.erase_cons_head addr []
  finish _ := owns_pure rfl

variable {υ : Type}

theorem judges_cflMark (outOfOrder : Bool) : Judges (cflMark outOfOrder) := by
  intro owned addr h
  apply owns_bind (keeps_checkSignal h)
  intro signal
  split
  · exact owns_pure rfl
  · split
    · apply owns_bind (keeps_load h)
      intro c
      split
      · apply owns_bind (keeps_checkChunk h _)
        intro duplicate
        exact owns_bind (keeps_assert _ _) fun _ => keeps_setChunk h _
      · exact owns_pure rfl
    · exact owns_pure rfl

theorem owns_cflJudge (cfg : Config) (s : RewriteSettings υ) (t : PointerThread CflLocals) :
    Owns PointerThread.held t.held (cflJudge cfg s t) :=
  owns_bind (owns_flush (judges_cflMark _) t.buffer) fun _ => owns_pure rfl

theorem keeps_otherContainer (h : addr ∈ owned) (lastId : Int) :
    Keeps owned (otherContainer lastId addr) := by
  rw [otherContainer]
  split
  · exact owns_bind (keeps_load h) fun c => owns_pure rfl
  · exact owns_pure rfl

theorem cflRewrite_disciplined (cfg : Config) (s : RewriteSettings υ) :
    (cflRewrite cfg s).Disciplined PointerThread.held where
  start := rfl
  body t addr := by
    have hmem : ∀ l : List Nat, addr ∈ l ++ [addr] := fun l =>
      List.mem_append_right l (List.mem_singleton_self addr)
    have hboundary : Owns (fun t' => t'.held ++ [addr]) (t.held ++ [addr])
        (cflBoundary cfg s t addr) := by
      apply owns_bind (keeps_otherContainer (hmem _) t.locals.lastId)
      intro other
      split
      · exact owns_frame (owns_cflJudge cfg s t) [addr]
      · exact owns_pure rfl
    apply owns_bind hboundary
    intro t'
    apply owns_bind (keeps_load (hmem _))
    intro c
    exact owns_bind (owns_rewriteBufferPush _ t'.buffer addr) fun _ => owns_pure rfl
  finish t := owns_cflJudge cfg s t

theorem judges_nothing : Judges fun _ => return () := fun _ _ _ => owns_pure rfl

/-- The decision chunk is at the head of the queue. -/
def Decides (owned : List Nat) (r : Nat × PointerBuffer) : Prop :=
  owned = r.2.chunkQueue ∧ r.2.chunkQueue.head? = some r.1

theorem obeys_passSignals (fuel : Nat) (b : PointerBuffer) :
    Obeys ownership Decides b.chunkQueue (passSignals har fuel b) := by
  induction fuel generalizing b with
  | zero => exact ⟨trivial, fun r => r.elim⟩
  | succ fuel ih =>
      rw [passSignals]
      split
      · exact ⟨trivial, fun r => r.elim⟩
      · rename_i decision hhead
        have hmem : decision ∈ b.chunkQueue := List.mem_of_head? hhead
        apply Obeys.bind (keeps_checkSignal hmem)
        intro _ signal h
        subst h
        split
        · apply Obeys.bind (obeys_rewriteBufferPop har b)
          intro _ r hr
          obtain ⟨popped, b'⟩ := r
          obtain ⟨rfl, -, hrest⟩ := hr
          apply Obeys.bind (owns_push hmem)
          intro _ _ h
          have hrest : b'.chunkQueue = b.chunkQueue.tail := hrest
          have herase : b.chunkQueue.erase decision = b'.chunkQueue := by
            obtain ⟨queue, hqueue⟩ := List.head?_eq_some_iff.mp hhead
            rw [hrest, hqueue, List.erase_cons_head, List.tail_cons]
          rw [h, herase]
          exact ih b'
        · exact ⟨rfl, hhead⟩

theorem owns_cbrJudge (arith : UtilityArith υ) (ub : UtilityBuckets υ) (b : PointerBuffer)
    {decision : Nat} (h : decision ∈ b.chunkQueue) :
    Obeys ownership (fun owned r => owned = b.chunkQueue ∧ r.2.chunkQueue = b.chunkQueue)
      b.chunkQueue (cbrJudge arith ub b decision) := by
  apply Obeys.bind (keeps_load h)
  intro _ c hc
  subst hc
  split
  · exact ⟨rfl, rfl⟩
  · apply Obeys.bind (keeps_checkChunk h _)
    intro _ duplicate hd
    subst hd
    apply Obeys.bind (keeps_assert _ _)
    intro _ _ ha
    subst ha
    apply Obeys.bind (keeps_load h)
    intro _ c hc
    subst hc
    split
    · exact ⟨trivial, fun r => r.elim⟩
    · split
      · apply Obeys.bind (keeps_load h)
        intro _ c hc
        subst hc
        apply Obeys.bind (keeps_lift _)
        intro _ utility hu
        subst hu
        split
        · exact ⟨rfl, rfl⟩
        · apply Obeys.bind (keeps_setChunk h _)
          intro _ _ hs
          exact ⟨hs, rfl⟩
      · exact ⟨rfl, rfl⟩

theorem owns_cbrDecide (cfg : Config) (s : RewriteSettings υ)
    (t : PointerThread (UtilityBuckets υ)) :
    Owns PointerThread.held t.held (cbrDecide cfg s t) := by
  apply Obeys.bind (obeys_passSignals _ t.buffer)
  intro _ r hr
  obtain ⟨decision, b⟩ := r
  obtain ⟨rfl, hhead⟩ := hr
  have hmem : decision ∈ b.chunkQueue := List.mem_of_head? hhead
  apply Obeys.bind (owns_cbrJudge s.cbr t.locals b hmem)
  intro _ r hr
  obtain ⟨utility, b₁⟩ := r
  obtain ⟨rfl, hsame⟩ := hr
  have hsame : b₁.chunkQueue = b.chunkQueue := hsame
  rw [← hsame] at hhead hmem ⊢
  apply Obeys.bind (obeys_rewriteBufferPop _ b₁)
  intro _ r hr
  obtain ⟨popped, b₂⟩ := r
  obtain ⟨rfl, -, hrest⟩ := hr
  refine owns_bind (owns_push hmem) fun _ => owns_pure ?_
  obtain ⟨queue, hqueue⟩ := List.head?_eq_some_iff.mp hhead
  show b₁.chunkQueue.erase decision = b₂.chunkQueue
  rw [hrest, hqueue, List.erase_cons_head, List.tail_cons]

theorem cbrRewrite_disciplined (cfg : Config) (s : RewriteSettings υ) :
    (cbrRewrite cfg s).Disciplined PointerThread.held where
  start := rfl
  body t addr := by
    apply owns_bind (owns_rewriteBufferPush _ t.buffer addr)
    intro r
    obtain ⟨full, b⟩ := r
    cases full with
    | true => exact owns_cbrDecide cfg s { t with buffer := b }
    | false => exact owns_pure rfl
  finish t := owns_bind (owns_flush judges_nothing t.buffer) fun _ => owns_pure rfl

theorem keeps_capTop (h : addr ∈ owned) (top : IdMap ContainerRecord) :
    Keeps owned (capTop top addr) := by
  apply owns_bind (keeps_load h)
  intro c
  split
  · exact keeps_setChunk h _
  · exact owns_pure rfl

theorem judges_capMark (top : IdMap ContainerRecord) : Judges (capMark top) := by
  intro owned addr h
  apply owns_bind (keeps_checkSignal h)
  intro signal
  split
  · exact owns_pure rfl
  · apply owns_bind (keeps_checkChunk h _)
    intro duplicate
    split
    · exact keeps_capTop h top
    · exact owns_pure rfl

theorem judges_capMarkRemaining (top : IdMap ContainerRecord) : Judges (capMarkRemaining top) := by
  intro owned addr h
  apply owns_bind (keeps_checkSignal h)
  intro signal
  split
  · exact owns_pure rfl
  · exact keeps_capTop h top

theorem owns_capFlush (cfg : Config) (s : RewriteSettings υ)
    {mark : IdMap ContainerRecord → Nat → RewriteCode Unit} (hmark : ∀ top, Judges (mark top))
    (t : PointerThread (IdMap ContainerRecord)) :
    Owns PointerThread.held t.held (capFlush cfg s mark t) :=
  owns_bind (owns_flush (hmark _) (capSegmentGetTop s.cappingLevel t).buffer) fun _ =>
    owns_pure rfl

theorem capRewrite_disciplined (cfg : Config) (s : RewriteSettings υ) :
    (capRewrite cfg s).Disciplined PointerThread.held where
  start := rfl
  body t addr := by
    apply owns_bind (owns_rewriteBufferPush _ t.buffer addr)
    intro r
    obtain ⟨full, b⟩ := r
    cases full with
    | true => exact owns_capFlush cfg s judges_capMark { t with buffer := b }
    | false => exact owns_pure rfl
  finish t := owns_capFlush cfg s judges_capMarkRemaining t

end Discipline

end RewriteCode

section Untouched

variable {υ : Type}

/-- Without chunks, `no_rewrite` accesses none. -/
theorem noRewrite_keepsOff_nil (har : Option (IdMap Int)) :
    (RewriteCode.noRewrite har).KeepsOff [] := by
  rintro st ⟨events, hrun⟩
  have hst := hrun.invariant (fun st => st.dedupQueue = [] ∧ ∃ s, st.code = .done s) ⟨rfl, _, rfl⟩
    fun st event hst _ => (HandOver.step_takes st event).imp fun st' htakes => by
      obtain ⟨hqueue, s, hcode⟩ := hst
      cases htakes with
      | pop _ hcons => cases hcons.symm.trans hqueue
      | drain => exact ⟨hqueue, (), rfl⟩
      | load _ hload => cases hload.symm.trans hcode
      | store hstore => cases hstore.symm.trans hcode
      | push hpush => cases hpush.symm.trans hcode
      | _ => exact ⟨hqueue, s, hcode⟩
  rintro ⟨op, next, addr, hcode, -⟩
  obtain ⟨-, s, hdone⟩ := hst
  cases hcode.symm.trans hdone

/-- With history-aware rewriting, `no_rewrite` reads a chunk after it has pushed it: the first one of
a segment may have been freed by then. -/
theorem noRewrite_touchesFreed (inherited : IdMap Int) (rest : List Chunk) :
    ¬ (RewriteCode.noRewrite (some inherited)).KeepsOff (Chunk.segmentStart :: rest) := by
  intro hkeeps
  have hrange : List.range (Chunk.segmentStart :: rest).length =
      0 :: (List.range rest.length).map Nat.succ := List.range_succ_eq_map
  have hpop : HandOver.step (RewriteCode.noRewrite (some inherited))
      (HandOver.initial (RewriteCode.noRewrite (some inherited)) (Chunk.segmentStart :: rest))
      .pop = .ok
        { HandOver.initial (RewriteCode.noRewrite (some inherited))
            (Chunk.segmentStart :: rest) with
          dedupQueue := (List.range rest.length).map Nat.succ
          code := (RewriteCode.noRewrite (some inherited)).body () 0 } := by
    rw [HandOver.step, HandOver.initial, HandOver.pop, hrange]
  have h₁ : Run (HandOver.step (RewriteCode.noRewrite (some inherited))) (fun _ _ => True) _ [.pop]
      _ := Run.nil.snoc trivial hpop
  have h₂ := h₁.after (.access Chunk.segmentStart) trivial rfl
  have h₃ := h₂.after (.collect Chunk.segmentStart) trivial rfl
  exact hkeeps _ ⟨_, h₃⟩ ⟨.load 0, _, 0, rfl, rfl, rfl⟩

/-- The rewrite thread keeps off the chunks that the filter thread has freed, except where
`no_rewrite` checks chunks after it has pushed them. -/
theorem chunks_untouched_iff (cfg : Config) (s : RewriteSettings υ) (segments : List Segment) :
    KeepsOffFreedChunks cfg s (segments.flatMap fun segment => sendSegment segment.chunks) ↔
      cfg.rewriteAlgorithm ≠ .no ∨ cfg.rewriteEnableHar = false ∨ segments = [] := by
  rw [KeepsOffFreedChunks]
  cases halgorithm : cfg.rewriteAlgorithm with
  | no =>
      cases hhar : cfg.rewriteEnableHar with
      | false =>
          rw [RewriteSettings.har, hhar]
          exact iff_of_true (RewriteCode.noRewrite_disciplined.keepsOff _) (.inr (.inl rfl))
      | true =>
          rw [RewriteSettings.har, hhar]
          cases segments with
          | nil =>
              exact iff_of_true (noRewrite_keepsOff_nil _) (.inr (.inr rfl))
          | cons segment rest =>
              apply iff_of_false (noRewrite_touchesFreed s.inheritedSparseContainers _)
              simp
  | cflSelectiveDeduplication =>
      exact iff_of_true ((RewriteCode.cflRewrite_disciplined cfg s).keepsOff _)
        (.inl RewriteAlgorithm.noConfusion)
  | contextBased =>
      exact iff_of_true ((RewriteCode.cbrRewrite_disciplined cfg s).keepsOff _)
        (.inl RewriteAlgorithm.noConfusion)
  | capping =>
      exact iff_of_true ((RewriteCode.capRewrite_disciplined cfg s).keepsOff _)
        (.inl RewriteAlgorithm.noConfusion)

/-- A backup of one file: the first chunk is freed before it is read. -/
theorem segment_start_read_after_free :
    ¬ KeepsOffFreedChunks { smallConfig .exact .physical with rewriteEnableHar := true }
      smallSettings
      (sendSegment [Chunk.fileStart [97], Chunk.normal (.fill 1) 5 [], Chunk.fileEnd]) :=
  noRewrite_touchesFreed _ _

end Untouched

end Destor
