/- digest: Without rewriting, the marks of sparse containers are set after a chunk is handed over, and
   still before the filter thread looks at them. -/

import Destor.HandOver

set_option autoImplicit false
set_option relaxedAutoImplicit false

namespace Destor

open Library.Operations Library.Outcome Library.Transition

section Check

variable {k : Nat} {content : Option Chunk} {α β : Type}

/-- A thread that accesses one chunk only. The state is what the chunk contains, or `none` once it is
freed: then a read finds anything and a write is lost. -/
def tracking (k : Nat) : Discipline ChunkAccess ChunkAccess.Answer (Option Chunk) where
  allows _ op := op.target = some k
  expects content op :=
    match op with
    | .load _ => fun r => ∀ c, content = some c → r = c
    | _ => fun _ => True
  after content op _ :=
    match op with
    | .store _ flag => content.map fun c => { c with flag := flag }
    | _ => content

abbrev Leaves (k : Nat) (f : Chunk → Chunk) (content : Option Chunk) (code : RewriteCode α) : Prop :=
  Obeys (tracking k) (fun content' _ => content' = content.map f) content code

namespace RewriteCode

section HarCheck

variable {inherited : IdMap Int} {c : Chunk}

private theorem harCheck_file
    (h : ([ChunkFlag.fileStart, ChunkFlag.fileEnd].any fun bit => bit c.flag) = true) :
    Destor.harCheck inherited c = c := by
  have hfile : c.flag.fileStart = true ∨ c.flag.fileEnd = true := by simpa using h
  rcases hfile with hstart | hend
  · simp [Destor.harCheck, hstart]
  · simp [Destor.harCheck, hend]

private theorem harCheck_unique (h : c.flag.duplicate = false) :
    Destor.harCheck inherited c = c := by
  simp [Destor.harCheck, h]

private theorem harCheck_other (h : ¬ (inherited.lookup c.id).isSome = true) :
    Destor.harCheck inherited c = c := by
  simp [Destor.harCheck, h]

private theorem harCheck_sparse
    (hfile : ([ChunkFlag.fileStart, ChunkFlag.fileEnd].any fun bit => bit c.flag) = false)
    (hdup : c.flag.duplicate = true) (h : (inherited.lookup c.id).isSome = true) :
    Destor.harCheck inherited c = { c with flag := { c.flag with sparse := true } } := by
  have hnormal : c.flag.fileStart = false ∧ c.flag.fileEnd = false := by simpa using hfile
  simp [Destor.harCheck, hnormal, hdup, h]

end HarCheck

abbrev Finds (k : Nat) (f : Chunk → α) (content : Option Chunk) (code : RewriteCode α) : Prop :=
  Obeys (tracking k) (fun content' a => content' = content ∧ ∀ c, content = some c → a = f c)
    content code

theorem finds_load : Finds k id content (load k) := ⟨rfl, fun _ hr => ⟨rfl, hr⟩⟩

theorem finds_checkChunk (bit : ChunkFlag → Bool) :
    Finds k (fun c => bit c.flag) content (checkChunk k bit) :=
  ⟨rfl, fun _ hr => ⟨rfl, fun c hc => congrArg (fun c : Chunk => bit c.flag) (hr c hc)⟩⟩

theorem finds_checkAny (bits : List (ChunkFlag → Bool)) :
    Finds k (fun c => bits.any fun bit => bit c.flag) content (checkAny k bits) := by
  induction bits with
  | nil => exact ⟨rfl, fun c _ => rfl⟩
  | cons bit bits ih =>
      apply Obeys.bind (finds_checkChunk bit)
      intro _ set hset
      obtain ⟨rfl, hset⟩ := hset
      cases set with
      | true =>
          refine ⟨rfl, fun c hc => ?_⟩
          have hbit : bit c.flag = true := (hset c hc).symm
          simp [hbit]
      | false =>
          refine Obeys.mono ih fun _ any hany => ⟨hany.1, fun c hc => ?_⟩
          have hbit : bit c.flag = false := (hset c hc).symm
          rw [hany.2 c hc]
          simp [hbit]

theorem leaves_setChunk (mark : ChunkFlag → ChunkFlag) :
    Leaves k (fun c => { c with flag := mark c.flag }) content (setChunk k mark) := by
  apply Obeys.bind finds_load
  intro _ c hc
  obtain ⟨rfl, hc⟩ := hc
  refine ⟨rfl, fun _ _ => ?_⟩
  apply Option.map_congr
  intro c' hc'
  rw [hc c' hc']
  rfl

private theorem eq_map {f : Chunk → Chunk} (h : ∀ c, content = some c → f c = c) :
    content = content.map f := by
  cases content with
  | none => rfl
  | some c => rw [Option.map_some, h c rfl]

theorem leaves_harCheck (inherited : IdMap Int) :
    Leaves k (Destor.harCheck inherited) content (harCheck inherited k) := by
  apply Obeys.bind (finds_checkAny _)
  intro _ file hfile
  obtain ⟨rfl, hfile⟩ := hfile
  cases file with
  | true => exact eq_map fun c hc => harCheck_file (hfile c hc).symm
  | false =>
      apply Obeys.bind (finds_checkChunk _)
      intro _ duplicate hdup
      obtain ⟨rfl, hdup⟩ := hdup
      cases duplicate with
      | false => exact eq_map fun c hc => harCheck_unique (hdup c hc).symm
      | true =>
          apply Obeys.bind finds_load
          intro _ r hr
          obtain ⟨rfl, hr⟩ := hr
          split
          · rename_i hsparse
            apply Obeys.bind (leaves_setChunk _)
            intro _ _ hset
            apply Obeys.bind finds_load
            intro _ _ hload
            obtain ⟨rfl, -⟩ := hload
            show _ = _
            rw [hset]
            apply Option.map_congr
            intro c hc
            rw [hr c hc] at hsparse
            exact (harCheck_sparse (hfile c hc).symm (hdup c hc).symm hsparse).symm
          · rename_i hother
            apply eq_map
            intro c hc
            rw [hr c hc] at hother
            exact harCheck_other hother

theorem leaves_applyHar (har : Option (IdMap Int)) :
    Leaves k (Destor.applyHar har) content (applyHar har k) := by
  cases har with
  | none => exact eq_map fun c _ => rfl
  | some inherited =>
      apply Obeys.bind (finds_checkChunk _)
      intro _ duplicate hdup
      obtain ⟨rfl, hdup⟩ := hdup
      cases duplicate with
      | false => exact eq_map fun c hc => if_neg (Bool.eq_false_iff.mp (hdup c hc).symm)
      | true =>
          apply Obeys.mono (leaves_harCheck inherited)
          intro content' _ hmap
          rw [hmap]
          apply Option.map_congr
          intro c hc
          exact (if_pos (hdup c hc).symm).symm

end RewriteCode

end Check

section Marking

variable {inherited : IdMap Int} {stream : List Chunk} {memory memory' : Nat → Option Chunk}
  {code : RewriteCode Unit} {popped settled pushed taken : Nat} {st st' : HandOver Unit}

/-- Where `no_rewrite` is: between two chunks, before the push of a chunk, or in its check, which
leaves the chunk as it should, and accesses nothing else if the chunk is freed. The chunks before
`settled` are finished. -/
inductive NoRewriteAt (inherited : IdMap Int) (stream : List Chunk) (memory : Nat → Option Chunk) :
    RewriteCode Unit → Nat → Nat → Nat → Prop
  | between (k : Nat) : NoRewriteAt inherited stream memory (.done ()) k k k
  | unpushed (k : Nat) :
      NoRewriteAt inherited stream memory ((RewriteCode.noRewrite (some inherited)).body () k)
        (k + 1) k k
  | checking {k : Nat} {code : RewriteCode Unit}
      (hfreed : Obeys (tracking k) (fun content _ => content = none) none code)
      (hcheck : ∀ c, memory k = some c → ∀ sent, stream[k]? = some sent →
        Obeys (tracking k) (fun content _ => content = some (applyHar (some inherited) sent))
          (some c) code) :
      NoRewriteAt inherited stream memory code (k + 1) k (k + 1)

theorem NoRewriteAt.bounds (h : NoRewriteAt inherited stream memory code popped settled pushed) :
    settled ≤ pushed ∧ pushed ≤ popped ∧ popped ≤ settled + 1 := by
  cases h with
  | between => omega
  | unpushed => omega
  | checking => omega

/-- The check only depends on the chunk that is checked. -/
theorem NoRewriteAt.of_memory (h : NoRewriteAt inherited stream memory code popped settled pushed)
    (hmemory : settled < pushed → ∀ c, memory' settled = some c → memory settled = some c) :
    NoRewriteAt inherited stream memory' code popped settled pushed := by
  cases h with
  | between => exact .between _
  | unpushed => exact .unpushed _
  | checking hfreed hcheck =>
      exact .checking hfreed fun c hc => hcheck c (hmemory (Nat.lt_succ_self _) c hc)

/-- What the filter thread leaves of a checked chunk while it processes the segment. -/
def SameMark (c c' : Chunk) : Prop :=
  c'.flag.sparse = c.flag.sparse ∧ c'.flag.duplicate = c.flag.duplicate ∧ c'.isNormal = c.isNormal

/-- A chunk is in the queue of its place, and is checked before the next one is pushed; so every
chunk before the last one that the filter thread has taken is checked. -/
structure Marking (inherited : IdMap Int) (stream : List Chunk) (st : HandOver Unit)
    (popped settled pushed taken : Nat) : Prop where
  code : NoRewriteAt inherited stream st.memory st.code popped settled pushed
  dedupQueue : st.dedupQueue = List.range' popped (stream.length - popped)
  popped_le : popped ≤ stream.length
  rewriteQueue : st.rewriteQueue = List.range' taken (pushed - taken)
  taken_le : taken ≤ pushed
  collected : ∀ addr ∈ st.work.held, addr < taken
  closed : ∀ held, st.work = .complete held ∨ st.work = .evaluating held →
    ∀ addr ∈ held, addr + 1 < taken
  live : ∀ addr, taken ≤ addr ∧ addr < stream.length ∨ addr ∈ st.work.held →
    st.memory addr ≠ none
  unchecked : ∀ addr c, pushed ≤ addr → st.memory addr = some c → stream[addr]? = some c
  checked : ∀ addr c sent, addr < settled → (∀ held, st.work = .evaluating held → addr ∉ held) →
    st.memory addr = some c → stream[addr]? = some sent → c = applyHar (some inherited) sent
  amended : ∀ held, st.work = .evaluating held → ∀ addr ∈ held, ∀ c sent,
    st.memory addr = some c → stream[addr]? = some sent →
      SameMark (applyHar (some inherited) sent) c

theorem marking_initial :
    Marking inherited stream (HandOver.initial (RewriteCode.noRewrite (some inherited)) stream)
      0 0 0 0 where
  code := .between 0
  dedupQueue := List.range_eq_range'
  popped_le := Nat.zero_le _
  rewriteQueue := rfl
  taken_le := Nat.le_refl 0
  collected addr h := absurd h List.not_mem_nil
  closed held h := by rcases h with h | h <;> cases h
  live addr h := by
    rcases h with ⟨-, hlt⟩ | hmem
    · show stream[addr]? ≠ none
      rw [List.getElem?_eq_getElem hlt]
      exact Option.some_ne_none _
    · exact absurd hmem List.not_mem_nil
  unchecked addr c _ h := h
  checked addr c sent h := absurd h (Nat.not_lt_zero addr)
  amended held h := by cases h

/-- A check that has ended leaves the chunk finished. -/
theorem Marking.settle (h : Marking inherited stream st popped settled pushed taken)
    (hdone : st.code = .done ()) : Marking inherited stream st popped popped popped taken := by
  have hcode := h.code
  rw [hdone] at hcode
  cases hcode with
  | between => exact h
  | @checking k code hfreed hcheck =>
      have hbetween : NoRewriteAt inherited stream st.memory st.code (settled + 1) (settled + 1)
          (settled + 1) := hdone ▸ .between _
      refine { h with code := hbetween, checked := ?_ }
      intro addr c sent hlt hheld hc hsent
      by_cases hlast : addr = settled
      · subst hlast
        exact Option.some.inj (hcheck c hc sent hsent)
      · exact h.checked addr c sent (by omega) hheld hc hsent

theorem Marking.pop (h : Marking inherited stream st popped settled pushed taken) {addr : Nat}
    {queue : List Nat} (hcode : st.code = .done ()) (hqueue : st.dedupQueue = addr :: queue) :
    Marking inherited stream
      { st with
        dedupQueue := queue
        code := (RewriteCode.noRewrite (some inherited)).body () addr }
      (popped + 1) popped popped taken := by
  have hsettled := h.settle hcode
  have hfirst := hqueue
  rw [h.dedupQueue] at hfirst
  obtain ⟨rfl, hpos, hrest⟩ := List.range'_eq_cons_iff.mp hfirst
  refine { hsettled with code := .unpushed popped, dedupQueue := ?_, popped_le := by omega }
  exact hrest.trans (congrArg (List.range' (popped + 1)) (Nat.sub_sub _ _ _))

theorem Marking.load (h : Marking inherited stream st popped settled pushed taken) {addr : Nat}
    {next : Chunk → RewriteCode Unit} (stray : Chunk)
    (hcode : st.code = .perform (.load addr) next) :
    Marking inherited stream { st with code := next (st.read stray addr) }
      popped settled pushed taken := by
  refine { h with code := ?_ }
  have hat := h.code
  rw [hcode] at hat
  cases hat with
  | checking hfreed hcheck =>
      have htarget : addr = settled := Option.some.inj hfreed.1
      subst htarget
      refine .checking (hfreed.2 _ fun c hc => by cases hc) fun c hc sent hsent => ?_
      apply (hcheck c hc sent hsent).2 _
      intro c' hc'
      cases hc'
      show (st.memory addr).getD stray = c
      rw [hc, Option.getD_some]

theorem Marking.store (h : Marking inherited stream st popped settled pushed taken) {addr : Nat}
    {flag : ChunkFlag} {next : Unit → RewriteCode Unit}
    (hcode : st.code = .perform (.store addr flag) next) :
    Marking inherited stream
      { st.modify addr (fun c => { c with flag := flag }) with code := next () }
      popped settled pushed taken := by
  have hat := h.code
  rw [hcode] at hat
  cases hat with
  | checking hfreed hcheck =>
      have htarget : addr = settled := Option.some.inj hfreed.1
      subst htarget
      have hother : ∀ x, x ≠ addr →
          (st.modify addr fun c => { c with flag := flag }).memory x = st.memory x :=
        fun x hx => (HandOver.modify_memory addr _ x).trans (if_neg hx)
      constructor
      · refine .checking (hfreed.2 () trivial) fun c hc sent hsent => ?_
        have hmap : (st.memory addr).map (fun c => { c with flag := flag }) = some c :=
          ((HandOver.modify_memory addr _ addr).trans (if_pos rfl)).symm.trans hc
        obtain ⟨c₀, hc₀, rfl⟩ := Option.map_eq_some_iff.mp hmap
        exact (hcheck c₀ hc₀ sent hsent).2 () trivial
      · exact h.dedupQueue
      · exact h.popped_le
      · exact h.rewriteQueue
      · exact h.taken_le
      · exact h.collected
      · exact h.closed
      · exact fun x hx hnone => h.live x hx (HandOver.modify_none hnone)
      · intro x c hx hc
        exact h.unchecked x c hx ((hother x (by omega)).symm.trans hc)
      · intro x c sent hx hheld hc hsent
        exact h.checked x c sent hx hheld ((hother x (by omega)).symm.trans hc) hsent
      · intro held hheld x hx c sent hc hsent
        have hclosed := h.closed held (.inr hheld) x hx
        have htaken := h.taken_le
        exact h.amended held hheld x hx c sent ((hother x (by omega)).symm.trans hc) hsent

theorem Marking.push (h : Marking inherited stream st popped settled pushed taken) {addr : Nat}
    {next : Unit → RewriteCode Unit} (hcode : st.code = .perform (.push addr) next) :
    Marking inherited stream
      { st with code := next (), rewriteQueue := st.rewriteQueue ++ [addr] }
      popped settled (pushed + 1) taken := by
  have hat := h.code
  rw [hcode] at hat
  cases hat with
  | unpushed =>
      have htaken := h.taken_le
      refine { h with code := ?_, rewriteQueue := ?_, taken_le := by omega, unchecked := ?_ }
      · have hleaves : ∀ content, Leaves settled (applyHar (some inherited)) content
            (RewriteCode.applyHar (some inherited) settled) :=
          fun _ => RewriteCode.leaves_applyHar (some inherited)
        refine .checking (hleaves none) fun c hc sent hsent => ?_
        have hsame := Option.some.inj
          ((h.unchecked settled c (Nat.le_refl _) hc).symm.trans hsent)
        subst hsame
        exact hleaves (some c)
      · show st.rewriteQueue ++ [_] = _
        rw [h.rewriteQueue, Nat.succ_sub htaken, List.range'_concat, Nat.one_mul,
          Nat.add_sub_of_le htaken]
      · exact fun x c hx hc => h.unchecked x c (by omega) hc
  | checking hfreed hcheck =>
      have htarget : (none : Option Nat) = some settled := hfreed.1
      cases htarget

/-- The filter thread takes the next chunk of its queue. -/
theorem Marking.next (h : Marking inherited stream st popped settled pushed taken) {addr : Nat}
    {queue : List Nat} (hqueue : st.rewriteQueue = addr :: queue) :
    addr = taken ∧ taken < pushed ∧ queue = List.range' (taken + 1) (pushed - (taken + 1)) := by
  rw [h.rewriteQueue] at hqueue
  obtain ⟨rfl, hpos, hrest⟩ := List.range'_eq_cons_iff.mp hqueue
  exact ⟨rfl, by omega, hrest.trans (congrArg (List.range' (taken + 1)) (Nat.sub_sub _ _ _))⟩

theorem freeChunks_some {addrs : List Nat} {x : Nat} {c : Chunk}
    (h : (st.freeChunks addrs).memory x = some c) : x ∉ addrs ∧ st.memory x = some c := by
  by_cases hx : x ∈ addrs
  · have hnone : (none : Option Chunk) = some c := (if_pos hx).symm.trans h
    cases hnone
  · exact ⟨hx, (HandOver.freeChunks_memory hx).symm.trans h⟩

theorem Marking.collectBoundary (h : Marking inherited stream st popped settled pushed taken)
    {addr : Nat} {queue held : List Nat} (work : SegmentWork)
    (hqueue : st.rewriteQueue = addr :: queue) (hsame : st.work.held = held)
    (hheld : work.held = held) (hwork : ∀ l, st.work ≠ .evaluating l)
    (hwork' : ∀ l, work = .evaluating l → False)
    (hcomplete : ∀ l, work = .complete l → l = held) :
    Marking inherited stream { st.freeChunks [addr] with work := work, rewriteQueue := queue }
      popped settled pushed (taken + 1) := by
  obtain ⟨rfl, hlt, hrest⟩ := h.next hqueue
  have hcollected : ∀ x ∈ held, x < addr := hsame ▸ h.collected
  constructor
  · exact h.code.of_memory fun _ c hc => (freeChunks_some hc).2
  · exact h.dedupQueue
  · exact h.popped_le
  · exact hrest
  · exact hlt
  · intro x hx
    exact Nat.lt_succ_of_lt (hcollected x (hheld ▸ hx))
  · rintro l (hl | hl) x hx
    · rw [hcomplete l hl] at hx
      exact Nat.succ_lt_succ (hcollected x hx)
    · exact (hwork' l hl).elim
  · intro x hx hnone
    have hne : x ∉ [addr] := by
      rw [List.mem_singleton]
      rcases hx with ⟨hle, -⟩ | hx
      · omega
      · exact Nat.ne_of_lt (hcollected x (hheld ▸ hx))
    refine h.live x ?_ ((HandOver.freeChunks_memory hne).symm.trans hnone)
    rcases hx with ⟨hle, hlen⟩ | hx
    · exact .inl ⟨by omega, hlen⟩
    · exact .inr (hsame ▸ hheld ▸ hx)
  · exact fun x c hx hc => h.unchecked x c hx (freeChunks_some hc).2
  · exact fun x c sent hx _ hc hsent => h.checked x c sent hx
      (fun l hl => absurd hl (hwork l)) (freeChunks_some hc).2 hsent
  · exact fun l hl => (hwork' l hl).elim

theorem Marking.collectChunk (h : Marking inherited stream st popped settled pushed taken)
    {addr : Nat} {queue held : List Nat} (hwork : st.work = .collecting held)
    (hqueue : st.rewriteQueue = addr :: queue) :
    Marking inherited stream
      { st with work := .collecting (held ++ [addr]), rewriteQueue := queue }
      popped settled pushed (taken + 1) := by
  obtain ⟨rfl, hlt, hrest⟩ := h.next hqueue
  have hheld : st.work.held = held := by rw [hwork, SegmentWork.held]
  have hpopped := h.code.bounds
  have hlen := h.popped_le
  constructor
  · exact h.code
  · exact h.dedupQueue
  · exact h.popped_le
  · exact hrest
  · exact hlt
  · intro x hx
    rcases List.mem_append.mp hx with hx | hx
    · exact Nat.lt_succ_of_lt (h.collected x (hheld ▸ hx))
    · rw [List.mem_singleton.mp hx]
      exact Nat.lt_succ_self _
  · rintro l (hl | hl)
    · cases hl
    · cases hl
  · rintro x (⟨hle, hx⟩ | hx)
    · exact h.live x (.inl ⟨by omega, hx⟩)
    · rcases List.mem_append.mp hx with hx | hx
      · exact h.live x (.inr (hheld ▸ hx))
      · rw [List.mem_singleton.mp hx]
        exact h.live addr (.inl ⟨Nat.le_refl _, by omega⟩)
  · exact h.unchecked
  · intro x c sent hx _ hc hsent
    refine h.checked x c sent hx (fun l hl => ?_) hc hsent
    rw [hwork] at hl
    cases hl
  · intro l hl
    cases hl

/-- The filter thread finds every mark when it starts to look for them. -/
theorem Marking.evaluate (h : Marking inherited stream st popped settled pushed taken)
    {held : List Nat} (hwork : st.work = .complete held) :
    Marking inherited stream { st with work := .evaluating held } popped settled pushed taken := by
  have hheld : st.work.held = held := by rw [hwork, SegmentWork.held]
  have hpopped := h.code.bounds
  have htaken := h.taken_le
  have hchecked : ∀ x c sent, x < settled → st.memory x = some c → stream[x]? = some sent →
      c = applyHar (some inherited) sent := by
    intro x c sent hx hc hsent
    refine h.checked x c sent hx (fun l hl => ?_) hc hsent
    rw [hwork] at hl
    cases hl
  constructor
  · exact h.code
  · exact h.dedupQueue
  · exact h.popped_le
  · exact h.rewriteQueue
  · exact h.taken_le
  · exact fun x hx => h.collected x (hheld ▸ hx)
  · rintro l (hl | hl) x hx
    · cases hl
    · cases hl
      exact h.closed _ (.inl hwork) x hx
  · exact fun x hx => h.live x (hx.imp_right fun hx => hheld ▸ hx)
  · exact h.unchecked
  · exact fun x c sent hx _ => hchecked x c sent hx
  · intro l hl x hx c sent hc hsent
    cases hl
    have hclosed := h.closed _ (.inl hwork) x hx
    rw [hchecked x c sent (by omega) hc hsent]
    exact ⟨rfl, rfl, rfl⟩

theorem Marking.amend (h : Marking inherited stream st popped settled pushed taken)
    {held : List Nat} {addr : Nat} (id : Int) (inCache rewriteDenied : Bool)
    (hwork : st.work = .evaluating held) (hmem : addr ∈ held) :
    Marking inherited stream (st.modify addr (amendChunk id inCache rewriteDenied))
      popped settled pushed taken := by
  have hpopped := h.code.bounds
  have htaken := h.taken_le
  have hclosed := h.closed held (.inr hwork) addr hmem
  have hother : ∀ x, x ≠ addr →
      (st.modify addr (amendChunk id inCache rewriteDenied)).memory x = st.memory x :=
    fun x hx => (HandOver.modify_memory addr _ x).trans (if_neg hx)
  constructor
  · exact h.code.of_memory fun _ c hc => (hother settled (by omega)).symm.trans hc
  · exact h.dedupQueue
  · exact h.popped_le
  · exact h.rewriteQueue
  · exact h.taken_le
  · exact h.collected
  · exact h.closed
  · exact fun x hx hnone => h.live x hx (HandOver.modify_none hnone)
  · exact fun x c hx hc => h.unchecked x c hx ((hother x (by omega)).symm.trans hc)
  · intro x c sent hx hheld hc hsent
    have hne : x ≠ addr := fun heq => hheld held hwork (heq ▸ hmem)
    exact h.checked x c sent hx hheld ((hother x hne).symm.trans hc) hsent
  · intro l hl x hx c sent hc hsent
    by_cases hne : x = addr
    · subst hne
      have hmap : (st.memory x).map (amendChunk id inCache rewriteDenied) = some c :=
        ((HandOver.modify_memory x _ x).trans (if_pos rfl)).symm.trans hc
      obtain ⟨c₀, hc₀, rfl⟩ := Option.map_eq_some_iff.mp hmap
      exact h.amended l hl x hx c₀ sent hc₀ hsent
    · exact h.amended l hl x hx c sent ((hother x hne).symm.trans hc) hsent

theorem Marking.free (h : Marking inherited stream st popped settled pushed taken)
    {held : List Nat} (hwork : st.work = .evaluating held) :
    Marking inherited stream { st.freeChunks held with work := .idle }
      popped settled pushed taken := by
  have hheld : st.work.held = held := by rw [hwork, SegmentWork.held]
  constructor
  · exact h.code.of_memory fun _ c hc => (freeChunks_some hc).2
  · exact h.dedupQueue
  · exact h.popped_le
  · exact h.rewriteQueue
  · exact h.taken_le
  · exact fun x hx => absurd hx List.not_mem_nil
  · rintro l (hl | hl)
    · cases hl
    · cases hl
  · rintro x (⟨hle, hx⟩ | hx) hnone
    · have hne : x ∉ held := fun hmem =>
        Nat.lt_irrefl x (Nat.lt_of_lt_of_le (h.collected x (hheld ▸ hmem)) hle)
      exact h.live x (.inl ⟨hle, hx⟩) ((HandOver.freeChunks_memory hne).symm.trans hnone)
    · exact absurd hx List.not_mem_nil
  · exact fun x c hx hc => h.unchecked x c hx (freeChunks_some hc).2
  · intro x c sent hx _ hc hsent
    obtain ⟨hne, hc⟩ := freeChunks_some hc
    refine h.checked x c sent hx (fun l hl hmem => ?_) hc hsent
    rw [hwork] at hl
    cases hl
    exact hne hmem
  · intro l hl
    cases hl

theorem Marking.takes (h : Marking inherited stream st popped settled pushed taken)
    (htakes : st.Takes (RewriteCode.noRewrite (some inherited)) st') :
    ∃ popped settled pushed taken, Marking inherited stream st' popped settled pushed taken := by
  cases htakes with
  | wait => exact ⟨_, _, _, _, h⟩
  | pop hcode hqueue => exact ⟨_, _, _, _, h.pop hcode hqueue⟩
  | drain hcode hqueue =>
      have hsettled := h.settle hcode
      have hbetween := hsettled.code
      rw [hcode] at hbetween
      exact ⟨_, _, _, _, { hsettled with code := hbetween }⟩
  | load stray hcode => exact ⟨_, _, _, _, h.load stray hcode⟩
  | store hcode => exact ⟨_, _, _, _, h.store hcode⟩
  | push hcode hroom => exact ⟨_, _, _, _, h.push hcode⟩
  | collectStart hwork hqueue =>
      refine ⟨_, _, _, _, h.collectBoundary _ hqueue
        (congrArg SegmentWork.held hwork) rfl ?_ ?_ ?_⟩
      · simp [hwork]
      · intro l hl
        cases hl
      · intro l hl
        cases hl
  | collectEnd hwork hqueue =>
      refine ⟨_, _, _, _, h.collectBoundary _ hqueue
        (congrArg SegmentWork.held hwork) rfl ?_ ?_ ?_⟩
      · simp [hwork]
      · intro l hl
        cases hl
      · intro l hl
        cases hl
        rfl
  | collectChunk hwork hqueue => exact ⟨_, _, _, _, h.collectChunk hwork hqueue⟩
  | evaluate hwork => exact ⟨_, _, _, _, h.evaluate hwork⟩
  | amend hwork hmem => exact ⟨_, _, _, _, h.amend _ _ _ hwork hmem⟩
  | free hwork => exact ⟨_, _, _, _, h.free hwork⟩

/-- A check marks the duplicates in inherited sparse containers. -/
theorem applyHar_sparse_iff {c : Chunk} (hunmarked : c.flag.sparse = false)
    (hnormal : c.isNormal = true) :
    (applyHar (some inherited) c).flag.sparse = true ↔
      c.flag.duplicate = true ∧ (inherited.lookup c.id).isSome = true := by
  have hfile : (!c.flag.fileStart && !c.flag.fileEnd) = true := hnormal
  cases hdup : c.flag.duplicate with
  | false => simp [applyHar, hdup, hunmarked]
  | true =>
      cases hlookup : (inherited.lookup c.id).isSome with
      | false => simp [applyHar, harCheck, hdup, hlookup, hunmarked]
      | true => simp [applyHar, harCheck, hdup, hlookup, hfile]

/-- A chunk of a complete segment is in memory, and checked. -/
theorem Marking.held_chunk (h : Marking inherited stream st popped settled pushed taken)
    {addr : Nat} (hheld : addr ∈ st.work.held) (hclosed : addr + 1 < taken) :
    ∃ sent c, stream[addr]? = some sent ∧ st.memory addr = some c ∧ addr < settled := by
  have hpopped := h.code.bounds
  have htaken := h.taken_le
  have hlen := h.popped_le
  have hlt : addr < stream.length := by omega
  obtain ⟨c, hc⟩ := Option.ne_none_iff_exists'.mp (h.live addr (.inr hheld))
  exact ⟨stream[addr], c, List.getElem?_eq_getElem hlt, hc, by omega⟩

variable {υ : Type}

/-- Although `no_rewrite` checks a chunk after it has handed it over, the chunk carries the mark of
its container once the filter thread has popped the end of its segment, and as long as the filter
thread processes the segment. -/
theorem har_marks_in_time (cfg : Config) (s : RewriteSettings υ)
    (hhar : cfg.rewriteEnableHar = true) (hunmarked : ∀ c ∈ stream, c.flag.sparse = false)
    (h : HandOver.Reachable (RewriteCode.noRewrite (s.har cfg)) stream st) :
    (∀ held, st.work = .complete held → ∀ addr ∈ held, ∃ c, st.memory addr = some c ∧
      (c.isNormal = true → (c.flag.sparse = true ↔
        c.flag.duplicate = true ∧ (s.inheritedSparseContainers.lookup c.id).isSome = true))) ∧
    ∀ held, st.work = .evaluating held → ∀ addr ∈ held, ∃ sent c,
      stream[addr]? = some sent ∧ st.memory addr = some c ∧
      (c.isNormal = true → (c.flag.sparse = true ↔
        c.flag.duplicate = true ∧ (s.inheritedSparseContainers.lookup sent.id).isSome = true)) := by
  rw [RewriteSettings.har, hhar] at h
  obtain ⟨events, hrun⟩ := h
  obtain ⟨popped, settled, pushed, taken, hmarking⟩ := hrun.invariant
    (fun st => ∃ popped settled pushed taken,
      Marking s.inheritedSparseContainers stream st popped settled pushed taken)
    ⟨_, _, _, _, marking_initial⟩ fun st event hst _ =>
      (HandOver.step_takes st event).imp fun st' htakes => by
        obtain ⟨_, _, _, _, hst⟩ := hst
        exact hst.takes htakes
  refine ⟨fun held hwork addr hmem => ?_, fun held hwork addr hmem => ?_⟩
  · have hheld : addr ∈ st.work.held := by rwa [hwork]
    obtain ⟨sent, c, hsent, hc, hlt⟩ :=
      hmarking.held_chunk hheld (hmarking.closed held (.inl hwork) addr hmem)
    have hmarked := hmarking.checked addr c sent hlt
      (fun l hl => by rw [hwork] at hl; cases hl) hc hsent
    have honly := applyHar_onlyMarked (some s.inheritedSparseContainers) sent
    refine ⟨c, hc, fun hnormal => ?_⟩
    subst hmarked
    rw [honly.duplicate_eq, honly.id_eq]
    exact applyHar_sparse_iff (hunmarked sent (List.mem_of_getElem? hsent))
      (honly.isNormal_eq ▸ hnormal)
  · have hheld : addr ∈ st.work.held := by rwa [hwork]
    obtain ⟨sent, c, hsent, hc, -⟩ :=
      hmarking.held_chunk hheld (hmarking.closed held (.inr hwork) addr hmem)
    obtain ⟨hsparse, hdup, hnormal⟩ := hmarking.amended held hwork addr hmem c sent hc hsent
    have honly := applyHar_onlyMarked (some s.inheritedSparseContainers) sent
    refine ⟨sent, c, hsent, hc, fun hc => ?_⟩
    rw [hsparse, hdup, honly.duplicate_eq]
    exact applyHar_sparse_iff (hunmarked sent (List.mem_of_getElem? hsent))
      (honly.isNormal_eq ▸ hnormal ▸ hc)

private def sparseSettings : RewriteSettings Int :=
  { smallSettings with inheritedSparseContainers := (∅ : IdMap Int).insert 7 1 }

private def harConfig : Config := { smallConfig .exact .physical with rewriteEnableHar := true }

/-- The chunk is checked after the filter thread has taken it. -/
private def lateCheck : Option (HandOver Unit) :=
  exec (HandOver.step (RewriteCode.noRewrite (sparseSettings.har harConfig))) (fun _ _ => true)
    (HandOver.initial (RewriteCode.noRewrite (sparseSettings.har harConfig))
      (sendSegment [storedChunk 7 5]))
    ([.pop, .access Chunk.fileEnd, .access Chunk.fileEnd, .collect Chunk.fileEnd,
      .pop, .access Chunk.fileEnd, .collect Chunk.fileEnd] ++
      List.replicate 8 (.access Chunk.fileEnd) ++
      [.pop, .access Chunk.fileEnd, .collect Chunk.fileEnd])

private theorem lateCheck_isSome : lateCheck.isSome = true := by decide +kernel

/-- One duplicate in container 7, which the last backup found sparse. -/
theorem har_marks_in_time_one_chunk : ∃ st : HandOver Unit, st.work = .complete [1] ∧
    ∀ addr ∈ [1], ∃ c, st.memory addr = some c ∧ (c.isNormal = true → (c.flag.sparse = true ↔
      c.flag.duplicate = true ∧
        (sparseSettings.inheritedSparseContainers.lookup c.id).isSome = true)) := by
  have hwork : (lateCheck.get lateCheck_isSome).work = .complete [1] := by decide +kernel
  have hrun := Run.of_exec (fun _ _ _ => trivial) (Option.some_get lateCheck_isSome).symm
  exact ⟨lateCheck.get lateCheck_isSome, hwork,
    (har_marks_in_time harConfig sparseSettings rfl (by decide) ⟨_, hrun⟩).1 [1] hwork⟩

end Marking

end Destor
