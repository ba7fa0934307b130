/- digest: The forward assembly area issues every chunk once, in order, and ends up empty. -/

import Mathlib.Data.List.Forall2
import Mathlib.Data.List.TakeWhile
import Destor.Restore.AssemblyRestore
import Destor.Restore.HeldChunks

set_option autoImplicit false
set_option relaxedAutoImplicit false

namespace Destor

open Library.Outcome Library.Bytes

/-- `a` stands in the area for the chunk `c` of the recipe; once ready it can be issued for it. -/
structure Waiting (cfg : Config) (env : RestoreEnv) (c a : Chunk) : Prop where
  fp_eq : a.fp = c.fp
  id_eq : a.id = c.id
  size_eq : a.size = c.size
  normal_eq : a.isNormal = c.isNormal
  signal : c.isNormal = false → a = c
  ready : c.isNormal = true → a.flag.ready = true → Restores cfg env c a

structure AreaInv (cfg : Config) (env : RestoreEnv) (s : AssemblyRestore) (pushed : List Chunk) :
    Prop where
  split : ∃ issued waiting, pushed = issued ++ waiting ∧
    List.Forall₂ (Restores cfg env) issued s.pushed ∧
    List.Forall₂ (Waiting cfg env) waiting s.area

namespace AssemblyRestore

variable {cfg : Config} {env : RestoreEnv} {c a : Chunk}

theorem waiting_of_not_ready (h : c.flag.ready = false) : Waiting cfg env c c := by
  refine ⟨rfl, rfl, rfl, rfl, fun _ => rfl, fun _ hready => ?_⟩
  rw [h] at hready
  cases hready

/-- What leaves the area at its front is what has to be restored. -/
theorem waiting_restores (h : Waiting cfg env c a) (hissue : issuable a = true) :
    Restores cfg env c a := by
  by_cases hc : c.isNormal = true
  · apply h.ready hc
    have hnormal : a.isNormal = true := h.normal_eq.trans hc
    simpa [issuable, hnormal] using hissue
  · have hc' : c.isNormal = false := by simpa using hc
    rw [h.signal hc']
    unfold Restores
    rw [if_neg hc]

/-- Assembling from the container of one chunk keeps the area in step with the recipe. -/
theorem assembleChunk_spec (hreads : cfg.simulationLevel.readsData = true) {id : Int}
    {con : Container} (hcon : env.store.retrieveContainerById cfg id = .ok con)
    (hheld : c.Held cfg env) (h : Waiting cfg env c a) :
    ∃ a', assembleChunk cfg env (some con) id a = .ok a' ∧ Waiting cfg env c a' := by
  unfold assembleChunk
  by_cases hmatch : (a.isNormal && id == a.id) = true
  · rw [if_pos hmatch]
    obtain ⟨hnormal, hid⟩ := Bool.and_eq_true_iff.mp hmatch
    have hc : c.isNormal = true := h.normal_eq.symm.trans hnormal
    have hid' : c.id = id := h.id_eq.symm.trans (beq_iff_eq.mp hid).symm
    obtain ⟨-, con', me, hcon', hme, hsize⟩ := hheld hc
    have heq : con' = con := by
      rw [hid', hcon] at hcon'
      exact (Except.ok.inj hcon').symm
    subst heq
    rw [← h.fp_eq] at hme
    obtain ⟨d, buf, hd, hbuf, -, hbufsize, hbufdata⟩ :=
      getChunkInContainer_eq hreads hcon hme (env.stray con' a.fp)
    have hsame : a.size = buf.size := by rw [h.size_eq, hbufsize, hsize]
    refine ⟨_, bind_ok_iff.mpr ⟨buf, hbuf, bind_ok_iff.mpr ⟨(), require_of hsame, rfl⟩⟩,
      h.fp_eq, h.id_eq, h.size_eq, h.normal_eq, fun hnot => ?_, fun _ _ => ?_⟩
    · rw [hc] at hnot
      cases hnot
    · unfold Restores
      rw [if_pos hc, ← h.fp_eq]
      refine ⟨id, con', me, d, hcon, hme, hd, ?_⟩
      have hready : ({ a with
          flag := { a.flag with ready := true }
          data := buf.data } : Chunk).isNormal = true := hnormal
      rw [Chunk.restoreItem_normal hready, hbufdata, ← hbufsize, ← hsame]
  · rw [if_neg hmatch]
    exact ⟨a, rfl, h⟩

theorem assembleChunks_spec (hreads : cfg.simulationLevel.readsData = true) {id : Int}
    {con : Container} (hcon : env.store.retrieveContainerById cfg id = .ok con)
    {cs area : List Chunk} (hheld : ∀ c ∈ cs, c.Held cfg env)
    (h : List.Forall₂ (Waiting cfg env) cs area) :
    ∃ area', assembleChunks cfg env (some con) id area = .ok area' ∧
      List.Forall₂ (Waiting cfg env) cs area' := by
  induction h with
  | nil => exact ⟨[], rfl, .nil⟩
  | cons hca _ ih =>
      obtain ⟨hc, hcs⟩ := List.forall_mem_cons.mp hheld
      obtain ⟨a', ha', hwait⟩ := assembleChunk_spec hreads hcon hc hca
      obtain ⟨area', harea, hrest⟩ := ih hcs
      exact ⟨a' :: area', bind_ok_iff.mpr ⟨a', ha', bind_ok_iff.mpr ⟨area', harea, rfl⟩⟩,
        .cons hwait hrest⟩

theorem issue_prefix {cs front rest : List Chunk}
    (h : List.Forall₂ (Waiting cfg env) cs (front ++ rest))
    (hissue : ∀ a ∈ front, issuable a = true) :
    ∃ issued waiting, cs = issued ++ waiting ∧ List.Forall₂ (Restores cfg env) issued front ∧
      List.Forall₂ (Waiting cfg env) waiting rest := by
  induction front generalizing cs with
  | nil => exact ⟨[], cs, rfl, .nil, h⟩
  | cons a front ih =>
      rw [List.cons_append] at h
      obtain ⟨ha, hfront⟩ := List.forall_mem_cons.mp hissue
      cases h with
      | cons hca hrest =>
          obtain ⟨issued, waiting, rfl, hissued, hwaiting⟩ := ih hrest hfront
          exact ⟨_ :: issued, waiting, rfl, .cons (waiting_restores hca ha) hissued, hwaiting⟩

theorem assembleArea_spec (hreads : cfg.simulationLevel.readsData = true) {s : AssemblyRestore}
    (hne : s.area ≠ []) {cs : List Chunk} (hheld : ∀ c ∈ cs, c.Held cfg env)
    (h : List.Forall₂ (Waiting cfg env) cs s.area) :
    ∃ q s' issued waiting, s.assembleArea cfg env = .ok (some q, s') ∧ s'.pushed = s.pushed ∧
      cs = issued ++ waiting ∧ List.Forall₂ (Restores cfg env) issued q ∧
      List.Forall₂ (Waiting cfg env) waiting s'.area := by
  have hsignal : ∀ a ∈ s.area.takeWhile fun c => !c.isNormal, issuable a = true := by
    intro a ha
    have hnot := List.mem_takeWhile_imp ha
    simp only [issuable, hnot, Bool.true_or]
  have happend : (s.area.takeWhile fun c => !c.isNormal) ++
      (s.area.dropWhile fun c => !c.isNormal) = s.area := List.takeWhile_append_dropWhile
  rw [← happend] at h
  obtain ⟨issued, waiting, rfl, hissued, hwaiting⟩ := issue_prefix h hsignal
  unfold assembleArea
  rw [if_neg hne]
  cases hdrop : s.area.dropWhile fun c => !c.isNormal with
  | nil =>
      rw [hdrop] at hwaiting
      exact ⟨_, _, issued, waiting, rfl, rfl, rfl, hissued, hwaiting⟩
  | cons a rest =>
      rw [hdrop] at hwaiting
      cases hwaiting with
      | @cons c _ cs _ hca hrest =>
          have hheld' : ∀ c' ∈ c :: cs, c'.Held cfg env :=
            fun c' hc' => hheld c' (List.mem_append_right _ hc')
          have ha : a.isNormal = true := by
            have hhead := List.head_dropWhile_not (fun c : Chunk => !c.isNormal)
              (l := s.area) (by simp [hdrop])
            simpa [hdrop] using hhead
          obtain ⟨-, con, -, hcon, -, -⟩ := hheld' c List.mem_cons_self (hca.normal_eq.symm.trans ha)
          rw [← hca.id_eq] at hcon
          have hread : readContainer cfg env a.id = .ok (some con) := by
            unfold readContainer
            rw [if_pos hreads]
            exact bind_ok_iff.mpr ⟨con, hcon, rfl⟩
          obtain ⟨area, harea, hwait⟩ :=
            assembleChunks_spec hreads hcon hheld' (.cons hca hrest)
          rw [← List.takeWhile_append_dropWhile (p := issuable) (l := area)] at hwait
          obtain ⟨issued', waiting', hsplit, hissued', hwaiting'⟩ :=
            issue_prefix hwait fun a ha => List.mem_takeWhile_imp ha
          refine ⟨_, _, issued ++ issued', waiting', bind_ok_iff.mpr ⟨_, hread,
            bind_ok_iff.mpr ⟨area, harea, rfl⟩⟩, rfl, ?_, List.rel_append hissued hissued', hwaiting'⟩
          rw [hsplit, List.append_assoc]

theorem foldl_issueChunk_pushed (hreads : cfg.simulationLevel.readsData = true) (q : List Chunk)
    (s : AssemblyRestore) : (q.foldl (issueChunk cfg) s).pushed = s.pushed ++ q := by
  induction q generalizing s with
  | nil => exact (List.append_nil _).symm
  | cons rc q ih =>
      have hpushed : (issueChunk cfg s rc).pushed = s.pushed ++ [rc] := by
        simp only [issueChunk, if_pos hreads]
        split <;> rfl
      rw [List.foldl_cons, ih, hpushed, List.append_assoc, List.singleton_append]

/-- Assembling a nonempty area and issuing the result keeps the invariant. -/
theorem assemble_issue (hreads : cfg.simulationLevel.readsData = true) {s : AssemblyRestore}
    (hne : s.area ≠ []) {pushed : List Chunk} (hheld : ∀ c ∈ pushed, c.Held cfg env)
    (h : AreaInv cfg env s pushed) :
    ∃ q s', s.assembleArea cfg env = .ok (some q, s') ∧
      AreaInv cfg env (q.foldl (issueChunk cfg) s') pushed := by
  obtain ⟨before, waiting, rfl, hbefore, hwaiting⟩ := h.split
  obtain ⟨q, s', issued, waiting', hok, hpushed, rfl, hissued, hwaiting'⟩ :=
    assembleArea_spec hreads hne (fun c hc => hheld c (List.mem_append_right _ hc)) hwaiting
  refine ⟨q, s', hok, ⟨before ++ issued, waiting', (List.append_assoc _ _ _).symm, ?_, ?_⟩⟩
  · rw [foldl_issueChunk_pushed hreads, hpushed]
    exact List.rel_append hbefore hissued
  · rw [foldl_issueChunk_area]
    exact hwaiting'

theorem areaPush_spec {s : AssemblyRestore} {pushed : List Chunk} (h : AreaInv cfg env s pushed)
    (hc : c.flag.ready = false) :
    (s.areaPush c).2.area ≠ [] ∧ AreaInv cfg env (s.areaPush c).2 (pushed ++ [c]) := by
  have harea : (s.areaPush c).2.area = s.area ++ [c] ∧ (s.areaPush c).2.pushed = s.pushed := by
    unfold areaPush
    split <;> exact ⟨rfl, rfl⟩
  obtain ⟨issued, waiting, rfl, hissued, hwaiting⟩ := h.split
  refine ⟨?_, issued, waiting ++ [c], List.append_assoc _ _ _, ?_, ?_⟩
  · rw [harea.1]
    exact List.append_ne_nil_of_right_ne_nil _ (List.cons_ne_nil _ _)
  · rw [harea.2]
    exact hissued
  · rw [harea.1]
    exact List.rel_append hwaiting (.cons (waiting_of_not_ready hc) .nil)

/-- One chunk of the recipe goes through the assembly thread. -/
theorem chunk_spec (hreads : cfg.simulationLevel.readsData = true) {s : AssemblyRestore}
    {pushed : List Chunk} (hheld : ∀ c' ∈ pushed ++ [c], c'.Held cfg env)
    (hc : c.flag.ready = false) (h : AreaInv cfg env s pushed) :
    ∃ s', chunk cfg env s c = .ok s' ∧ AreaInv cfg env s' (pushed ++ [c]) := by
  obtain ⟨hne, hinv⟩ := areaPush_spec h hc
  unfold chunk
  rcases hpush : s.areaPush c with ⟨full, s₁⟩
  rw [hpush] at hne hinv
  by_cases hfull : full = true
  · obtain ⟨q, s₂, hok, hinv₂⟩ := assemble_issue hreads hne hheld hinv
    refine ⟨q.foldl (issueChunk cfg) s₂, ?_, hinv₂⟩
    simp only [if_pos hfull]
    exact bind_ok_iff.mpr ⟨_, hok, rfl⟩
  · exact ⟨s₁, by simp only [if_neg hfull], hinv⟩

theorem foldE_chunk (hreads : cfg.simulationLevel.readsData = true) {stream : List Chunk}
    (hready : ∀ c ∈ stream, c.flag.ready = false) {s : AssemblyRestore} {pushed : List Chunk}
    (hheld : ∀ c ∈ pushed ++ stream, c.Held cfg env) (h : AreaInv cfg env s pushed) :
    ∃ s', foldE (chunk cfg env) s stream = .ok s' ∧ AreaInv cfg env s' (pushed ++ stream) := by
  induction stream generalizing s pushed with
  | nil => exact ⟨s, rfl, (List.append_nil pushed).symm ▸ h⟩
  | cons c stream ih =>
      obtain ⟨hc, hstream⟩ := List.forall_mem_cons.mp hready
      rw [← List.singleton_append, ← List.append_assoc] at hheld ⊢
      obtain ⟨s₁, hok₁, hinv₁⟩ :=
        chunk_spec hreads (fun c' hc' => hheld c' (List.mem_append_left _ hc')) hc h
      obtain ⟨s₂, hok₂, hinv₂⟩ := ih hstream hheld hinv₁
      exact ⟨s₂, bind_ok_iff.mpr ⟨s₁, hok₁, hok₂⟩, hinv₂⟩

theorem drain_none {s s' : AssemblyRestore} (h : s.assembleArea cfg env = .ok (none, s')) :
    drain cfg env s = .ok s' := by
  rw [drain]
  split <;> simp_all

theorem drain_error {s : AssemblyRestore} {e : Abort} (h : s.assembleArea cfg env = .error e) :
    drain cfg env s = .error e := by
  rw [drain]
  split <;> simp_all

theorem drain_some {s s' : AssemblyRestore} {q : List Chunk}
    (h : s.assembleArea cfg env = .ok (some q, s')) :
    drain cfg env s = drain cfg env (q.foldl (issueChunk cfg) s') := by
  rw [drain]
  split <;> simp_all

/-- The final loop issues all that still waits. -/
theorem drain_spec (hreads : cfg.simulationLevel.readsData = true) {pushed : List Chunk}
    (hheld : ∀ c ∈ pushed, c.Held cfg env) (s : AssemblyRestore) (h : AreaInv cfg env s pushed) :
    ∃ s', drain cfg env s = .ok s' ∧ s'.area = [] ∧
      List.Forall₂ (Restores cfg env) pushed s'.pushed := by
  induction hn : s.area.length using Nat.strong_induction_on generalizing s with
  | _ n ih =>
      by_cases hne : s.area = []
      · obtain ⟨issued, waiting, rfl, hissued, hwaiting⟩ := h.split
        rw [hne] at hwaiting
        cases hwaiting
        refine ⟨s, drain_none (if_pos hne), hne, ?_⟩
        rw [List.append_nil]
        exact hissued
      · obtain ⟨q, s₁, hok, hinv⟩ := assemble_issue hreads hne hheld h
        have hless := assembleArea_length hne hok
        obtain ⟨s', hdrain, hempty, hall⟩ := ih _ (by
          rw [← hn, foldl_issueChunk_area]
          exact hless) _ hinv rfl
        exact ⟨s', (drain_some hok).trans hdrain, hempty, hall⟩

end AssemblyRestore

/-- The assembly area restores every chunk of a sound recipe, in order, and ends empty. -/
theorem assemblyRestoreThread_spec {cfg : Config} {env : RestoreEnv}
    (hreads : cfg.simulationLevel.readsData = true) {stream : List Chunk}
    (hready : ∀ c ∈ stream, c.flag.ready = false) (hheld : ∀ c ∈ stream, c.Held cfg env) :
    ∃ r, assemblyRestoreThread cfg env stream = .ok r ∧
      List.Forall₂ (Restores cfg env) stream r.2.1 ∧ r.2.2 = [] := by
  have hinit : AreaInv cfg env (AssemblyRestore.init cfg) [] := ⟨[], [], rfl, .nil, .nil⟩
  obtain ⟨s₁, hok₁, hinv⟩ := AssemblyRestore.foldE_chunk hreads hready hheld hinit
  obtain ⟨s₂, hok₂, hempty, hall⟩ := AssemblyRestore.drain_spec hreads hheld s₁ hinv
  exact ⟨_, bind_ok_iff.mpr ⟨s₁, hok₁, bind_ok_iff.mpr ⟨s₂, hok₂, rfl⟩⟩, hall, hempty⟩

end Destor
