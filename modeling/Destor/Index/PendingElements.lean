/- digest: The index buffer over any interleaving of lookups and updates: one queue for each pending
   fingerprint, and no key in a freed element. -/

import Destor.Index.BufferMemory
import Destor.Library.RelatedLists
import Mathlib.Data.List.MinMax

set_option autoImplicit false
set_option relaxedAutoImplicit false

namespace Destor

open Library.AliasedTable Library.Outcome Library.Transition

def elementsOf (fp : Fingerprint) (pending : List (Chunk × Option Nat)) : List Nat :=
  pending.filterMap fun p => if p.1.fp = fp then p.2 else none

/-- An entry of the table has the elements of one fingerprint, and its key in the last of them. -/
structure EntryOf (pending : List (Chunk × Option Nat)) (fp : Fingerprint) (e : Entry (List Nat)) :
    Prop where
  queue : e.value = elementsOf fp pending
  key : e.value.getLast? = some e.key

structure BufferMemory.Represents (m : BufferMemory) (pending : List (Chunk × Option Nat)) :
    Prop where
  owned : ∀ p ∈ pending, p.2.isSome = p.1.isNormal
  live : ∀ p ∈ pending, ∀ a, p.2 = some a → m.fpAt a = some p.1.fp
  allocated : ∀ a fp, m.fpAt a = some fp → a ∈ pending.filterMap Prod.snd
  nodup : (pending.filterMap Prod.snd).Nodup
  table : ∃ fps : List Fingerprint, fps.Nodup ∧
    List.Forall₂ (EntryOf pending) fps m.bufferedFingerprints ∧
    ∀ p ∈ pending, p.1.isNormal = true → p.1.fp ∈ fps
  chunkNum : m.chunkNum = pending.countP fun p => p.1.isNormal

section Elements

variable {fp : Fingerprint} {pending rest : List (Chunk × Option Nat)} {p : Chunk × Option Nat}
  {a : Nat} {e : Entry (List Nat)}

theorem mem_elementsOf : a ∈ elementsOf fp pending ↔ ∃ p ∈ pending, p.2 = some a ∧ p.1.fp = fp := by
  rw [elementsOf, List.mem_filterMap]
  apply exists_congr
  intro p
  apply and_congr_right
  intro _
  split
  · rename_i hfp
    exact (and_iff_left hfp).symm
  · rename_i hfp
    exact iff_of_false (by simp) fun h => hfp h.2

@[simp] theorem elementsOf_append :
    elementsOf fp (pending ++ rest) = elementsOf fp pending ++ elementsOf fp rest :=
  List.filterMap_append

theorem elementsOf_single {c : Chunk} :
    elementsOf fp [(c, some a)] = if c.fp = fp then [a] else [] := by
  rw [elementsOf, List.filterMap_cons]
  split <;> split <;> simp_all

theorem elementsOf_single_none {c : Chunk} : elementsOf fp [(c, none)] = [] := by
  simp [elementsOf]

theorem EntryOf.of_eq {pending' : List (Chunk × Option Nat)} (h : EntryOf pending fp e)
    (heq : elementsOf fp pending' = elementsOf fp pending) : EntryOf pending' fp e :=
  ⟨h.queue.trans heq.symm, h.key⟩

end Elements

namespace BufferMemory

variable {m m' : BufferMemory} {pending rest : List (Chunk × Option Nat)} {fp : Fingerprint}
  {fps : List Fingerprint} {entries : List (Entry (List Nat))} {c c₀ : Chunk} {a : Nat}
  {alloc : Allocator}

theorem represents_initial : initial.Represents [] where
  owned := fun p hp => absurd hp List.not_mem_nil
  live := fun p hp => absurd hp List.not_mem_nil
  allocated := fun a fp h => by simp [initial, fpAt] at h
  nodup := List.nodup_nil
  table := ⟨[], List.nodup_nil, .nil, fun p hp => absurd hp List.not_mem_nil⟩
  chunkNum := rfl

theorem Represents.fpAt_key (h : m.Represents pending) {e : Entry (List Nat)}
    (he : EntryOf pending fp e) : m.fpAt e.key = some fp := by
  have hmem := List.mem_of_getLast? he.key
  rw [he.queue] at hmem
  obtain ⟨p, hp, ha, rfl⟩ := mem_elementsOf.mp hmem
  exact h.live p hp e.key ha

theorem Represents.keyed (h : m.Represents pending)
    (htable : List.Forall₂ (EntryOf pending) fps entries) : Keyed m.fpAt fps entries :=
  htable.imp fun _ _ he => h.fpAt_key he

private theorem elementsOf_eq_nil (h : m.Represents pending) (hfp : fp ∉ fps)
    (hcover : ∀ p ∈ pending, p.1.isNormal = true → p.1.fp ∈ fps) : elementsOf fp pending = [] := by
  apply List.eq_nil_iff_forall_not_mem.mpr
  intro a ha
  obtain ⟨p, hp, hsome, rfl⟩ := mem_elementsOf.mp ha
  have howned := h.owned p hp
  rw [hsome] at howned
  exact hfp (hcover p hp howned.symm)

/-- What a lookup finds is the queue of the pending chunks with the fingerprint. -/
theorem Represents.lookup_cases (h : m.Represents pending) (fp : Fingerprint) :
    (m.lookup fp = .ok none ∧ elementsOf fp pending = []) ∨
      ∃ e, m.lookup fp = .ok (some e) ∧ EntryOf pending fp e := by
  obtain ⟨fps, hnodup, htable, hcover⟩ := h.table
  by_cases hfp : fp ∈ fps
  · obtain ⟨before, behind, front, e, back, rfl, hentries, hbefore, -, hfront, he, -⟩ :=
      split_of_mem htable hnodup hfp
    refine .inr ⟨e, ?_, he⟩
    rw [lookup, hentries, find_of_split (h.keyed hfront) hbefore (h.fpAt_key he)]
    rfl
  · refine .inl ⟨?_, elementsOf_eq_nil h hfp hcover⟩
    rw [lookup, find_of_not_mem (h.keyed htable) hfp]
    rfl

private theorem updateTable_of_ok {f : Entry (List Nat) → Option (Entry (List Nat))}
    {new : Option (Entry (List Nat))}
    (h : update m.fpAt fp f new m.bufferedFingerprints = .ok entries) :
    m.updateTable fp f new = .ok { m with bufferedFingerprints := entries } := by
  rw [updateTable, h]
  rfl

private theorem elementsOf_snoc_of_ne (hne : fp ≠ c.fp) (a : Nat) :
    elementsOf fp (pending ++ [(c, some a)]) = elementsOf fp pending := by
  rw [elementsOf_append, elementsOf_single, if_neg (Ne.symm hne), List.append_nil]

private theorem elementsOf_snoc (c : Chunk) (a : Nat) :
    elementsOf c.fp (pending ++ [(c, some a)]) = elementsOf c.fp pending ++ [a] := by
  rw [elementsOf_append, elementsOf_single, if_pos rfl]

private theorem update_push (keyAt : Nat → Option Fingerprint)
    (hkeyed : ∀ fps entries, List.Forall₂ (EntryOf pending) fps entries → Keyed keyAt fps entries)
    (hnodup : fps.Nodup) (htable : List.Forall₂ (EntryOf pending) fps entries)
    {entry : Entry (List Nat)} (hentry : EntryOf (pending ++ [(c, some a)]) c.fp entry) :
    ∃ fps' entries', update keyAt c.fp (fun _ => some entry) (some entry) entries = .ok entries' ∧
      fps'.Nodup ∧ List.Forall₂ (EntryOf (pending ++ [(c, some a)])) fps' entries' ∧
      ∀ fp, fp ∈ fps' ↔ fp ∈ fps ∨ fp = c.fp := by
  have hkeep : ∀ {fps entries}, c.fp ∉ fps → List.Forall₂ (EntryOf pending) fps entries →
      List.Forall₂ (EntryOf (pending ++ [(c, some a)])) fps entries := by
    intro fps entries hfps htable
    apply Library.RelatedLists.forall₂_imp_of_mem htable
    intro fp hfp e he
    exact he.of_eq (elementsOf_snoc_of_ne (ne_of_mem_of_not_mem hfp hfps) a)
  by_cases hfp : c.fp ∈ fps
  · obtain ⟨before, behind, front, e, back, rfl, rfl, hbefore, hbehind, hfront, he, hback⟩ :=
      split_of_mem htable hnodup hfp
    have hkey : keyAt e.key = some c.fp := by
      cases hkeyed _ _ (.cons he .nil) with
      | cons hkey _ => exact hkey
    refine ⟨_, _, update_of_split (hkeyed _ _ hfront) hbefore hkey, hnodup, ?_, ?_⟩
    · apply List.rel_append (hkeep hbefore hfront)
      exact .cons hentry (hkeep hbehind hback)
    · intro fp
      refine ⟨.inl, ?_⟩
      rintro (hin | rfl)
      · exact hin
      · exact hfp
  · refine ⟨fps ++ [c.fp], _, update_of_not_mem (hkeyed _ _ htable) hfp, ?_, ?_, ?_⟩
    · exact List.nodup_append.mpr ⟨hnodup, List.nodup_singleton _, by
        rintro fp hin _ hlast rfl
        exact hfp (List.mem_singleton.mp hlast ▸ hin)⟩
    · exact List.rel_append (hkeep hfp htable) (.cons hentry .nil)
    · intro fp
      rw [List.mem_append, List.mem_singleton]

/-- A new element is at an address that no other has, and leaves the others where they are. -/
private theorem fpAt_insert_malloc (alloc : Allocator) (ie : IndexElem) :
    m.fpAt (alloc.malloc m.elems.keys) = none ∧
      ∀ x, ({ m with elems := m.elems.insert (alloc.malloc m.elems.keys) ie } :
        BufferMemory).fpAt x =
          if x = alloc.malloc m.elems.keys then some ie.fp else m.fpAt x := by
  constructor
  · rw [fpAt, AList.lookup_eq_none.mpr (alloc.fresh m.elems.keys)]
    rfl
  · intro x
    show (m.elems.insert _ _ |>.lookup x).map _ = _
    by_cases hx : x = alloc.malloc m.elems.keys
    · rw [if_pos hx, hx, AList.lookup_insert]
      rfl
    · rw [if_neg hx, AList.lookup_insert_ne hx]
      rfl

theorem Represents.push (h : m.Represents pending) (alloc : Allocator) (hc : c.isNormal = true)
    {tq : Option (Entry (List Nat))} (htq : m.lookup c.fp = .ok tq) :
    ∃ m' ne, m.pushElem alloc ((tq.map Entry.value).getD []) c = .ok (m', ne) ∧
      m'.Represents (pending ++ [(c, some ne)]) := by
  have hqueue : (tq.map Entry.value).getD [] = elementsOf c.fp pending := by
    rcases h.lookup_cases c.fp with ⟨hnone, hnil⟩ | ⟨e, hsome, he⟩
    · cases Except.ok.inj (htq.symm.trans hnone)
      exact hnil.symm
    · cases Except.ok.inj (htq.symm.trans hsome)
      exact he.queue
  obtain ⟨fps, hnodup, htable, hcover⟩ := h.table
  let ne := alloc.malloc m.elems.keys
  let m₁ : BufferMemory := { m with elems := m.elems.insert ne { id := c.id, fp := c.fp } }
  obtain ⟨hnew, hinsert⟩ := fpAt_insert_malloc (m := m) alloc { id := c.id, fp := c.fp }
  have hself : m₁.fpAt ne = some c.fp := (hinsert ne).trans (if_pos rfl)
  have hother : ∀ x, x ≠ ne → m₁.fpAt x = m.fpAt x := fun x hx => (hinsert x).trans (if_neg hx)
  have hold : ∀ x fp, m.fpAt x = some fp → m₁.fpAt x = some fp := by
    intro x fp hx
    rw [hother x, hx]
    rintro rfl
    rw [hnew] at hx
    cases hx
  have hentry : EntryOf (pending ++ [(c, some ne)]) c.fp
      { key := ne, value := elementsOf c.fp pending ++ [ne] } :=
    ⟨(elementsOf_snoc c ne).symm, List.getLast?_concat⟩
  obtain ⟨fps', entries', hupdate, hnodup', htable', hfps'⟩ :=
    update_push m₁.fpAt (fun _ _ ht => ht.imp fun _ _ he => hold _ _ (h.fpAt_key he)) hnodup
      htable hentry
  refine ⟨{ m₁ with bufferedFingerprints := entries', chunkNum := m.chunkNum + 1 }, ne, ?_, ?_⟩
  · rw [hqueue, pushElem]
    show (m₁.updateTable c.fp _ _ >>= _) = _
    rw [updateTable_of_ok hupdate]
    rfl
  · exact
      { owned := by
          intro p hp
          rcases List.mem_append.mp hp with hp | hp
          · exact h.owned p hp
          · rw [List.mem_singleton.mp hp]
            exact hc.symm
        live := by
          intro p hp x hx
          rcases List.mem_append.mp hp with hp | hp
          · exact hold x _ (h.live p hp x hx)
          · rw [List.mem_singleton.mp hp] at hx ⊢
            cases hx
            exact hself
        allocated := by
          intro x fp hx
          rw [List.filterMap_append, List.mem_append]
          by_cases heq : x = ne
          · exact .inr (heq ▸ List.mem_singleton.mpr rfl)
          · exact .inl (h.allocated x fp ((hother x heq).symm.trans hx))
        nodup := by
          rw [List.filterMap_append]
          apply List.nodup_append.mpr
          refine ⟨h.nodup, List.nodup_singleton ne, ?_⟩
          rintro x hx _ hne rfl
          obtain ⟨p, hp, hsome⟩ := List.mem_filterMap.mp hx
          have hlive := h.live p hp x hsome
          rw [List.mem_singleton.mp hne, hnew] at hlive
          cases hlive
        table := by
          refine ⟨fps', hnodup', htable', fun p hp hnormal => (hfps' _).mpr ?_⟩
          rcases List.mem_append.mp hp with hp | hp
          · exact .inl (hcover p hp hnormal)
          · rw [List.mem_singleton.mp hp]
            exact .inr rfl
        chunkNum := by
          show m.chunkNum + 1 = _
          rw [h.chunkNum, List.countP_append, List.countP_singleton, if_pos hc]
          rfl }

section Pop

variable {id : Int} {addrs : List Nat}

/-- The loop that writes the ids moves nothing. -/
theorem setIds_ok (hlive : ∀ x ∈ addrs, (m.fpAt x).isSome = true) :
    ∃ m', foldE (setId id) m addrs = .ok m' ∧ (∀ x, m'.fpAt x = m.fpAt x) ∧
      m'.bufferedFingerprints = m.bufferedFingerprints ∧ m'.chunkNum = m.chunkNum := by
  induction addrs generalizing m with
  | nil => exact ⟨m, rfl, fun _ => rfl, rfl, rfl⟩
  | cons addr addrs ih =>
      obtain ⟨hhead, htail⟩ := List.forall_mem_cons.mp hlive
      cases hie : m.elems.lookup addr with
      | none => simp [fpAt, hie] at hhead
      | some ie =>
          let m₁ : BufferMemory := { m with elems := m.elems.insert addr { ie with id := id } }
          have hstep : setId id m addr = .ok m₁ := by
            rw [setId, hie]
          have hsame : ∀ x, m₁.fpAt x = m.fpAt x := by
            intro x
            show (m.elems.insert addr _ |>.lookup x).map _ = (m.elems.lookup x).map _
            by_cases hx : x = addr
            · rw [hx, AList.lookup_insert, hie]
              rfl
            · rw [AList.lookup_insert_ne hx]
          obtain ⟨m', hfold, hfp, htable, hnum⟩ := ih (m := m₁) fun x hx => by
            rw [hsame]
            exact htail x hx
          refine ⟨m', ?_, fun x => (hfp x).trans (hsame x), htable, hnum⟩
          rw [foldE, hstep]
          exact hfold

theorem free_ok (hlive : (m.fpAt a).isSome = true) :
    ∃ m', m.free a = .ok m' ∧ (∀ x, m'.fpAt x = if x = a then none else m.fpAt x) ∧
      m'.bufferedFingerprints = m.bufferedFingerprints ∧ m'.chunkNum = m.chunkNum := by
  cases hie : m.elems.lookup a with
  | none => simp [fpAt, hie] at hlive
  | some ie =>
      refine ⟨{ m with elems := m.elems.erase a }, by rw [free, hie], fun x => ?_, rfl, rfl⟩
      show (m.elems.erase a |>.lookup x).map _ = _
      by_cases hx : x = a
      · rw [if_pos hx, hx, AList.lookup_erase]
        rfl
      · rw [if_neg hx, AList.lookup_erase_ne hx]
        rfl

private theorem update_pop (h : m.Represents ((c₀, some a) :: rest)) :
    ∃ (bq : Entry (List Nat)) (entries₁ entries₂ : List (Entry (List Nat)))
      (fps' : List Fingerprint), m.lookup c₀.fp = .ok (some bq) ∧
      bq.value = a :: elementsOf c₀.fp rest ∧
      update m.fpAt c₀.fp (fun e => some { e with value := elementsOf c₀.fp rest }) none
        m.bufferedFingerprints = .ok entries₁ ∧
      (elementsOf c₀.fp rest = [] → update m.fpAt c₀.fp (fun _ => none) none entries₁ = .ok entries₂) ∧
      (elementsOf c₀.fp rest ≠ [] → entries₂ = entries₁) ∧ fps'.Nodup ∧
      List.Forall₂ (EntryOf rest) fps' entries₂ ∧
      ∀ p ∈ rest, p.1.isNormal = true → p.1.fp ∈ fps' := by
  obtain ⟨fps, hnodup, htable, hcover⟩ := h.table
  have hnormal : c₀.isNormal = true := (h.owned _ List.mem_cons_self).symm
  have hfp : c₀.fp ∈ fps := hcover _ List.mem_cons_self hnormal
  obtain ⟨before, behind, front, bq, back, rfl, hentries, hbefore, hbehind, hfront, hbq, hback⟩ :=
    split_of_mem htable hnodup hfp
  have hqueue : bq.value = a :: elementsOf c₀.fp rest := by
    rw [hbq.queue, ← List.singleton_append, elementsOf_append, elementsOf_single, if_pos rfl]
    rfl
  have hkeep : ∀ {fps entries}, c₀.fp ∉ fps →
      List.Forall₂ (EntryOf ((c₀, some a) :: rest)) fps entries →
      List.Forall₂ (EntryOf rest) fps entries := by
    intro fps entries hfps hrel
    apply Library.RelatedLists.forall₂_imp_of_mem hrel
    intro fp hin e he
    apply he.of_eq
    have hne : c₀.fp ≠ fp := (ne_of_mem_of_not_mem hin hfps).symm
    rw [← List.singleton_append, elementsOf_append, elementsOf_single, if_neg hne, List.nil_append]
  have hkeyed := h.keyed hfront
  have hkey := h.fpAt_key hbq
  have hfind : m.lookup c₀.fp = .ok (some bq) := by
    rw [lookup, hentries, find_of_split hkeyed hbefore hkey]
    rfl
  have hpop : update m.fpAt c₀.fp (fun e => some { e with value := elementsOf c₀.fp rest }) none
      m.bufferedFingerprints =
        .ok (front ++ { bq with value := elementsOf c₀.fp rest } :: back) := by
    rw [hentries, update_of_split hkeyed hbefore hkey]
    rfl
  by_cases hlast : elementsOf c₀.fp rest = []
  · refine ⟨bq, _, front ++ back, before ++ behind, hfind, hqueue, hpop, fun _ => ?_,
      fun hne => absurd hlast hne, ?_, ?_, ?_⟩
    · exact update_of_split hkeyed hbefore hkey
    · exact (List.nodup_cons.mp (List.nodup_middle.mp hnodup)).2
    · exact List.rel_append (hkeep hbefore hfront) (hkeep hbehind hback)
    · intro p hp hpnormal
      have hin := hcover p (List.mem_cons_of_mem _ hp) hpnormal
      rcases List.mem_cons.mp (List.perm_middle.mem_iff.mp hin) with heq | hin
      · -- A pending chunk with the fingerprint would have an element.
        obtain ⟨x, hx⟩ := Option.isSome_iff_exists.mp
          ((h.owned p (List.mem_cons_of_mem _ hp)).trans hpnormal)
        have hmem := mem_elementsOf.mpr ⟨p, hp, hx, heq⟩
        rw [hlast] at hmem
        cases hmem
      · exact hin
  · refine ⟨bq, _, _, before ++ c₀.fp :: behind, hfind, hqueue, hpop, fun hnil => absurd hnil hlast,
      fun _ => rfl, hnodup, ?_, fun p hp => hcover p (List.mem_cons_of_mem _ hp)⟩
    apply List.rel_append (hkeep hbefore hfront)
    refine .cons ⟨rfl, ?_⟩ (hkeep hbehind hback)
    have hkeyLast := hbq.key
    rw [hqueue, List.getLast?_cons, Option.some_inj] at hkeyLast
    obtain ⟨last, hsome⟩ := Option.ne_none_iff_exists'.mp (mt List.getLast?_eq_none_iff.mp hlast)
    rw [hsome, Option.getD_some] at hkeyLast
    show (elementsOf c₀.fp rest).getLast? = some bq.key
    rw [hsome, hkeyLast]

/-- A signal is dropped without a trace. -/
theorem Represents.skip (h : m.Represents ((c₀, none) :: rest)) : m.Represents rest := by
  have hsame : ∀ fp, elementsOf fp rest = elementsOf fp ((c₀, none) :: rest) := by
    intro fp
    rw [← List.singleton_append, elementsOf_append, elementsOf_single_none, List.nil_append]
  obtain ⟨fps, hnodup, htable, hcover⟩ := h.table
  have hsignal : c₀.isNormal = false := (h.owned _ List.mem_cons_self).symm
  exact
    { owned := fun p hp => h.owned p (List.mem_cons_of_mem _ hp)
      live := fun p hp => h.live p (List.mem_cons_of_mem _ hp)
      allocated := h.allocated
      nodup := h.nodup
      table := ⟨fps, hnodup, htable.imp fun _ _ he => he.of_eq (hsame _),
        fun p hp => hcover p (List.mem_cons_of_mem _ hp)⟩
      chunkNum := by
        rw [h.chunkNum, List.countP_cons_of_neg (by simp [hsignal])] }

/-- After the queue is popped, the table is as it will be, and no element has moved: the id is set in
the elements that are left, or the queue is removed. -/
private theorem setQueue_ok (h : m.Represents ((c₀, some a) :: rest)) (id : Int)
    {entries₁ entries₂ : List (Entry (List Nat))}
    (hremove : elementsOf c₀.fp rest = [] →
      update m.fpAt c₀.fp (fun _ => none) none entries₁ = .ok entries₂)
    (hkeep : elementsOf c₀.fp rest ≠ [] → entries₂ = entries₁) :
    ∃ m₂, (if elementsOf c₀.fp rest = [] then
        ({ m with bufferedFingerprints := entries₁ } : BufferMemory).updateTable c₀.fp
          (fun _ => none) none
      else foldE (setId id) { m with bufferedFingerprints := entries₁ } (elementsOf c₀.fp rest)) =
        .ok m₂ ∧
      (∀ x, m₂.fpAt x = m.fpAt x) ∧ m₂.bufferedFingerprints = entries₂ ∧
      m₂.chunkNum = m.chunkNum := by
  by_cases hlast : elementsOf c₀.fp rest = []
  · rw [if_pos hlast, updateTable_of_ok (hremove hlast)]
    exact ⟨_, rfl, fun _ => rfl, rfl, rfl⟩
  · rw [if_neg hlast, hkeep hlast]
    apply setIds_ok
    intro x hx
    obtain ⟨p, hp, hsome, -⟩ := mem_elementsOf.mp hx
    have hplive := h.live p (List.mem_cons_of_mem _ hp) x hsome
    show (m.fpAt x).isSome = true
    rw [hplive]
    rfl

/-- A pending chunk that gets its id leaves the buffer with its element. -/
theorem Represents.pop (h : m.Represents ((c₀, some a) :: rest)) (hc : c.isNormal = true)
    (hfp : c.fp = c₀.fp) (hid : c.id ≠ temporaryId) :
    ∃ m', updateChunkMemory m c = .ok m' ∧ m'.Represents rest := by
  obtain ⟨bq, entries₁, entries₂, fps', hfind, hqueue, hpop, hremove, hkeep, hnodup, htable, hcover⟩ :=
    update_pop h
  have hnormal : c₀.isNormal = true := (h.owned _ List.mem_cons_self).symm
  have hnew : a ∉ rest.filterMap Prod.snd := (List.nodup_cons.mp h.nodup).1
  have hlive : m.fpAt a = some c₀.fp := h.live _ List.mem_cons_self a rfl
  obtain ⟨m₂, hmiddle, hfp₂, htable₂, hnum₂⟩ := setQueue_ok h c.id hremove hkeep
  obtain ⟨m₃, hfree, hfp₃, htable₃, hnum₃⟩ := free_ok (m := m₂) (a := a) (by
    rw [hfp₂, hlive]
    rfl)
  refine ⟨{ m₃ with chunkNum := m₃.chunkNum - 1 }, ?_, ?_⟩
  · rw [updateChunkMemory, if_pos hc, require_of hid, hfp, hfind]
    have hpop' : m.updateTable c₀.fp (fun e => some { e with value := bq.value.tail }) none =
        .ok { m with bufferedFingerprints := entries₁ } := by
      rw [hqueue]
      exact updateTable_of_ok hpop
    simp only [checked, Except.mapError, bind, Except.bind, pure, Except.pure, hpop']
    rw [hqueue, List.tail_cons]
    split at hmiddle
    · rename_i hlast
      rw [if_pos hlast]
      simp only [hmiddle, hfree]
    · rename_i hlast
      rw [if_neg hlast]
      simp only [hmiddle, hfree]
  · have hfp' : ∀ x, m₃.fpAt x = if x = a then none else m.fpAt x := by
      intro x
      rw [hfp₃, hfp₂]
    exact
      { owned := fun p hp => h.owned p (List.mem_cons_of_mem _ hp)
        live := by
          intro p hp x hx
          show m₃.fpAt x = _
          rw [hfp', if_neg, h.live p (List.mem_cons_of_mem _ hp) x hx]
          rintro rfl
          exact hnew (List.mem_filterMap.mpr ⟨p, hp, hx⟩)
        allocated := by
          intro x fp hx
          have hx : m₃.fpAt x = some fp := hx
          rw [hfp'] at hx
          split at hx
          · cases hx
          · rename_i hne
            exact List.mem_of_ne_of_mem hne (h.allocated x fp hx)
        nodup := (List.nodup_cons.mp h.nodup).2
        table := by
          refine ⟨fps', hnodup, ?_, hcover⟩
          show List.Forall₂ _ fps' m₃.bufferedFingerprints
          rw [htable₃, htable₂]
          exact htable
        chunkNum := by
          show m₃.chunkNum - 1 = _
          rw [hnum₃, hnum₂, h.chunkNum]
          simp only [List.countP_cons, hnormal, if_true]
          omega }

end Pop

end BufferMemory

/-- The lookups and updates of a job, with the segments that were looked up and not yet updated. -/
structure BufferRun where
  state : MemoryState
  segments : List (List (Chunk × Option Nat))

namespace BufferRun

def pending (r : BufferRun) : List (Chunk × Option Nat) := r.segments.flatten

/-- A call: a lookup, under the allocator and the threshold and against the store as they are then; or
an update. -/
inductive Call where
  | lookup (alloc : Allocator) (threshold : Int) (source : IndexSource) (storage : Option Container)
      (s : Segment)
  | update (chunks : List Chunk)

/-- `index_lookup`, which does nothing while the buffer is full, and `index_update_buffer`. -/
def step (cfg : Config) (r : BufferRun) : Call → Except BufferFault BufferRun
  | .lookup alloc threshold source storage s =>
      if 0 < threshold ∧ threshold ≤ r.state.memory.chunkNum then .ok r
      else do
        let (state, chunks) ← indexLookupMemory alloc cfg source storage r.state s
        return { state := state, segments := r.segments ++ [chunks] }
  | .update chunks => do
      let memory ← indexUpdateMemory r.state.memory chunks
      return { state := { r.state with memory := memory }, segments := r.segments.tail }

/-- The chunks of the oldest segment come with their ids; their fingerprints are what they were. -/
def InOrder (r : BufferRun) : Call → Prop
  | .lookup _ _ _ _ _ => True
  | .update chunks => ∃ segment rest, r.segments = segment :: rest ∧
      List.Forall₂ (fun p c => p.1.SamePayload c ∧ (c.isNormal = true → c.id ≠ temporaryId))
        segment chunks

end BufferRun

def BufferFault.IsCheck (e : BufferFault) : Prop := ∃ a, e = .abort a

section Steps

variable {cfg : Config} {source : IndexSource} {storage : Option Container} {alloc : Allocator}
  {ask : Bool} {st : MemoryState} {m : BufferMemory} {pending rest : List (Chunk × Option Nat)}
  {segment : List (Chunk × Option Nat)} {chunks : List Chunk} {r : BufferRun}

theorem checked_ensures {α : Type} {Q : α → Prop} {x : Except Abort α}
    (h : Ensures (fun _ => True) Q x) : Ensures BufferFault.IsCheck Q (checked x) := by
  cases x with
  | ok a => exact h
  | error e => exact ⟨e, rfl⟩

theorem checkStorageBuffer_samePayload (storage : Option Container) (c : Chunk) :
    c.SamePayload (checkStorageBuffer storage c) := by
  unfold checkStorageBuffer
  split
  · split
    · exact ⟨rfl, rfl, rfl, rfl, rfl⟩
    · exact .refl c
  · exact .refl c

private theorem found_samePayload (id : Int) (c : Chunk) :
    c.SamePayload (if id ≠ temporaryId then setDuplicate c id else c) := by
  split
  · exact (setDuplicate_sameContent c id).toSamePayload
  · exact .refl c

theorem checkFingerprintCache_samePayload (cache : LruCache CacheUnit) (c : Chunk) :
    Ensures (fun _ => True) (fun r => c.SamePayload r.2) (checkFingerprintCache cache c) := by
  rw [checkFingerprintCache]
  split
  · exact .refl c
  · exact (ensures_true _).bind fun r _ => found_samePayload r.1 c

theorem checkKvstore_samePayload (cache : LruCache CacheUnit) (c : Chunk) :
    Ensures (fun _ => True) (fun r => c.SamePayload r.2) (checkKvstore cfg source cache c) := by
  rw [checkKvstore]
  split
  · exact .refl c
  · split
    · exact .refl c
    · refine (ensures_true _).bind fun cache _ => (ensures_true _).bind fun r _ => ?_
      exact found_samePayload r.1 c

/-- The head of a queue is an element of a pending chunk, and that is allocated. -/
theorem checkMemory_ensures (h : m.Represents pending) {tq : Option (Entry (List Nat))} {c : Chunk}
    (htq : m.lookup c.fp = .ok tq) :
    Ensures BufferFault.IsCheck (fun c' => c.SamePayload c') (checkMemory m tq c) := by
  rcases h.lookup_cases c.fp with ⟨hnone, -⟩ | ⟨e, hsome, he⟩
  · cases Except.ok.inj (htq.symm.trans hnone)
    exact .refl c
  · cases Except.ok.inj (htq.symm.trans hsome)
    rw [checkMemory]
    split
    · exact .refl c
    · have hqueue := he.queue
      have hlast := he.key
      cases hvalue : e.value with
      | nil =>
          rw [hvalue] at hlast
          cases hlast
      | cons be queue =>
          rw [hvalue] at hqueue
          have hmem : be ∈ elementsOf c.fp pending := hqueue ▸ List.mem_cons_self
          obtain ⟨p, hp, hsome, -⟩ := mem_elementsOf.mp hmem
          have hlive := h.live p hp be hsome
          obtain ⟨elem, helem, -⟩ := Option.map_eq_some_iff.mp hlive
          simp only [helem]
          exact (setDuplicate_sameContent c elem.id).toSamePayload

theorem BufferMemory.Represents.snocSignal (h : m.Represents pending) {c : Chunk}
    (hc : c.isNormal = false) : m.Represents (pending ++ [(c, none)]) := by
  have hsame : ∀ fp, elementsOf fp (pending ++ [(c, none)]) = elementsOf fp pending := by
    intro fp
    rw [elementsOf_append, elementsOf_single_none, List.append_nil]
  have hfilter : (pending ++ [(c, none)]).filterMap Prod.snd = pending.filterMap Prod.snd := by
    rw [List.filterMap_append]
    exact List.append_nil _
  obtain ⟨fps, hnodup, htable, hcover⟩ := h.table
  exact
    { owned := by
        intro p hp
        rcases List.mem_append.mp hp with hp | hp
        · exact h.owned p hp
        · rw [List.mem_singleton.mp hp]
          exact hc.symm
      live := by
        intro p hp a ha
        rcases List.mem_append.mp hp with hp | hp
        · exact h.live p hp a ha
        · rw [List.mem_singleton.mp hp] at ha
          cases ha
      allocated := fun a fp ha => hfilter.symm ▸ h.allocated a fp ha
      nodup := hfilter.symm ▸ h.nodup
      table := by
        refine ⟨fps, hnodup, htable.imp fun _ _ he => he.of_eq (hsame _), ?_⟩
        intro p hp hnormal
        rcases List.mem_append.mp hp with hp | hp
        · exact hcover p hp hnormal
        · rw [List.mem_singleton.mp hp, hc] at hnormal
          cases hnormal
      chunkNum := by
        rw [h.chunkNum, List.countP_append, List.countP_singleton, if_neg (by simp [hc])]
        rfl }

theorem lookupChunkMemory_ensures (h : st.memory.Represents pending) (c : Chunk) :
    Ensures BufferFault.IsCheck (fun r => r.1.memory.Represents (pending ++ [r.2]))
      (lookupChunkMemory alloc cfg ask source storage st c) := by
  rw [lookupChunkMemory]
  cases hc : c.isNormal with
  | false => exact h.snocSignal hc
  | true =>
      rw [if_pos rfl]
      have hstorage := checkStorageBuffer_samePayload storage c
      obtain ⟨tq, htq⟩ : ∃ tq, st.memory.lookup (checkStorageBuffer storage c).fp = .ok tq := by
        rcases h.lookup_cases (checkStorageBuffer storage c).fp with ⟨hok, -⟩ | ⟨e, hok, -⟩
        · exact ⟨_, hok⟩
        · exact ⟨_, hok⟩
      simp only [htq]
      apply (checkMemory_ensures h htq).bind
      intro c₁ hc₁
      apply (checked_ensures (checkFingerprintCache_samePayload st.cache c₁)).bind
      intro r₂ hc₂
      have hkv : Ensures BufferFault.IsCheck (fun r => r₂.2.SamePayload r.2)
          (checked (if ask then checkKvstore cfg source r₂.1 r₂.2 else .ok r₂)) := by
        cases ask with
        | true => exact checked_ensures (checkKvstore_samePayload r₂.1 r₂.2)
        | false => exact .refl r₂.2
      apply hkv.bind
      intro r₃ hc₃
      have hsame : (checkStorageBuffer storage c).SamePayload r₃.2 := (hc₁.trans hc₂).trans hc₃
      have hnormal : r₃.2.isNormal = true := by
        rw [hsame.normal_eq, hstorage.normal_eq, hc]
      rw [← hsame.fp_eq] at htq
      obtain ⟨m', ne, hpush, hm'⟩ := h.push alloc hnormal htq
      rw [hpush]
      exact hm'

theorem indexLookupMemory_ensures (h : st.memory.Represents pending) (s : Segment) :
    Ensures BufferFault.IsCheck (fun r => r.1.memory.Represents (pending ++ r.2))
      (indexLookupMemory alloc cfg source storage st s) := by
  have hloop : ∀ ask (st : MemoryState), st.memory.Represents pending →
      Ensures BufferFault.IsCheck (fun r => r.1.memory.Represents (pending ++ r.2))
        (traverseE (lookupChunkMemory alloc cfg ask source storage) st s.chunks) := by
    intro ask st h
    have hrun := traverseE_ensures BufferFault.IsCheck
      (f := lookupChunkMemory alloc cfg ask source storage) (l := s.chunks) (s := st)
      (fun done st _ => st.memory.Represents (pending ++ done))
      (fun done st c _ hdone => (lookupChunkMemory_ensures hdone c).imp fun r hr => by
        rwa [List.append_assoc] at hr) (by rwa [List.append_nil])
    exact hrun
  rw [indexLookupMemory]
  split
  · apply (checked_ensures (ensures_true _)).bind
    intro features _
    apply (checked_ensures (ensures_true _)).bind
    intro cache _
    exact hloop _ _ h
  · exact hloop true st h

/-- The chunks of a segment leave the buffer one by one, in the order in which they came. -/
theorem indexUpdateMemory_ensures (h : m.Represents (segment ++ rest))
    (hchunks : List.Forall₂ (fun p c => p.1.SamePayload c ∧
      (c.isNormal = true → c.id ≠ temporaryId)) segment chunks) :
    Ensures (fun _ => False) (fun m' => m'.Represents rest) (indexUpdateMemory m chunks) := by
  rw [indexUpdateMemory]
  induction hchunks generalizing m with
  | nil => exact h
  | @cons p c segment chunks hpc _ ih =>
      obtain ⟨c₀, elem⟩ := p
      obtain ⟨hsame, hid⟩ := hpc
      have howned := h.owned _ List.mem_cons_self
      cases elem with
      | none =>
          have hsignal : c.isNormal = false := by
            rw [hsame.normal_eq]
            exact howned.symm
          have hstep : updateChunkMemory m c = .ok m := by
            rw [updateChunkMemory, if_neg (by simp [hsignal])]
          rw [foldE, hstep]
          exact ih h.skip
      | some a =>
          have hnormal : c.isNormal = true := by
            rw [hsame.normal_eq]
            exact howned.symm
          obtain ⟨m', hstep, hm'⟩ := h.pop hnormal hsame.fp_eq (hid hnormal)
          rw [foldE, hstep]
          exact ih hm'

theorem bufferRun_step_ensures (h : r.state.memory.Represents r.pending) {call : BufferRun.Call}
    (hcall : r.InOrder call) :
    Ensures BufferFault.IsCheck (fun r' => r'.state.memory.Represents r'.pending)
      (r.step cfg call) := by
  cases call with
  | lookup alloc threshold source storage s =>
      rw [BufferRun.step]
      split
      · exact h
      · apply (indexLookupMemory_ensures h s).bind
        intro out hout
        show out.1.memory.Represents (r.segments ++ [out.2]).flatten
        rw [List.flatten_append, List.flatten_singleton]
        exact hout
  | update chunks =>
      obtain ⟨segment, rest, hsegments, hchunks⟩ := hcall
      rw [BufferRun.pending, hsegments, List.flatten_cons] at h
      have hupdate : Ensures BufferFault.IsCheck (fun m' => m'.Represents rest.flatten)
          (indexUpdateMemory r.state.memory chunks) :=
        (indexUpdateMemory_ensures h hchunks).mono (fun _ hfalse => hfalse.elim) fun _ hm => hm
      apply hupdate.bind
      intro m' hm'
      show m'.Represents r.segments.tail.flatten
      rw [hsegments]
      exact hm'

private theorem nodup_elementsOf (h : m.Represents pending) (fp : Fingerprint) :
    (elementsOf fp pending).Nodup := by
  have hfilter : elementsOf fp pending =
      (pending.filter fun p => decide (p.1.fp = fp)).filterMap Prod.snd := by
    rw [List.filterMap_filter]
    simp only [elementsOf, decide_eq_true_eq]
  rw [hfilter]
  exact h.nodup.sublist (List.filter_sublist.filterMap _)

private theorem values_eq {fps : List Fingerprint} {entries : List (Entry (List Nat))}
    (htable : List.Forall₂ (EntryOf pending) fps entries) :
    entries.map Entry.value = fps.map fun fp => elementsOf fp pending := by
  induction htable with
  | nil => rfl
  | cons he _ ih => rw [List.map_cons, List.map_cons, he.queue, ih]

/-- The queues hold as many elements as there are pending chunks. -/
theorem BufferMemory.Represents.total (h : m.Represents pending) :
    m.chunkNum = (m.bufferedFingerprints.map fun e => e.value.length).sum := by
  obtain ⟨fps, hnodup, htable, hcover⟩ := h.table
  have hperm : (fps.flatMap fun fp => elementsOf fp pending).Perm
      (pending.filterMap Prod.snd) := by
    apply (List.perm_ext_iff_of_nodup ?_ h.nodup).mpr
    · intro a
      rw [List.mem_flatMap, List.mem_filterMap]
      constructor
      · rintro ⟨fp, -, ha⟩
        obtain ⟨p, hp, hsome, -⟩ := mem_elementsOf.mp ha
        exact ⟨p, hp, hsome⟩
      · rintro ⟨p, hp, hsome⟩
        have hnormal : p.1.isNormal = true := by
          rw [← h.owned p hp, hsome]
          rfl
        exact ⟨p.1.fp, hcover p hp hnormal, mem_elementsOf.mpr ⟨p, hp, hsome, rfl⟩⟩
    · apply List.nodup_flatMap.mpr
      refine ⟨fun fp _ => nodup_elementsOf h fp, hnodup.imp fun {fp fp'} hne => ?_⟩
      intro a ha ha'
      obtain ⟨p, hp, hsome, rfl⟩ := mem_elementsOf.mp ha
      obtain ⟨p', hp', hsome', rfl⟩ := mem_elementsOf.mp ha'
      have hsame := (h.live p hp a hsome).symm.trans (h.live p' hp' a hsome')
      exact hne (Option.some.inj hsame)
  have hsum : (m.bufferedFingerprints.map fun e => e.value.length) =
      fps.map fun fp => (elementsOf fp pending).length := by
    have hvalues := congrArg (List.map List.length) (values_eq htable)
    rwa [List.map_map, List.map_map] at hvalues
  have hcount : pending.countP (fun p => p.1.isNormal) = (pending.filterMap Prod.snd).length := by
    rw [List.length_filterMap_eq_countP]
    apply List.countP_congr
    intro p hp
    rw [h.owned p hp]
  rw [h.chunkNum, hsum, hcount, ← hperm.length_eq, List.length_flatMap]

end Steps

/-- However lookups and updates interleave, as long as the segments are updated in the order in which
they were looked up: the counter counts the elements of all queues; each queue has the elements of the
pending chunks with one fingerprint, in stream order, and the key of its entry is in the last of them,
which is allocated; and the next call fails at most at a check of the code. -/
theorem index_buffer_representation {cfg : Config} {cache : LruCache CacheUnit}
    {calls : List BufferRun.Call} {r : BufferRun}
    (h : Run (BufferRun.step cfg) BufferRun.InOrder
      { state := { memory := .initial, cache := cache }, segments := [] } calls r) :
    r.state.memory.Represents r.pending ∧
      r.state.memory.chunkNum =
        (r.state.memory.bufferedFingerprints.map fun e => e.value.length).sum ∧
      (∀ e ∈ r.state.memory.bufferedFingerprints, ∃ fp, EntryOf r.pending fp e ∧
        r.state.memory.fpAt e.key = some fp) ∧
      ∀ call, r.InOrder call → Ensures BufferFault.IsCheck
        (fun r' => r'.state.memory.Represents r'.pending) (r.step cfg call) := by
  have hr : r.state.memory.Represents r.pending :=
    h.invariant (fun r => r.state.memory.Represents r.pending) BufferMemory.represents_initial
      fun r call hr hcall => bufferRun_step_ensures hr hcall
  refine ⟨hr, hr.total, ?_, fun call hcall => bufferRun_step_ensures hr hcall⟩
  intro e he
  obtain ⟨fps, -, htable, -⟩ := hr.table
  obtain ⟨fp, -, hentry⟩ := Library.RelatedLists.mem_forall₂_right htable he
  exact ⟨fp, hentry, hr.fpAt_key hentry⟩

section Example

instance (c c' : Chunk) : Decidable (c.SamePayload c') :=
  decidable_of_iff (c'.fp = c.fp ∧ c'.size = c.size ∧ c'.data = c.data ∧
      c'.flag.fileStart = c.flag.fileStart ∧ c'.flag.fileEnd = c.flag.fileEnd)
    ⟨fun h => ⟨h.1, h.2.1, h.2.2.1, h.2.2.2⟩, fun h => ⟨h.1, h.2, h.3, h.4⟩⟩

instance (r : BufferRun) : (call : BufferRun.Call) → Decidable (r.InOrder call)
  | .lookup _ _ _ _ _ => isTrue trivial
  | .update chunks =>
      decidable_of_iff (∃ segment ∈ r.segments.head?, segment.length = chunks.length ∧
          ∀ pc ∈ segment.zip chunks,
            pc.1.1.SamePayload pc.2 ∧ (pc.2.isNormal = true → pc.2.id ≠ temporaryId)) (by
        constructor
        · rintro ⟨segment, hhead, hlen, hzip⟩
          obtain ⟨rest, hsegments⟩ := List.head?_eq_some_iff.mp hhead
          exact ⟨segment, rest, hsegments, List.forall₂_iff_zip.mpr ⟨hlen, fun hin => hzip _ hin⟩⟩
        · rintro ⟨segment, rest, hsegments, hchunks⟩
          obtain ⟨hlen, hzip⟩ := List.forall₂_iff_zip.mp hchunks
          exact ⟨segment, List.head?_eq_some_iff.mpr ⟨rest, hsegments⟩, hlen,
            fun _ hin => hzip hin⟩)

def nextAddress : Allocator where
  malloc used := used.foldr max 0 + 1
  fresh := fun _ h => Nat.not_succ_le_self _ (List.le_max_of_le' 0 h (Nat.le_refl _))

private def chunkOf (id : Int) (fill : UInt8) : Chunk :=
  { newChunk 10 with id := id, fp := Fingerprint.fill fill }

private def emptySource : IndexSource :=
  { pool := { containers := ∅, containerCount := 0 }, backups := [], current := createBackupVersion 0,
    kv := ∅ }

/-- A segment of two chunks, a copy of the first of them, and the update of the first segment. -/
private def copyCalls : List BufferRun.Call :=
  [.lookup nextAddress 0 emptySource none
      { chunkNum := 2, chunks := [chunkOf temporaryId 1, chunkOf temporaryId 2] },
    .lookup nextAddress 0 emptySource none { chunkNum := 1, chunks := [chunkOf temporaryId 1] },
    .update [chunkOf 7 1, chunkOf 7 2]]

private def copyRun : Option BufferRun :=
  exec (BufferRun.step (smallConfig .exact .physical)) (fun r call => decide (r.InOrder call))
    { state := { memory := .initial, cache := .newLruCache 1 }, segments := [] } copyCalls

private theorem copyRun_isSome : copyRun.isSome = true := by decide +kernel

/-- The copy is left, alone in its queue, and the key lies in its element. -/
theorem index_buffer_representation_copy : ∃ r : BufferRun,
    r.state.memory.bufferedFingerprints = [{ key := 3, value := [3] }] ∧
      r.state.memory.elems.lookup 3 = some { id := 7, fp := Fingerprint.fill 1 } ∧
      r.state.memory.Represents r.pending := by
  have hrun := Run.of_exec (fun _ _ h => of_decide_eq_true h) (Option.some_get copyRun_isSome).symm
  exact ⟨_, by decide +kernel, by decide +kernel, (index_buffer_representation hrun).1⟩

end Example

end Destor
