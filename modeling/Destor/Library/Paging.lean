/- digest: Demand paging: evicting the page whose next request lies farthest ahead is optimal. -/

import Mathlib.Data.Finset.Card

set_option autoImplicit false
set_option relaxedAutoImplicit false

namespace Destor.Library.Paging

variable {α : Type} [DecidableEq α] {k : Nat}

/-- A demand-fetching policy with `k` slots can serve the requests from the given cache with this
number of loads: a page is loaded only on a miss, and one is evicted only when the cache is full. -/
inductive Serves (k : Nat) : Finset α → List α → Nat → Prop
  | nil {cache : Finset α} : Serves k cache [] 0
  | hit {cache : Finset α} {x : α} {requests : List α} {n : Nat} (hx : x ∈ cache)
      (rest : Serves k cache requests n) : Serves k cache (x :: requests) n
  | load {cache : Finset α} {x : α} {requests : List α} {n : Nat} (hx : x ∉ cache)
      (room : cache.card < k) (rest : Serves k (insert x cache) requests n) :
      Serves k cache (x :: requests) (n + 1)
  | evict {cache : Finset α} {x victim : α} {requests : List α} {n : Nat} (hx : x ∉ cache)
      (full : cache.card = k) (hv : victim ∈ cache)
      (rest : Serves k (insert x (cache.erase victim)) requests n) :
      Serves k cache (x :: requests) (n + 1)

/-- The same with victims none of whose fellows is requested later. The index of a page that is
not requested any more is the number of requests. -/
inductive ServesFarthest (k : Nat) : Finset α → List α → Nat → Prop
  | nil {cache : Finset α} : ServesFarthest k cache [] 0
  | hit {cache : Finset α} {x : α} {requests : List α} {n : Nat} (hx : x ∈ cache)
      (rest : ServesFarthest k cache requests n) : ServesFarthest k cache (x :: requests) n
  | load {cache : Finset α} {x : α} {requests : List α} {n : Nat} (hx : x ∉ cache)
      (room : cache.card < k) (rest : ServesFarthest k (insert x cache) requests n) :
      ServesFarthest k cache (x :: requests) (n + 1)
  | evict {cache : Finset α} {x victim : α} {requests : List α} {n : Nat} (hx : x ∉ cache)
      (full : cache.card = k) (hv : victim ∈ cache)
      (farthest : ∀ y ∈ cache, requests.idxOf y ≤ requests.idxOf victim)
      (rest : ServesFarthest k (insert x (cache.erase victim)) requests n) :
      ServesFarthest k cache (x :: requests) (n + 1)

section Capacity

variable {cache cache' : Finset α} {x victim : α} {requests : List α} {n : Nat}

theorem card_insert_le_of_room (room : cache.card < k) : (insert x cache).card ≤ k :=
  (Finset.card_insert_le x cache).trans room

theorem card_insert_erase_le (hcard : cache.card ≤ k) (hv : victim ∈ cache) :
    (insert x (cache.erase victim)).card ≤ k := by
  have hle := Finset.card_insert_le x (cache.erase victim)
  have herase := Finset.card_erase_add_one hv
  omega

private theorem card_insert_sdiff_le (s t : Finset α) (x : α) :
    (insert x s \ t).card ≤ (s \ t).card + 1 := by
  refine (Finset.card_le_card fun y hy => ?_).trans (Finset.card_insert_le x (s \ t))
  obtain ⟨hyx, hyt⟩ := Finset.mem_sdiff.mp hy
  rcases Finset.mem_insert.mp hyx with rfl | hys
  · exact Finset.mem_insert_self y _
  · exact Finset.mem_insert_of_mem (Finset.mem_sdiff.mpr ⟨hys, hyt⟩)

private theorem exists_victim {other : Finset α} (full : cache.card = k)
    (hother : other.card ≤ k) (hin : x ∈ other) :
    ∃ v ∈ cache, other \ insert x (cache.erase v) ⊆ (other \ cache).erase x := by
  have hlt : (other.erase x).card < cache.card := by
    have hpos := Finset.card_erase_add_one hin
    omega
  obtain ⟨v, hv, hnot⟩ := Finset.exists_mem_notMem_of_card_lt_card hlt
  refine ⟨v, hv, fun y hy => ?_⟩
  obtain ⟨hyo, hyc⟩ := Finset.mem_sdiff.mp hy
  rw [Finset.mem_insert, not_or] at hyc
  have hyv : y ≠ v := fun h => hnot (h ▸ Finset.mem_erase.mpr ⟨hyc.1, hyo⟩)
  refine Finset.mem_erase.mpr ⟨hyc.1, Finset.mem_sdiff.mpr ⟨hyo, fun hmem => hyc.2 ?_⟩⟩
  exact Finset.mem_erase.mpr ⟨hyv, hmem⟩

/-- One request served beside another cache that has the page already: where the page is missing,
the load costs no more than what the caches then have in common. -/
private theorem serves_beside {other : Finset α} {m : Nat} (hother : other.card ≤ k)
    (hin : x ∈ other) (hcard : cache.card ≤ k)
    (rest : ∀ cache' : Finset α, cache'.card ≤ k →
      ∃ n ≤ m + (other \ cache').card, Serves k cache' requests n) :
    ∃ n ≤ m + (other \ cache).card, Serves k cache (x :: requests) n := by
  by_cases hx : x ∈ cache
  · obtain ⟨n, hn, hserves⟩ := rest cache hcard
    exact ⟨n, hn, .hit hx hserves⟩
  have hless := Finset.card_erase_add_one (Finset.mem_sdiff.mpr ⟨hin, hx⟩)
  rcases Nat.lt_or_ge cache.card k with room | full
  · obtain ⟨n, hn, hserves⟩ := rest (insert x cache) (card_insert_le_of_room room)
    have hsub : other \ insert x cache = (other \ cache).erase x := Finset.sdiff_insert other cache x
    rw [hsub] at hn
    exact ⟨n + 1, by omega, .load hx room hserves⟩
  · have hfull : cache.card = k := Nat.le_antisymm hcard full
    obtain ⟨v, hv, hsub⟩ := exists_victim hfull hother hin
    obtain ⟨n, hn, hserves⟩ := rest _ (card_insert_erase_le hcard hv)
    have hle := Finset.card_le_card hsub
    exact ⟨n + 1, by omega, .evict hx hfull hv hserves⟩

/-- A cache that lacks some pages of another one needs at most that many loads more. -/
theorem Serves.of_other {m : Nat} (h : Serves k cache requests m) (hcard : cache.card ≤ k)
    (cache' : Finset α) (hcard' : cache'.card ≤ k) :
    ∃ n ≤ m + (cache \ cache').card, Serves k cache' requests n := by
  induction h generalizing cache' with
  | nil => exact ⟨0, Nat.zero_le _, .nil⟩
  | hit hx _ ih => exact serves_beside hcard hx hcard' (ih hcard)
  | @load cache x requests m hx room _ ih =>
      have hnext := card_insert_le_of_room (x := x) room
      obtain ⟨n, hn, hserves⟩ :=
        serves_beside hnext (Finset.mem_insert_self x cache) hcard' (ih hnext)
      have hgrow := card_insert_sdiff_le cache cache' x
      exact ⟨n, by omega, hserves⟩
  | @evict cache x victim requests m hx full hv _ ih =>
      have hnext := card_insert_erase_le (x := x) (Nat.le_of_eq full) hv
      obtain ⟨n, hn, hserves⟩ := serves_beside hnext (Finset.mem_insert_self x _) hcard' (ih hnext)
      have hgrow := card_insert_sdiff_le (cache.erase victim) cache' x
      have hshrink := Finset.card_le_card
        (Finset.sdiff_subset_sdiff (Finset.erase_subset victim cache) (Finset.Subset.refl cache'))
      exact ⟨n, by omega, hserves⟩

end Capacity

section Exchange

variable {common cache : Finset α} {x : α} {requests : List α} {m n : Nat}

private theorem idxOf_cons_le {a b : α} (ha : x ≠ a) (hb : x ≠ b)
    (h : (x :: requests).idxOf a ≤ (x :: requests).idxOf b) :
    requests.idxOf a ≤ requests.idxOf b := by
  rw [List.idxOf_cons_ne _ ha, List.idxOf_cons_ne _ hb] at h
  exact Nat.le_of_succ_le_succ h

/-- The page requested next is the one that makes the difference: it costs the other cache a
load, after which that cache has at most one page more. -/
private theorem serves_soon {soon late : α} {other : Finset α} (hcard : other.card ≤ k)
    (hcard' : (insert soon common).card ≤ k) (hsub : other ⊆ insert soon (insert late common))
    (h : Serves k other requests m) :
    ∃ n ≤ m + 1, Serves k (insert soon common) (soon :: requests) n := by
  obtain ⟨n, hn, hserves⟩ := h.of_other hcard _ hcard'
  have hone : (other \ insert soon common).card ≤ 1 := by
    rw [← Finset.card_singleton late]
    apply Finset.card_le_card
    intro y hy
    obtain ⟨hyo, hyc⟩ := Finset.mem_sdiff.mp hy
    rw [Finset.mem_insert, not_or] at hyc
    have hmem := Finset.mem_insert.mp ((Finset.mem_insert.mp (hsub hyo)).resolve_left hyc.1)
    exact Finset.mem_singleton.mpr (hmem.resolve_right hyc.2)
  exact ⟨n, by omega, .hit (Finset.mem_insert_self soon common) hserves⟩

/-- Of two caches that differ in one page, the one with the page that is requested sooner needs no
more loads. -/
theorem Serves.exchange {soon late : α} (hsoon : soon ∉ common) (hlate : late ∉ common)
    (hcard : (insert late common).card ≤ k)
    (hle : requests.idxOf soon ≤ requests.idxOf late)
    (h : Serves k (insert late common) requests m) :
    ∃ n ≤ m, Serves k (insert soon common) requests n := by
  by_cases hne : soon = late
  · exact ⟨m, Nat.le_refl m, hne ▸ h⟩
  induction requests generalizing common m with
  | nil =>
      cases h
      exact ⟨0, Nat.le_refl 0, .nil⟩
  | cons x requests ih =>
      have hsame : (insert late common).card = (insert soon common).card := by
        rw [Finset.card_insert_of_notMem hsoon, Finset.card_insert_of_notMem hlate]
      have hcard' : (insert soon common).card ≤ k := hsame ▸ hcard
      by_cases hxs : x = soon
      · subst hxs
        cases h with
        | hit hx _ => exact absurd ((Finset.mem_insert.mp hx).resolve_right hsoon) hne
        | load _ room rest =>
            exact serves_soon (card_insert_le_of_room room) hcard' (Finset.Subset.refl _) rest
        | evict _ _ hv rest =>
            exact serves_soon (card_insert_erase_le hcard hv) hcard'
              (Finset.insert_subset_insert x (Finset.erase_subset _ _)) rest
      have hxl : x ≠ late := by
        intro hxl
        subst hxl
        rw [List.idxOf_cons_self, List.idxOf_cons_ne _ hxs] at hle
        exact absurd hle (Nat.not_succ_le_zero _)
      have hle' := idxOf_cons_le hxs hxl hle
      -- a page other than the two: both caches do the same with it
      have hsoon' : soon ∉ insert x common := by simp [Ne.symm hxs, hsoon]
      have hlate' : late ∉ insert x common := by simp [Ne.symm hxl, hlate]
      have hmiss : x ∉ insert late common → x ∉ insert soon common := by simp [hxs]
      cases h with
      | hit hx rest =>
          have hxc := (Finset.mem_insert.mp hx).resolve_left hxl
          obtain ⟨n, hn, hserves⟩ := ih hsoon hlate hcard hle' rest
          exact ⟨n, hn, .hit (Finset.mem_insert_of_mem hxc) hserves⟩
      | load hx room rest =>
          have hcomm := Finset.insert_comm x late common
          rw [hcomm] at rest
          obtain ⟨n, hn, hserves⟩ := ih hsoon' hlate'
            (hcomm ▸ card_insert_le_of_room room) hle' rest
          rw [Finset.insert_comm] at hserves
          exact ⟨n + 1, Nat.succ_le_succ hn, .load (hmiss hx) (hsame ▸ room) hserves⟩
      | @evict _ _ victim _ m hx full hv rest =>
          by_cases hvl : victim = late
          · subst hvl
            rw [Finset.erase_insert hlate] at rest
            refine ⟨m + 1, Nat.le_refl _, .evict (hmiss hx) (hsame ▸ full)
              (Finset.mem_insert_self soon common) ?_⟩
            rwa [Finset.erase_insert hsoon]
          · have hvc := (Finset.mem_insert.mp hv).resolve_left hvl
            have hvs : soon ≠ victim := fun h => hsoon (h ▸ hvc)
            have hswap : insert x ((insert late common).erase victim) =
                insert late (insert x (common.erase victim)) := by
              rw [Finset.erase_insert_of_ne (Ne.symm hvl), Finset.insert_comm]
            have hless := Finset.erase_subset victim common
            have hcard₁ := card_insert_erase_le (x := x) hcard hv
            rw [hswap] at rest hcard₁
            obtain ⟨n, hn, hserves⟩ := ih
              (fun h => hsoon' (Finset.insert_subset_insert x hless h))
              (fun h => hlate' (Finset.insert_subset_insert x hless h)) hcard₁ hle' rest
            rw [Finset.insert_comm, ← Finset.erase_insert_of_ne hvs] at hserves
            exact ⟨n + 1, Nat.succ_le_succ hn, .evict (hmiss hx) (hsame ▸ full)
              (Finset.mem_insert_of_mem hvc) hserves⟩

/-- Evicting the page whose next request lies farthest ahead takes no more loads than any other
way of serving the same requests. -/
theorem ServesFarthest.le (h : ServesFarthest k cache requests n) (hcard : cache.card ≤ k)
    (h' : Serves k cache requests m) : n ≤ m := by
  induction h generalizing m with
  | nil => exact Nat.zero_le m
  | hit hx _ ih =>
      cases h' with
      | hit _ rest => exact ih hcard rest
      | load hx' => exact absurd hx hx'
      | evict hx' => exact absurd hx hx'
  | load hx room _ ih =>
      cases h' with
      | hit hx' => exact absurd hx' hx
      | load _ _ rest => exact Nat.succ_le_succ (ih (card_insert_le_of_room room) rest)
      | evict _ full => omega
  | @evict cache x victim requests n hx full hv farthest _ ih =>
      cases h' with
      | hit hx' => exact absurd hx' hx
      | load _ room => omega
      | @evict _ _ other _ m _ _ hother rest =>
          by_cases hne : other = victim
          · subst hne
            exact Nat.succ_le_succ (ih (card_insert_erase_le hcard hv) rest)
          -- what both keep, and the page that only the one or the other keeps
          have hkeep : ∀ {v w : α}, w ∈ cache → w ≠ v →
              insert x (cache.erase v) = insert w (insert x ((cache.erase v).erase w)) := by
            intro v w hw hwv
            rw [Finset.insert_comm, Finset.insert_erase (Finset.mem_erase.mpr ⟨hwv, hw⟩)]
          have hcard₁ := card_insert_erase_le (x := x) hcard hother
          rw [hkeep hv (Ne.symm hne)] at rest hcard₁
          have hout : ∀ {v w : α}, w ∈ cache → w ∉ insert x ((cache.erase v).erase w) := by
            intro v w hw hmem
            rcases Finset.mem_insert.mp hmem with rfl | hmem
            · exact hx hw
            · exact Finset.notMem_erase w _ hmem
          have hsoon := hout (v := victim) hother
          rw [Finset.erase_right_comm] at hsoon
          obtain ⟨n', hn', hserves⟩ :=
            rest.exchange hsoon (hout hv) hcard₁ (farthest other hother)
          rw [Finset.erase_right_comm, ← hkeep hother hne] at hserves
          exact Nat.succ_le_succ ((ih (card_insert_erase_le hcard hv) hserves).trans hn')

end Exchange

section Repetition

/-- The elements that differ from the one before them, `a` standing before the first. -/
def changes (a : α) : List α → List α
  | [] => []
  | x :: l => if a = x then changes a l else x :: changes x l

variable {a x : α} {l : List α}

@[simp] theorem changes_cons_self (a : α) (l : List α) : changes a (a :: l) = changes a l :=
  if_pos rfl

theorem changes_cons_of_ne (h : a ≠ x) (l : List α) : changes a (x :: l) = x :: changes x l :=
  if_neg h

theorem mem_of_mem_changes (h : x ∈ changes a l) : x ∈ l := by
  induction l generalizing a with
  | nil => cases h
  | cons y l ih =>
      by_cases hay : a = y
      · subst hay
        rw [changes_cons_self] at h
        exact List.mem_cons_of_mem a (ih h)
      · rw [changes_cons_of_ne hay] at h
        rcases List.mem_cons.mp h with rfl | h
        · exact List.mem_cons_self
        · exact List.mem_cons_of_mem y (ih h)

theorem changes_append (a : α) (l l' : List α) :
    changes a (l ++ l') =
      changes a l ++ changes ((a :: l).getLast (List.cons_ne_nil a l)) l' := by
  induction l generalizing a with
  | nil => rfl
  | cons y l ih =>
      rw [List.getLast_cons (List.cons_ne_nil y l), List.cons_append]
      by_cases hay : a = y
      · rw [hay, changes_cons_self, changes_cons_self, ih]
      · rw [changes_cons_of_ne hay, changes_cons_of_ne hay, ih, List.cons_append]

/-- One more element is a change unless it repeats the last one. -/
theorem changes_append_singleton (a : α) (l : List α) (x : α) :
    changes a (l ++ [x]) =
      changes a l ++ if (a :: l).getLast (List.cons_ne_nil a l) = x then [] else [x] := by
  rw [changes_append]
  rfl

/-- Serving a page again at once is free, so the repetitions may as well be left out. -/
theorem Serves.changes {cache : Finset α} {m : Nat} (ha : a ∈ cache ∨ l.head? ≠ some a)
    (h : Serves k cache l m) : Serves k cache (changes a l) m := by
  induction l generalizing cache a m with
  | nil => exact h
  | cons x l ih =>
      by_cases hax : a = x
      · subst hax
        have hin : a ∈ cache := ha.resolve_right (by simp)
        rw [changes_cons_self]
        cases h with
        | hit _ rest => exact ih (Or.inl hin) rest
        | load hx => exact absurd hin hx
        | evict hx => exact absurd hin hx
      · rw [changes_cons_of_ne hax]
        cases h with
        | hit hx rest => exact .hit hx (ih (Or.inl hx) rest)
        | load hx room rest =>
            exact .load hx room (ih (Or.inl (Finset.mem_insert_self x cache)) rest)
        | evict hx full hv rest =>
            exact .evict hx full hv (ih (Or.inl (Finset.mem_insert_self x _)) rest)

end Repetition

end Destor.Library.Paging
