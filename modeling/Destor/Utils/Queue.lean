/- digest: The linked list behind every queue, and the list of items it stands for. -/

import Mathlib.Data.List.Nodup
import Mathlib.Logic.Function.Basic

set_option autoImplicit false
set_option relaxedAutoImplicit false

namespace Destor

/-- `queue_ele_t`; a pointer is an address, `NULL` is `none`. -/
structure QueueEle (α : Type) where
  next : Option Nat
  data : α

/-- `Queue`, with the part of the heap that holds its elements. -/
structure Queue (α : Type) where
  first : Option Nat
  last : Option Nat
  elemNum : Nat
  heap : Nat → Option (QueueEle α)

section Operations

variable {α : Type}

def queueNew : Queue α := { first := none, last := none, elemNum := 0, heap := fun _ => none }

/-- `queue_push`, where `malloc` returned `item`; `none` is a dereference of `NULL` or of freed
memory. -/
def queuePush (q : Queue α) (item : Nat) (element : α) : Option (Queue α) :=
  let heap := Function.update q.heap item (some { next := none, data := element })
  match q.first with
  | none =>
      some { first := some item, last := some item, elemNum := q.elemNum + 1, heap := heap }
  | some _ => do
      let last ← q.last
      let ele ← heap last
      return { q with
        last := some item
        elemNum := q.elemNum + 1
        heap := Function.update heap last (some { ele with next := some item }) }

def queuePop (q : Queue α) : Option (Option α × Queue α) :=
  if q.elemNum = 0 then some (none, q)
  else do
    let item ← q.first
    let ele ← q.heap item
    return (some ele.data, {
      first := ele.next
      last := if q.last = some item then none else q.last
      elemNum := q.elemNum - 1
      heap := Function.update q.heap item none })

def queueTop (q : Queue α) : Option (Option α) :=
  if q.elemNum = 0 then some none
  else do
    let item ← q.first
    let ele ← q.heap item
    return some ele.data

def queueFindFrom (heap : Nat → Option (QueueEle α)) (hit : α → Bool) :
    Nat → Nat → Option (Option α)
  | 0, _ => none
  | n + 1, item => do
      let ele ← heap item
      if hit ele.data then return some ele.data
      else match ele.next with
        | none => return none
        | some next => queueFindFrom heap hit n next

def queueFind (q : Queue α) (hit : α → Bool) : Option (Option α) :=
  if q.elemNum = 0 then some none
  else do
    let item ← q.first
    queueFindFrom q.heap hit q.elemNum item

end Operations

section Contents

variable {α : Type}

/-- The elements reached from a pointer, with their addresses. -/
def Chain (heap : Nat → Option (QueueEle α)) : Option Nat → List (Nat × α) → Prop
  | p, [] => p = none
  | p, node :: nodes => p = some node.1 ∧
      ∃ next, heap node.1 = some { next := next, data := node.2 } ∧ Chain heap next nodes

/-- A queue whose pointers and counter agree on a list of elements. -/
structure Queue.Linked (q : Queue α) (nodes : List (Nat × α)) : Prop where
  chain : Chain q.heap q.first nodes
  nodup : (nodes.map Prod.fst).Nodup
  last_eq : q.last = nodes.getLast?.map Prod.fst
  num_eq : q.elemNum = nodes.length

def Queue.Holds (q : Queue α) (items : List α) : Prop :=
  ∃ nodes, q.Linked nodes ∧ nodes.map Prod.snd = items

variable {heap : Nat → Option (QueueEle α)} {p : Option Nat} {nodes : List (Nat × α)}
  {q : Queue α} {items : List α}

/-- A chain does not see a change at another address. -/
theorem Chain.update (h : Chain heap p nodes) {a : Nat} (ha : a ∉ nodes.map Prod.fst)
    (e : Option (QueueEle α)) : Chain (Function.update heap a e) p nodes := by
  induction nodes generalizing p with
  | nil => exact h
  | cons node nodes ih =>
      obtain ⟨hp, next, hnode, hrest⟩ := h
      rw [List.map_cons, List.mem_cons, not_or] at ha
      refine ⟨hp, next, ?_, ih hrest ha.2⟩
      rw [Function.update_of_ne (Ne.symm ha.1), hnode]

theorem Chain.fresh (h : Chain heap p nodes) {a : Nat} (ha : heap a = none) :
    a ∉ nodes.map Prod.fst := by
  induction nodes generalizing p with
  | nil => simp
  | cons node nodes ih =>
      obtain ⟨-, next, hnode, hrest⟩ := h
      rw [List.map_cons, List.mem_cons, not_or]
      refine ⟨?_, ih hrest⟩
      rintro rfl
      rw [ha] at hnode
      cases hnode

/-- Linking a new element behind the last one extends the chain. -/
theorem Chain.link {a : Nat} {x : α} {node : Nat × α} (h : Chain heap p (nodes ++ [node]))
    (hnodup : ((nodes ++ [node]).map Prod.fst).Nodup)
    (ha : heap a = some { next := none, data := x }) (hne : a ∉ (nodes ++ [node]).map Prod.fst) :
    Chain (Function.update heap node.1 (some { next := some a, data := node.2 })) p
      (nodes ++ [node] ++ [(a, x)]) := by
  induction nodes generalizing p with
  | nil =>
      obtain ⟨hp, -, -, -⟩ := h
      have hane : a ≠ node.1 := by simpa using hne
      refine ⟨hp, some a, Function.update_self .., rfl, none, ?_, rfl⟩
      rw [Function.update_of_ne hane, ha]
  | cons head nodes ih =>
      obtain ⟨hp, next, hhead, hrest⟩ := h
      rw [List.cons_append, List.map_cons, List.nodup_cons] at hnodup
      rw [List.cons_append, List.map_cons, List.mem_cons, not_or] at hne
      have hheadne : head.1 ≠ node.1 := by
        intro heq
        apply hnodup.1
        rw [heq]
        exact List.mem_map_of_mem (List.mem_append_right _ List.mem_cons_self)
      refine ⟨hp, next, ?_, ih hrest hnodup.2 hne.2⟩
      rw [Function.update_of_ne hheadne, hhead]

theorem queueNew_holds : (queueNew : Queue α).Holds [] :=
  ⟨[], ⟨rfl, List.nodup_nil, rfl, rfl⟩, rfl⟩

theorem Queue.Holds.size_eq (h : q.Holds items) : q.elemNum = items.length := by
  obtain ⟨nodes, hlinked, rfl⟩ := h
  rw [hlinked.num_eq, List.length_map]

/-- `queue_push` adds an item at the end. -/
theorem queuePush_holds (h : q.Holds items) {item : Nat} (hfresh : q.heap item = none)
    (element : α) :
    ∃ q', queuePush q item element = some q' ∧ q'.Holds (items ++ [element]) := by
  obtain ⟨nodes, hlinked, rfl⟩ := h
  have hout := hlinked.chain.fresh hfresh
  have hchain := hlinked.chain.update hout (some { next := none, data := element })
  rcases List.eq_nil_or_concat nodes with rfl | ⟨init, node, rfl⟩
  · have hfirst : q.first = none := hlinked.chain
    refine ⟨_, by rw [queuePush, hfirst], [(item, element)], ⟨?_, ?_, rfl, ?_⟩, rfl⟩
    · exact ⟨rfl, none, Function.update_self .., rfl⟩
    · simp
    · simp [hlinked.num_eq]
  · rw [List.concat_eq_append] at *
    have hlast : q.last = some node.1 := by
      rw [hlinked.last_eq]
      simp
    have hne : node.1 ≠ item := by
      rintro heq
      apply hout
      rw [← heq]
      exact List.mem_map_of_mem (List.mem_append_right _ List.mem_cons_self)
    have hfirst : ∃ a, q.first = some a := by
      cases init with
      | nil => exact ⟨_, hlinked.chain.1⟩
      | cons head init => exact ⟨_, hlinked.chain.1⟩
    obtain ⟨a, hfirst⟩ := hfirst
    have hnode : ∃ next, q.heap node.1 = some { next := next, data := node.2 } := by
      have hmem : ∀ (l : List (Nat × α)) (p : Option Nat), Chain q.heap p (l ++ [node]) →
          ∃ next, q.heap node.1 = some { next := next, data := node.2 } := by
        intro l
        induction l with
        | nil => exact fun p h => ⟨h.2.choose, h.2.choose_spec.1⟩
        | cons head l ih => exact fun p h => ih _ h.2.choose_spec.2
      exact hmem init _ hlinked.chain
    obtain ⟨next, hnode⟩ := hnode
    have hread : Function.update q.heap item (some { next := none, data := element }) node.1 =
        some { next := next, data := node.2 } := by
      rw [Function.update_of_ne hne, hnode]
    have hpush : queuePush q item element = some { q with
        last := some item
        elemNum := q.elemNum + 1
        heap := Function.update (Function.update q.heap item
          (some { next := none, data := element })) node.1
            (some { next := some item, data := node.2 }) } := by
      simp only [queuePush, hfirst, hlast, Option.bind_eq_bind, Option.bind_some, hread]
      rfl
    refine ⟨_, hpush, init ++ [node] ++ [(item, element)], ⟨?_, ?_, ?_, ?_⟩, ?_⟩
    · exact hchain.link hlinked.nodup (Function.update_self ..) hout
    · rw [List.map_append, List.nodup_append]
      refine ⟨hlinked.nodup, by simp, fun b hb c hc => ?_⟩
      rw [List.map_singleton, List.mem_singleton] at hc
      rintro rfl
      rw [hc] at hb
      exact hout hb
    · simp
    · simp [hlinked.num_eq]
    · simp

/-- `queue_pop` takes the first item. -/
theorem queuePop_holds {x : α} (h : q.Holds (x :: items)) :
    ∃ q', queuePop q = some (some x, q') ∧ q'.Holds items := by
  have hnum := h.size_eq
  obtain ⟨nodes, hlinked, hitems⟩ := h
  obtain ⟨node, nodes, rfl⟩ : ∃ node rest, nodes = node :: rest := by
    cases nodes with
    | nil => cases hitems
    | cons node rest => exact ⟨node, rest, rfl⟩
  rw [List.map_cons, List.cons.injEq] at hitems
  obtain ⟨rfl, rfl⟩ := hitems
  obtain ⟨hfirst, next, hnode, hrest⟩ := hlinked.chain
  have hnodup := hlinked.nodup
  rw [List.map_cons, List.nodup_cons] at hnodup
  have hpop : queuePop q = some (some node.2, {
      first := next
      last := if q.last = some node.1 then none else q.last
      elemNum := q.elemNum - 1
      heap := Function.update q.heap node.1 none }) := by
    rw [queuePop, if_neg (by rw [hnum]; exact Nat.succ_ne_zero _)]
    simp only [hfirst, Option.bind_eq_bind, Option.bind_some, hnode]
    rfl
  refine ⟨_, hpop, nodes, ⟨hrest.update hnodup.1 none, hnodup.2, ?_, ?_⟩, rfl⟩
  · have hlast := hlinked.last_eq
    simp only [hlast]
    cases nodes with
    | nil => simp
    | cons node' nodes =>
        have hne : ((node :: node' :: nodes).getLast?.map Prod.fst) ≠ some node.1 := by
          rw [List.getLast?_cons_cons]
          intro heq
          obtain ⟨m, hm, hfst⟩ := Option.map_eq_some_iff.mp heq
          apply hnodup.1
          rw [← hfst]
          exact List.mem_map_of_mem (List.mem_of_getLast? hm)
        rw [if_neg hne, List.getLast?_cons_cons]
  · simp [hlinked.num_eq]

/-- `queue_top` looks at the first item. -/
theorem queueTop_holds (h : q.Holds items) : queueTop q = some items.head? := by
  have hnum := h.size_eq
  cases items with
  | nil => exact if_pos hnum
  | cons x items =>
      obtain ⟨nodes, hlinked, hitems⟩ := h
      cases nodes with
      | nil => cases hitems
      | cons node nodes =>
          rw [List.map_cons, List.cons.injEq] at hitems
          obtain ⟨hfirst, next, hnode, -⟩ := hlinked.chain
          rw [queueTop, if_neg (by rw [hnum]; exact Nat.succ_ne_zero _)]
          simp only [hfirst, Option.bind_eq_bind, Option.bind_some, hnode, hitems.1]
          rfl

private theorem queueFindFrom_chain (hit : α → Bool) {node : Nat × α} {n : Nat}
    (h : Chain heap p (node :: nodes)) (hn : nodes.length < n) :
    queueFindFrom heap hit n node.1 = some (((node :: nodes).map Prod.snd).find? hit) := by
  induction nodes generalizing p node n with
  | nil =>
      obtain ⟨n, rfl⟩ : ∃ k, n = k + 1 := ⟨n - 1, by simp at hn; omega⟩
      obtain ⟨-, next, hnode, hnext⟩ := h
      have hnext : next = none := hnext
      simp only [queueFindFrom, hnode, hnext, Option.bind_eq_bind, Option.bind_some, List.map_cons,
        List.map_nil, List.find?_cons, List.find?_nil]
      split <;> simp_all
  | cons node' nodes ih =>
      obtain ⟨n, rfl⟩ : ∃ k, n = k + 1 := ⟨n - 1, by simp at hn; omega⟩
      obtain ⟨-, next, hnode, hrest⟩ := h
      have hnext : next = some node'.1 := hrest.1
      have hfind := ih hrest (n := n) (by simp at hn ⊢; omega)
      rw [List.map_cons, List.find?_cons]
      simp only [queueFindFrom, hnode, hnext, Option.bind_eq_bind, Option.bind_some]
      split
      · simp_all
      · simp_all

/-- `queue_find` returns the first item that meets the condition. -/
theorem queueFind_holds (h : q.Holds items) (hit : α → Bool) :
    queueFind q hit = some (items.find? hit) := by
  have hnum := h.size_eq
  cases items with
  | nil => exact if_pos hnum
  | cons x items =>
      obtain ⟨nodes, hlinked, hitems⟩ := h
      cases nodes with
      | nil => cases hitems
      | cons node nodes =>
          have hlt : nodes.length < q.elemNum := by
            rw [hlinked.num_eq]
            exact Nat.lt_succ_self _
          have hfind := queueFindFrom_chain hit hlinked.chain hlt
          rw [queueFind, if_neg (by rw [hnum]; exact Nat.succ_ne_zero _)]
          simp only [hlinked.chain.1, Option.bind_eq_bind, Option.bind_some, hfind, hitems]

end Contents

end Destor
