/- digest: Threads in a row, each reading what the one before it pushes through a bounded queue: every
   interleaving ends, and ends as the threads do one after another. -/

import Destor.Library.Outcome

set_option autoImplicit false
set_option relaxedAutoImplicit false

namespace Destor.Library.ThreadChain

open Library.Outcome

variable {σ α : Type}

/-- What a thread does next. Its next pop may find that the queue has ended. A thread that halts ends
the queue that it pushes to; one that fails stays where it is. -/
inductive Act (σ α : Type) where
  | work (next : σ)
  | pop (next : Option α → σ)
  | push (item : α) (next : σ)
  | halt
  | fail

/-- A thread with the queue that it reads; `closed` once nothing more will be pushed to the queue. -/
structure Stage (σ α : Type) where
  thread : σ
  ended : Bool
  queue : List α
  closed : Bool
  capacity : Nat
  capacity_pos : 0 < capacity

section Steps

variable (act : σ → Act σ α)

/-- A push to the queue of the next thread, which may be full. Behind the last thread there is room for
all `results`. -/
def offer (item : α) : List (Stage σ α) → List α → Option (List (Stage σ α) × List α)
  | [], results => some ([], results ++ [item])
  | st :: stages, results =>
      if st.queue.length < st.capacity then
        some ({ st with queue := st.queue ++ [item] } :: stages, results)
      else none

/-- The end of the queue of the next thread. -/
def shut : List (Stage σ α) → List (Stage σ α)
  | [] => []
  | st :: stages => { st with closed := true } :: stages

/-- An action of the first thread of a row. -/
def perform (st : Stage σ α) (stages : List (Stage σ α)) (results : List α) :
    Act σ α → Option (List (Stage σ α) × List α)
  | .work next => some ({ st with thread := next } :: stages, results)
  | .pop next =>
      match st.queue with
      | x :: queue => some ({ st with thread := next (some x), queue := queue } :: stages, results)
      | [] => if st.closed then some ({ st with thread := next none } :: stages, results) else none
  | .push item next =>
      (offer item stages results).map fun r => ({ st with thread := next } :: r.1, r.2)
  | .halt => some ({ st with ended := true } :: shut stages, results)
  | .fail => none

def advanceFirst (st : Stage σ α) (stages : List (Stage σ α)) (results : List α) :
    Option (List (Stage σ α) × List α) :=
  if st.ended then none else perform st stages results (act st.thread)

/-- The next action of the `i`-th thread of a row, if it does not wait. -/
def advanceAt : Nat → List (Stage σ α) → List α → Option (List (Stage σ α) × List α)
  | _, [], _ => none
  | 0, st :: stages, results => advanceFirst act st stages results
  | i + 1, st :: stages, results =>
      (advanceAt i stages results).map fun r => (st :: r.1, r.2)

/-- A thread alone, on a stream that is there as a whole and then ends: it reads all of it, pushes
`outputs`, and halts in the state `final` after `n` actions, which it does not do before it has found the
end; `eof` tells that it knows it. -/
inductive Solo : Bool → σ → List α → List α → σ → Nat → Prop
  | halt {s : σ} (h : act s = .halt) : Solo true s [] [] s 1
  | work {eof : Bool} {s next final : σ} {inputs outputs : List α} {n : Nat}
      (h : act s = .work next) (rest : Solo eof next inputs outputs final n) :
      Solo eof s inputs outputs final (n + 1)
  | push {eof : Bool} {s next final : σ} {item : α} {inputs outputs : List α} {n : Nat}
      (h : act s = .push item next) (rest : Solo eof next inputs outputs final n) :
      Solo eof s inputs (item :: outputs) final (n + 1)
  | pop {eof : Bool} {s final : σ} {next : Option α → σ} {x : α} {inputs outputs : List α} {n : Nat}
      (h : act s = .pop next) (rest : Solo eof (next (some x)) inputs outputs final n) :
      Solo eof s (x :: inputs) outputs final (n + 1)
  | eof {eof : Bool} {s final : σ} {next : Option α → σ} {outputs : List α} {n : Nat}
      (h : act s = .pop next) (rest : Solo true (next none) [] outputs final n) :
      Solo eof s [] outputs final (n + 1)

inductive Serial : Bool → List σ → List α → List α → List σ → Nat → Prop
  | nil (eof : Bool) (stream : List α) : Serial eof [] stream stream [] 0
  | cons {eof : Bool} {s final : σ} {threads finals : List σ} {inputs outputs results : List α}
      {n m : Nat} (solo : Solo act eof s inputs outputs final n)
      (rest : Serial false threads outputs results finals m) :
      Serial eof (s :: threads) inputs results (final :: finals) (n + m)

/-- What the row still has to do: `pending` will be pushed to its first queue, which is closed or not.
It will have pushed `results` and have its threads at `finals` after `n` more actions. -/
inductive Flow (out : List α) : List α → Bool → List (Stage σ α) → List α → List σ → Nat → Prop
  | nil (pending : List α) (closed : Bool) : Flow out pending closed [] (out ++ pending) [] 0
  | running {st : Stage σ α} {stages : List (Stage σ α)} {pending outputs results : List α}
      {closed eof : Bool} {finals : List σ} {final : σ} {n m : Nat} (hended : st.ended = false)
      (hclosed : st.closed = closed) (hpending : closed = true → pending = [])
      (heof : eof = true → closed = true)
      (solo : Solo act eof st.thread (st.queue ++ pending) outputs final n)
      (rest : Flow out outputs false stages results finals m) :
      Flow out pending closed (st :: stages) results (final :: finals) (n + m)
  | ended {st : Stage σ α} {stages : List (Stage σ α)} {results : List α} {finals : List σ} {m : Nat}
      (hended : st.ended = true) (hclosed : st.closed = true) (hqueue : st.queue = [])
      (rest : Flow out [] true stages results finals m) :
      Flow out [] true (st :: stages) results (st.thread :: finals) m

end Steps

section Preservation

variable {act : σ → Act σ α} {out out' pending results : List α} {closed eof : Bool}
  {st : Stage σ α} {stages stages' : List (Stage σ α)} {finals : List σ} {n : Nat} {item : α}

/-- A row at its start. -/
theorem Serial.flow {threads : List σ} {inputs : List α}
    (h : Serial act eof threads inputs results finals n) (hthreads : stages.map Stage.thread = threads)
    (hstages : ∀ st ∈ stages, st.ended = false ∧ st.queue = [])
    (hclosed : ∀ st ∈ stages.head?, st.closed = closed) (hinputs : closed = true → inputs = [])
    (heof : eof = true → closed = true) (hopen : ∀ st ∈ stages.tail, st.closed = false) :
    Flow act [] inputs closed stages results finals n := by
  induction h generalizing stages closed with
  | nil eof stream =>
      rw [List.map_eq_nil_iff] at hthreads
      subst hthreads
      exact .nil stream closed
  | @cons eof s final threads finals inputs outputs results n m solo _ ih =>
      obtain ⟨st, stages, rfl, rfl, hrest⟩ := List.map_eq_cons_iff.mp hthreads
      obtain ⟨⟨hended, hqueue⟩, hstages⟩ := List.forall_mem_cons.mp hstages
      have hflow := ih hrest hstages (fun st hst => hopen st (List.mem_of_mem_head? hst))
        (fun h => absurd h Bool.false_ne_true) id fun st hst => hopen st (List.mem_of_mem_tail hst)
      have hsolo : Solo act eof st.thread (st.queue ++ inputs) outputs final n := by
        rw [hqueue]
        exact solo
      exact .running hended (hclosed st rfl) hinputs heof hsolo hflow

theorem Flow.offered (h : Flow act out (item :: pending) false stages results finals n)
    (hoffer : offer item stages out = some (stages', out')) :
    Flow act out' pending false stages' results finals n := by
  cases h with
  | nil =>
      cases hoffer
      rw [List.append_cons out item pending]
      exact .nil pending false
  | @running st _ _ _ _ _ _ _ _ _ _ hended hclosed _ heof solo rest =>
      rw [offer] at hoffer
      split at hoffer
      · cases hoffer
        rw [List.append_cons] at solo
        exact .running hended hclosed (fun h => absurd h Bool.false_ne_true) heof solo rest
      · cases hoffer

/-- When nothing is pending the queue may be closed. -/
theorem Flow.shut (h : Flow act out [] closed stages results finals n) :
    Flow act out [] true (shut stages) results finals n := by
  cases h with
  | nil => exact .nil [] true
  | running hended _ _ _ solo rest => exact .running hended rfl (fun _ => rfl) (fun _ => rfl) solo rest
  | @ended st _ _ _ _ hended _ hqueue rest =>
      let shut : Stage σ α := { st with closed := true }
      have hflow : Flow act out [] true (shut :: _) _ (shut.thread :: _) _ :=
        .ended hended rfl hqueue rest
      exact hflow

/-- A thread that has not ended takes the action that it is at. -/
theorem advanceFirst_of_running {a : Act σ α} (hended : st.ended = false) (hact : act st.thread = a) :
    advanceFirst act st stages out = perform st stages out a := by
  rw [advanceFirst, if_neg (by rw [hended]; exact Bool.false_ne_true), hact]

/-- A pop takes the first item, or finds that the queue has ended. -/
theorem perform_pop {next : Option α → σ} {r : List (Stage σ α) × List α}
    (h : perform st stages out (.pop next) = some r) :
    (∃ x queue, st.queue = x :: queue ∧
      r = ({ st with thread := next (some x), queue := queue } :: stages, out)) ∨
    st.queue = [] ∧ st.closed = true ∧ r = ({ st with thread := next none } :: stages, out) := by
  rw [perform] at h
  split at h
  · rename_i x queue hqueue
    exact .inl ⟨x, queue, hqueue, (Option.some.inj h).symm⟩
  · rename_i hqueue
    split at h
    · rename_i hend
      exact .inr ⟨hqueue, hend, (Option.some.inj h).symm⟩
    · cases h

/-- An action of the first thread is one of the actions that it takes alone. -/
theorem Flow.advancedFirst (h : Flow act out pending closed (st :: stages) results finals n)
    (hstep : advanceFirst act st stages out = some (stages', out')) :
    ∃ m, n = m + 1 ∧ Flow act out' pending closed stages' results finals m := by
  cases h with
  | ended hended =>
      rw [advanceFirst, if_pos hended] at hstep
      cases hstep
  | @running _ _ _ outputs _ _ _ finals final n m hended hclosed hpending heof solo rest =>
      generalize hinputs : st.queue ++ pending = inputs at solo
      cases solo with
      | halt hact =>
          rw [advanceFirst_of_running hended hact] at hstep
          cases hstep
          obtain ⟨hqueue, rfl⟩ := List.append_eq_nil_iff.mp hinputs
          obtain rfl : closed = true := heof rfl
          refine ⟨m, Nat.add_comm 1 m, ?_⟩
          let halted : Stage σ α := { st with ended := true }
          have hhalted : Flow act out [] true (halted :: _) _ (halted.thread :: _) _ :=
            .ended rfl hclosed hqueue rest.shut
          exact hhalted
      | @work _ _ _ _ _ _ k hact solo =>
          rw [advanceFirst_of_running hended hact] at hstep
          cases hstep
          subst hinputs
          exact ⟨k + m, by omega, .running hended hclosed hpending heof solo rest⟩
      | @push _ _ _ _ _ _ _ k hact solo =>
          rw [advanceFirst_of_running hended hact] at hstep
          obtain ⟨⟨stages₁, out₁⟩, hoffer, heq⟩ := Option.map_eq_some_iff.mp hstep
          cases heq
          subst hinputs
          exact ⟨k + m, by omega, .running hended hclosed hpending heof solo (rest.offered hoffer)⟩
      | @pop _ _ _ _ _ inputs _ k hact solo =>
          rw [advanceFirst_of_running hended hact] at hstep
          rcases perform_pop hstep with ⟨y, queue, hqueue, heq⟩ | ⟨hqueue, hend, -⟩
          · rw [hqueue] at hinputs
            cases heq
            obtain ⟨rfl, rfl⟩ := List.cons.inj hinputs
            exact ⟨k + m, by omega, .running hended hclosed hpending heof solo rest⟩
          · rw [hqueue, hpending (hclosed.symm.trans hend)] at hinputs
            cases hinputs
      | @eof _ _ _ _ _ k hact solo =>
          rw [advanceFirst_of_running hended hact] at hstep
          rcases perform_pop hstep with ⟨y, queue, hqueue, -⟩ | ⟨-, hend, heq⟩
          · rw [hqueue] at hinputs
            cases hinputs
          · cases heq
            rw [← hinputs] at solo
            have hclosed' : closed = true := hclosed.symm.trans hend
            exact ⟨k + m, by omega, .running hended hclosed hpending (fun _ => hclosed') solo rest⟩

/-- Each action of a row is one less to come. -/
theorem Flow.advanced {i : Nat} (h : Flow act out pending closed stages results finals n)
    (hstep : advanceAt act i stages out = some (stages', out')) :
    ∃ m, n = m + 1 ∧ Flow act out' pending closed stages' results finals m := by
  induction stages generalizing i pending closed finals n stages' with
  | nil => cases i <;> cases hstep
  | cons st stages ih =>
      cases i with
      | zero => exact h.advancedFirst hstep
      | succ i =>
          obtain ⟨⟨stages₁, out₁⟩, hnext, heq⟩ := Option.map_eq_some_iff.mp hstep
          cases heq
          cases h with
          | @running _ _ _ _ _ _ _ _ _ n m hended hclosed hpending heof solo rest =>
              obtain ⟨m', rfl, hflow⟩ := ih rest hnext
              exact ⟨n + m', (Nat.add_assoc n m' 1).symm,
                .running hended hclosed hpending heof solo hflow⟩
          | ended hended hclosed hqueue rest =>
              obtain ⟨m', rfl, hflow⟩ := ih rest hnext
              exact ⟨m', rfl, .ended hended hclosed hqueue hflow⟩

theorem shut_capacity (stages : List (Stage σ α)) :
    (shut stages).map Stage.capacity = stages.map Stage.capacity := by
  cases stages <;> rfl

theorem offer_capacity (hoffer : offer item stages out = some (stages', out')) :
    stages'.map Stage.capacity = stages.map Stage.capacity := by
  cases stages with
  | nil =>
      cases hoffer
      rfl
  | cons st stages =>
      rw [offer] at hoffer
      split at hoffer
      · cases hoffer
        rfl
      · cases hoffer

/-- No action changes the size of a queue. -/
theorem advanceAt_capacity {i : Nat} (hstep : advanceAt act i stages out = some (stages', out')) :
    stages'.map Stage.capacity = stages.map Stage.capacity := by
  induction stages generalizing i stages' with
  | nil => cases i <;> cases hstep
  | cons st stages ih =>
      cases i with
      | succ i =>
          obtain ⟨⟨stages₁, out₁⟩, hnext, heq⟩ := Option.map_eq_some_iff.mp hstep
          cases heq
          rw [List.map_cons, List.map_cons, ih hnext]
      | zero =>
          rw [advanceAt, advanceFirst] at hstep
          split at hstep
          · cases hstep
          cases hact : act st.thread with
          | fail =>
              rw [hact] at hstep
              cases hstep
          | work next =>
              rw [hact] at hstep
              cases hstep
              rfl
          | halt =>
              rw [hact] at hstep
              cases hstep
              rw [List.map_cons, List.map_cons, shut_capacity]
          | push item next =>
              rw [hact] at hstep
              obtain ⟨⟨stages₁, out₁⟩, hoffer, heq⟩ := Option.map_eq_some_iff.mp hstep
              cases heq
              rw [List.map_cons, List.map_cons, offer_capacity hoffer]
          | pop next =>
              rw [hact] at hstep
              rcases perform_pop hstep with ⟨x, queue, -, heq⟩ | ⟨-, -, heq⟩ <;> cases heq <;> rfl

/-- An item can be pushed to a queue that is empty. -/
theorem offer_isSome (hempty : ∀ st ∈ stages.head?, st.queue = []) (item : α) (out : List α) :
    ∃ r, offer item stages out = some r := by
  cases stages with
  | nil => exact ⟨_, rfl⟩
  | cons st stages =>
      have hroom : st.queue.length < st.capacity := by
        rw [hempty st rfl]
        exact st.capacity_pos
      exact ⟨_, if_pos hroom⟩

theorem Flow.of_ended (h : Flow act out pending closed (st :: stages) results finals n)
    (hended : st.ended = true) : st.queue = [] ∧ closed = true := by
  cases h with
  | ended _ _ hqueue => exact ⟨hqueue, rfl⟩
  | running hrunning =>
      rw [hrunning] at hended
      cases hended

/-- The queue of the first thread is closed or not. -/
theorem Flow.closed_eq (h : Flow act out pending closed (st :: stages) results finals n) :
    st.closed = closed := by
  cases h with
  | ended _ hclosed => exact hclosed
  | running _ hclosed => exact hclosed

theorem Flow.length_eq (h : Flow act out pending closed stages results finals n) :
    stages.length = finals.length := by
  induction h with
  | nil => rfl
  | running _ _ _ _ _ _ ih | ended _ _ _ _ ih => exact congrArg (· + 1) ih

/-- A thread that ends alone is at no failure. -/
theorem Solo.ne_fail {s final : σ} {inputs outputs : List α}
    (h : Solo act eof s inputs outputs final n) : act s ≠ .fail := by
  intro hfail
  cases h with
  | halt hact | work hact | push hact | pop hact | eof hact => cases hfail.symm.trans hact

/-- What the threads behind the first one have to do. -/
theorem Flow.tail (h : Flow act out pending closed (st :: stages) results finals n) :
    ∃ pending' closed' results' finals' m, Flow act out pending' closed' stages results' finals' m := by
  cases h with
  | running _ _ _ _ _ rest => exact ⟨_, _, _, _, _, rest⟩
  | ended _ _ _ rest => exact ⟨_, _, _, _, _, rest⟩

theorem Flow.running_next (h : Flow act out pending closed (st :: stages) results finals n)
    (hended : st.ended = false) :
    act st.thread ≠ .fail ∧ ∀ st' ∈ stages.head?, st'.closed = false := by
  cases h with
  | ended h =>
      rw [hended] at h
      cases h
  | running _ _ _ _ solo rest =>
      refine ⟨solo.ne_fail, fun st' hst' => ?_⟩
      obtain ⟨stages, rfl⟩ := List.head?_eq_some_iff.mp hst'
      exact rest.closed_eq

/-- The first thread, where it does not wait for what is pushed to it, and what it pushes is taken. -/
theorem Solo.advances {inputs outputs : List α} {final : σ}
    (h : Solo act eof st.thread inputs outputs final n) (hended : st.ended = false)
    (hqueue : st.queue ≠ [] ∨ st.closed = true)
    (hroom : ∀ item, ∃ r, offer item stages out = some r) :
    ∃ r, advanceFirst act st stages out = some r := by
  have hpop : ∀ next, act st.thread = .pop next → ∃ r, advanceFirst act st stages out = some r := by
    intro next hact
    rw [advanceFirst_of_running hended hact, perform]
    cases hitems : st.queue with
    | cons x queue => exact ⟨_, rfl⟩
    | nil => exact ⟨_, if_pos (hqueue.resolve_left (not_not_intro hitems))⟩
  cases h with
  | pop hact => exact hpop _ hact
  | eof hact => exact hpop _ hact
  | halt hact =>
      rw [advanceFirst_of_running hended hact]
      exact ⟨_, rfl⟩
  | work hact =>
      rw [advanceFirst_of_running hended hact]
      exact ⟨_, rfl⟩
  | @push _ _ _ _ item _ _ _ hact =>
      obtain ⟨r, hoffer⟩ := hroom item
      rw [advanceFirst_of_running hended hact]
      exact ⟨_, Option.map_eq_some_iff.mpr ⟨r, hoffer, rfl⟩⟩

/-- Some thread goes on, unless all have ended, or the first one waits for what is pushed to it. -/
theorem Flow.progress (h : Flow act out pending closed stages results finals n) :
    (∃ i r, advanceAt act i stages out = some r) ∨ (∀ st ∈ stages, st.ended = true) ∨
      ∃ st ∈ stages.head?, st.queue = [] ∧ st.closed = false := by
  induction h with
  | nil => exact Or.inr (Or.inl fun st hst => absurd hst List.not_mem_nil)
  | @ended st stages _ _ _ hended _ _ rest ih =>
      rcases ih with ⟨i, r, hstep⟩ | hall | ⟨st', hst', -, hopen⟩
      · exact Or.inl ⟨i + 1, _, by rw [advanceAt, hstep]; rfl⟩
      · exact Or.inr (Or.inl (List.forall_mem_cons.mpr ⟨hended, hall⟩))
      · obtain ⟨stages, rfl⟩ := List.head?_eq_some_iff.mp hst'
        rw [rest.closed_eq] at hopen
        cases hopen
  | @running st stages pending outputs _ _ _ _ _ _ _ hended hclosed hpending _ solo rest ih =>
      by_cases hwaits : st.queue = [] ∧ st.closed = false
      · exact Or.inr (Or.inr ⟨st, rfl, hwaits⟩)
      have hqueue : st.queue ≠ [] ∨ st.closed = true := by
        rw [Classical.not_and_iff_not_or_not, Bool.not_eq_false] at hwaits
        exact hwaits
      -- where no thread behind it goes on, the queue that it pushes to is empty
      have hgoes : (∀ st' ∈ stages.head?, st'.queue = []) →
          ∃ i r, advanceAt act i (st :: stages) out = some r := fun hempty =>
        ⟨0, solo.advances hended hqueue fun item => offer_isSome hempty item out⟩
      rcases ih with ⟨i, r, hstep⟩ | hall | ⟨st', hst', hempty, -⟩
      · exact Or.inl ⟨i + 1, _, by rw [advanceAt, hstep]; rfl⟩
      · refine Or.inl (hgoes fun st' hst' => ?_)
        obtain ⟨stages, rfl⟩ := List.head?_eq_some_iff.mp hst'
        exact (rest.of_ended (hall st' List.mem_cons_self)).1
      · refine Or.inl (hgoes fun st'' hst'' => ?_)
        rw [Option.mem_unique hst'' hst']
        exact hempty

theorem Flow.all_ended (h : Flow act out pending closed stages results finals n)
    (hlast : ∀ st ∈ stages.getLast?, st.ended = true) : ∀ st ∈ stages, st.ended = true := by
  induction h with
  | nil => exact fun st hst => absurd hst List.not_mem_nil
  | @ended st stages _ _ _ hended _ _ _ ih =>
      refine List.forall_mem_cons.mpr ⟨hended, ih fun st' hst' => hlast st' ?_⟩
      rw [List.getLast?_cons, hst']
      rfl
  | @running st stages _ _ _ _ _ _ _ _ _ hended _ _ _ _ rest ih =>
      cases stages with
      | nil =>
          have hst := hlast st rfl
          rw [hended] at hst
          cases hst
      | cons st' stages =>
          have hall := ih fun st'' hst'' => hlast st'' hst''
          have hclosed := (rest.of_ended (hall st' List.mem_cons_self)).2
          cases hclosed

theorem Flow.finished (h : Flow act out pending closed stages results finals n)
    (hended : ∀ st ∈ stages, st.ended = true) (hpending : pending = []) :
    stages.map Stage.thread = finals ∧ out = results ∧ ∀ st ∈ stages, st.queue = [] := by
  induction h with
  | nil =>
      subst hpending
      exact ⟨rfl, (List.append_nil out).symm, fun st hst => absurd hst List.not_mem_nil⟩
  | @running st _ _ _ _ _ _ _ _ _ _ hrunning =>
      have hst := hended st List.mem_cons_self
      rw [hrunning] at hst
      cases hst
  | @ended st stages _ _ _ _ _ hqueue _ ih =>
      obtain ⟨hthreads, hout, hqueues⟩ := ih (fun st hst => hended st (List.mem_cons_of_mem _ hst)) rfl
      exact ⟨by rw [List.map_cons, hthreads], hout, List.forall_mem_cons.mpr ⟨hqueue, hqueues⟩⟩

end Preservation

section Maps

variable {τ : Type}

/-- An action of a thread whose states are states of another kind too. -/
def Act.map (f : σ → τ) : Act σ α → Act τ α
  | .work next => .work (f next)
  | .pop next => .pop fun x => f (next x)
  | .push item next => .push item (f next)
  | .halt => .halt
  | .fail => .fail

theorem Solo.map {act : σ → Act σ α} {act' : τ → Act τ α} {f : σ → τ}
    (hact : ∀ s, act' (f s) = (act s).map f) {eof : Bool} {s final : σ} {inputs outputs : List α}
    {n : Nat} (h : Solo act eof s inputs outputs final n) :
    Solo act' eof (f s) inputs outputs (f final) n := by
  induction h with
  | halt h => exact .halt (by rw [hact, h]; rfl)
  | work h _ ih => exact .work (by rw [hact, h]; rfl) ih
  | push h _ ih => exact .push (by rw [hact, h]; rfl) ih
  | pop h _ ih => exact .pop (by rw [hact, h]; rfl) ih
  | eof h _ ih => exact .eof (by rw [hact, h]; rfl) ih

end Maps

section Loops

variable {ε ρ : Type}

/-- A thread that pops items until the queue has ended: `body` is what it does with one, and `round` what
it does then, until nothing is left to be done. What it has pushed only grows. -/
structure Loop (ε ρ α : Type) where
  init : Except ε ρ
  body : ρ → α → Except ε ρ
  round : ρ → Except ε (Option ρ)
  pushed : ρ → List α
  body_pushed : ∀ s x s', body s x = .ok s' → pushed s <+: pushed s'
  round_pushed : ∀ s s', round s = .ok (some s') → pushed s <+: pushed s'

/-- Where such a thread is; the first `sent` of the items that it has to push are pushed. -/
inductive LoopState (ρ α : Type) where
  | starting
  | popping (s : ρ) (sent : Nat)
  | busy (s : ρ) (sent : Nat) (item : α)
  | ending (s : ρ) (sent : Nat)

namespace Loop

variable (l : Loop ε ρ α)

/-- The next action: what is not pushed yet comes first. -/
def act : LoopState ρ α → Act (LoopState ρ α) α
  | .starting =>
      match l.init with
      | .ok s => .work (.popping s 0)
      | .error _ => .fail
  | .popping s sent =>
      match (l.pushed s)[sent]? with
      | some item => .push item (.popping s (sent + 1))
      | none => .pop fun
          | some x => .busy s sent x
          | none => .ending s sent
  | .busy s sent x =>
      match l.body s x with
      | .ok s' => .work (.popping s' sent)
      | .error _ => .fail
  | .ending s sent =>
      match (l.pushed s)[sent]? with
      | some item => .push item (.ending s (sent + 1))
      | none =>
          match l.round s with
          | .ok (some s') => .work (.ending s' sent)
          | .ok none => .halt
          | .error _ => .fail

inductive Rounds : ρ → ρ → Prop
  | done {s : ρ} (h : l.round s = .ok none) : Rounds s s
  | next {s s' last : ρ} (h : l.round s = .ok (some s')) (rest : Rounds s' last) : Rounds s last

variable {l} {s s₁ last : ρ} {stream : List α}

theorem Rounds.pushed (h : l.Rounds s last) : l.pushed s <+: l.pushed last := by
  induction h with
  | done => exact List.prefix_refl _
  | next h _ ih => exact (l.round_pushed _ _ h).trans ih

theorem foldE_pushed (h : foldE l.body s stream = .ok s₁) : l.pushed s <+: l.pushed s₁ := by
  induction stream generalizing s with
  | nil =>
      cases h
      exact List.prefix_refl _
  | cons x stream ih =>
      obtain ⟨s', hbody, hrest⟩ := bind_ok_iff.mp h
      exact (l.body_pushed s x s' hbody).trans (ih hrest)

private theorem solo_push {σ : Type} {act : σ → Act σ α} {g : Nat → σ} {items inputs outputs : List α}
    {final : σ} {eof : Bool} {n sent : Nat}
    (hg : ∀ i item, items[i]? = some item → act (g i) = .push item (g (i + 1)))
    (hsent : sent ≤ items.length) (h : Solo act eof (g items.length) inputs outputs final n) :
    ∃ m, Solo act eof (g sent) inputs (items.drop sent ++ outputs) final m := by
  induction hleft : items.length - sent generalizing sent with
  | zero =>
      obtain rfl : sent = items.length := by omega
      rw [List.drop_length]
      exact ⟨n, h⟩
  | succ left ih =>
      have hlt : sent < items.length := by omega
      obtain ⟨m, hrest⟩ := ih hlt (by omega)
      refine ⟨m + 1, ?_⟩
      rw [List.drop_eq_getElem_cons hlt]
      exact .push (hg sent _ (List.getElem?_eq_getElem hlt)) hrest

private theorem drop_append_drop {items items' : List α} (h : items <+: items') {sent : Nat}
    (hsent : sent ≤ items.length) :
    items.drop sent ++ items'.drop items.length = items'.drop sent := by
  obtain ⟨rest, rfl⟩ := h
  rw [List.drop_append_of_le_length hsent, List.drop_left]

private theorem solo_popping {outputs inputs : List α} {final : LoopState ρ α} {eof : Bool}
    {n sent : Nat}
    (hsent : sent ≤ (l.pushed s).length)
    (h : Solo l.act eof (.popping s (l.pushed s).length) inputs outputs final n) :
    ∃ m, Solo l.act eof (.popping s sent) inputs ((l.pushed s).drop sent ++ outputs) final m := by
  refine solo_push (g := fun i => LoopState.popping s i) (fun i item hitem => ?_) hsent h
  simp only [act, hitem]

private theorem solo_ending {outputs inputs : List α} {final : LoopState ρ α} {eof : Bool}
    {n sent : Nat}
    (hsent : sent ≤ (l.pushed s).length)
    (h : Solo l.act eof (.ending s (l.pushed s).length) inputs outputs final n) :
    ∃ m, Solo l.act eof (.ending s sent) inputs ((l.pushed s).drop sent ++ outputs) final m := by
  refine solo_push (g := fun i => LoopState.ending s i) (fun i item hitem => ?_) hsent h
  simp only [act, hitem]

private theorem all_sent (items : List α) : items[items.length]? = none :=
  List.getElem?_eq_none (Nat.le_refl _)

theorem Rounds.solo (h : l.Rounds s last) {sent : Nat} (hsent : sent ≤ (l.pushed s).length) :
    ∃ n, Solo l.act true (.ending s sent) [] ((l.pushed last).drop sent)
      (.ending last (l.pushed last).length) n := by
  induction h generalizing sent with
  | @done s h =>
      have hhalt : l.act (.ending s (l.pushed s).length) = .halt := by
        simp only [act, all_sent, h]
      obtain ⟨n, hsolo⟩ := solo_ending hsent (.halt hhalt)
      rw [List.append_nil] at hsolo
      exact ⟨n, hsolo⟩
  | @next s s' last h rest ih =>
      have hround : l.act (.ending s (l.pushed s).length) = .work (.ending s' (l.pushed s).length) := by
        simp only [act, all_sent, h]
      obtain ⟨n, hrest⟩ := ih (l.round_pushed s s' h).length_le
      obtain ⟨m, hsolo⟩ := solo_ending hsent (.work hround hrest)
      rw [drop_append_drop ((l.round_pushed s s' h).trans rest.pushed) hsent] at hsolo
      exact ⟨m, hsolo⟩

private theorem solo_loop (hfold : foldE l.body s stream = .ok s₁) (hrounds : l.Rounds s₁ last)
    {sent : Nat} (hsent : sent ≤ (l.pushed s).length) :
    ∃ n, Solo l.act false (.popping s sent) stream ((l.pushed last).drop sent)
      (.ending last (l.pushed last).length) n := by
  have hpop : ∀ s, l.act (.popping s (l.pushed s).length) = .pop fun
      | some x => .busy s (l.pushed s).length x
      | none => .ending s (l.pushed s).length := by
    intro s
    simp only [act, all_sent]
  induction stream generalizing s sent with
  | nil =>
      obtain rfl : s = s₁ := Except.ok.inj hfold
      obtain ⟨n, hend⟩ := hrounds.solo (Nat.le_refl _)
      obtain ⟨m, hsolo⟩ := solo_popping hsent (.eof (hpop s) hend)
      rw [drop_append_drop hrounds.pushed hsent] at hsolo
      exact ⟨m, hsolo⟩
  | cons x stream ih =>
      obtain ⟨s', hbody, hrest⟩ := bind_ok_iff.mp hfold
      have hbusy : l.act (.busy s (l.pushed s).length x) =
          .work (.popping s' (l.pushed s).length) := by
        simp only [act, hbody]
      obtain ⟨n, hloop⟩ := ih hrest (l.body_pushed s x s' hbody).length_le
      obtain ⟨m, hsolo⟩ := solo_popping hsent (.pop (hpop s) (.work hbusy hloop))
      have hgrows := (foldE_pushed hfold).trans hrounds.pushed
      rw [drop_append_drop hgrows hsent] at hsolo
      exact ⟨m, hsolo⟩

theorem solo (hinit : l.init = .ok s) (hfold : foldE l.body s stream = .ok s₁)
    (hrounds : l.Rounds s₁ last) :
    ∃ n, Solo l.act false .starting stream (l.pushed last) (.ending last (l.pushed last).length) n := by
  have hstart : l.act .starting = .work (.popping s 0) := by simp only [act, hinit]
  obtain ⟨n, hloop⟩ := solo_loop hfold hrounds (Nat.zero_le _)
  exact ⟨n + 1, .work hstart hloop⟩

end Loop

end Loops

end Destor.Library.ThreadChain
