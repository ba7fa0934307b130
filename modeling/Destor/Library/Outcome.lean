/- digest: Partial-correctness rules for fallible programs and their loops over lists. -/

set_option autoImplicit false
set_option relaxedAutoImplicit false

namespace Destor.Library.Outcome

variable {ε σ α β : Type}

/-- `m` either returns a value with `Q` or fails with an error that `allowed` admits. -/
def Ensures (allowed : ε → Prop) (Q : α → Prop) : Except ε α → Prop
  | .ok a => Q a
  | .error e => allowed e

/-- Fails with `e` unless `c` holds: the embedding of an assertion. -/
def require (c : Prop) [Decidable c] (e : ε) : Except ε Unit :=
  if c then .ok () else .error e

/-- Runs `f` over a list, threading a state and collecting one result for each element. -/
def traverseE (f : σ → α → Except ε (σ × β)) : σ → List α → Except ε (σ × List β)
  | s, [] => .ok (s, [])
  | s, a :: l => do
      let (s', b) ← f s a
      let (s'', bs) ← traverseE f s' l
      return (s'', b :: bs)

/-- Runs `f` over a list, threading a state. -/
def foldE (f : σ → α → Except ε σ) : σ → List α → Except ε σ
  | s, [] => .ok s
  | s, a :: l => do
      let s' ← f s a
      foldE f s' l

section Rules

variable {allowed allowed' : ε → Prop} {P Q Q' : α → Prop}

@[simp] theorem ensures_ok (a : α) : Ensures allowed Q (.ok a : Except ε α) ↔ Q a := Iff.rfl

@[simp] theorem ensures_pure (a : α) : Ensures allowed Q (pure a : Except ε α) ↔ Q a := Iff.rfl

theorem Ensures.mono {m : Except ε α} (h : Ensures allowed Q m)
    (hallowed : ∀ e, allowed e → allowed' e) (hQ : ∀ a, Q a → Q' a) :
    Ensures allowed' Q' m := by
  cases m with
  | ok a => exact hQ a h
  | error e => exact hallowed e h

theorem Ensures.imp {m : Except ε α} (h : Ensures allowed Q m) (hQ : ∀ a, Q a → Q' a) :
    Ensures allowed Q' m :=
  h.mono (fun _ he => he) hQ

theorem Ensures.and {m : Except ε α} (h : Ensures allowed Q m) (h' : Ensures allowed Q' m) :
    Ensures allowed (fun a => Q a ∧ Q' a) m := by
  cases m with
  | ok a => exact ⟨h, h'⟩
  | error e => exact h

/-- The result of a program may also be named by its equation. -/
theorem Ensures.and_eq {m : Except ε α} (h : Ensures allowed Q m) :
    Ensures allowed (fun a => Q a ∧ m = .ok a) m := by
  cases m with
  | ok a => exact ⟨h, rfl⟩
  | error e => exact h

/-- Sequencing: what the first program ensures is what the second one starts from. -/
theorem Ensures.bind {R : β → Prop} {m : Except ε α} {f : α → Except ε β}
    (hm : Ensures allowed P m) (hf : ∀ a, P a → Ensures allowed R (f a)) :
    Ensures allowed R (m >>= f) := by
  cases m with
  | ok a => exact hf a hm
  | error e => exact hm

theorem ensures_require {c : Prop} [Decidable c] {e : ε} (h : c ∨ allowed e) :
    Ensures allowed (fun _ => c) (require c e) := by
  unfold require
  split
  · assumption
  · rcases h with hc | he
    · contradiction
    · exact he

theorem ensures_true (m : Except ε α) : Ensures (fun _ => True) (fun _ => True) m := by
  cases m <;> trivial

/-- Where every failure is allowed, only the results count. -/
theorem ensures_of_ok {m : Except ε α} (h : ∀ a, m = .ok a → Q a) :
    Ensures (fun _ => True) Q m := by
  cases m with
  | ok a => exact h a rfl
  | error e => trivial

theorem Ensures.of_ok {m : Except ε α} {a : α} (h : Ensures allowed Q m) (ha : m = .ok a) :
    Q a := by
  subst ha
  exact h

theorem Ensures.of_error {m : Except ε α} {e : ε} (h : Ensures allowed Q m)
    (he : m = .error e) : allowed e := by
  subst he
  exact h

end Rules

section Inversion

/-- A sequence succeeds exactly through a success of its first program. -/
theorem bind_ok_iff {m : Except ε α} {f : α → Except ε β} {b : β} :
    (m >>= f) = .ok b ↔ ∃ a, m = .ok a ∧ f a = .ok b := by
  rcases m with e | a
  · exact ⟨nofun, nofun⟩
  · exact ⟨fun h => ⟨a, rfl, h⟩, fun ⟨_, ha, h⟩ => by cases ha; exact h⟩

theorem require_ok_iff {c : Prop} [Decidable c] {e : ε} {u : Unit} :
    require c e = .ok u ↔ c := by
  unfold require
  split <;> simp_all

/-- A sequence fails where its first program does, or behind it. -/
theorem bind_error_iff {m : Except ε α} {f : α → Except ε β} {e : ε} :
    (m >>= f) = .error e ↔ m = .error e ∨ ∃ a, m = .ok a ∧ f a = .error e := by
  rcases m with e' | a
  · exact ⟨fun h => Or.inl (by cases h; rfl), fun h => by
      rcases h with h | ⟨_, h, -⟩
      · cases h
        rfl
      · cases h⟩
  · exact ⟨fun h => Or.inr ⟨a, rfl, h⟩, fun h => by
      rcases h with h | ⟨_, ha, h⟩
      · cases h
      · cases ha
        exact h⟩

theorem require_error_iff {c : Prop} [Decidable c] {e e' : ε} :
    require c e = .error e' ↔ ¬ c ∧ e' = e := by
  unfold require
  split <;> simp_all [eq_comm]

theorem require_of {c : Prop} [Decidable c] {e : ε} (h : c) : require c e = .ok () := if_pos h

end Inversion

section Loops

variable (allowed : ε → Prop)

/-- Loop rule of `foldE`: `Inv s rest` holds before each element, `rest` being what is left. -/
theorem foldE_ensures {f : σ → α → Except ε σ} (Inv : σ → List α → Prop)
    (step : ∀ s a rest, Inv s (a :: rest) → Ensures allowed (fun s' => Inv s' rest) (f s a))
    {s : σ} {l : List α} (h : Inv s l) :
    Ensures allowed (fun s' => Inv s' []) (foldE f s l) := by
  induction l generalizing s with
  | nil => exact h
  | cons a l ih => exact (step s a l h).bind (fun s' hs' => ih hs')

/-- Loop rule of `traverseE`: the invariant also sees the results collected so far. -/
theorem traverseE_ensures {f : σ → α → Except ε (σ × β)} (Inv : List β → σ → List α → Prop)
    (step : ∀ done s a rest, Inv done s (a :: rest) →
      Ensures allowed (fun r => Inv (done ++ [r.2]) r.1 rest) (f s a))
    {s : σ} {l : List α} (h : Inv [] s l) :
    Ensures allowed (fun r => Inv r.2 r.1 []) (traverseE f s l) := by
  have main : ∀ (l : List α) (done : List β) (s : σ), Inv done s l →
      Ensures allowed (fun r => Inv (done ++ r.2) r.1 []) (traverseE f s l) := by
    intro l
    induction l with
    | nil =>
        intro done s h
        simpa [traverseE] using h
    | cons a l ih =>
        intro done s h
        apply (step done s a l h).bind
        rintro ⟨s', b⟩ hs'
        apply (ih (done ++ [b]) s' hs').bind
        rintro ⟨s'', bs⟩ hbs
        simpa using hbs
  simpa using main l [] s h

/-- A loop that carries a history beside the state of another one computes what the other one
does. -/
theorem traverseE_history {τ : Type} {f : σ → α → Except ε (σ × β)}
    {g : τ → α → Except ε (τ × β)} (state : τ → σ)
    (step : ∀ t a, (g t a).map (fun r => (state r.1, r.2)) = f (state t) a) (t : τ) (l : List α) :
    (traverseE g t l).map (fun r => (state r.1, r.2)) = traverseE f (state t) l := by
  induction l generalizing t with
  | nil => rfl
  | cons a l ih =>
      rw [traverseE, traverseE, ← step t a]
      cases g t a with
      | error e => rfl
      | ok r =>
          obtain ⟨t', b⟩ := r
          change (traverseE g t' l >>= fun r => Except.ok (r.1, b :: r.2)).map _ =
            (traverseE f (state t') l >>= fun r => Except.ok (r.1, b :: r.2))
          rw [← ih t']
          cases traverseE g t' l <;> rfl

theorem traverseE_congr {f g : σ → α → Except ε (σ × β)} {l : List α}
    (h : ∀ a ∈ l, ∀ s, f s a = g s a) (s : σ) : traverseE f s l = traverseE g s l := by
  induction l generalizing s with
  | nil => rfl
  | cons a l ih =>
      have hrest := ih fun b hb => h b (List.mem_cons_of_mem a hb)
      rw [traverseE, traverseE, h a List.mem_cons_self s]
      simp only [hrest]

theorem foldE_history {τ : Type} {f : σ → α → Except ε σ} {g : τ → α → Except ε τ}
    (state : τ → σ) (step : ∀ t a, (g t a).map state = f (state t) a) (t : τ) (l : List α) :
    (foldE g t l).map state = foldE f (state t) l := by
  induction l generalizing t with
  | nil => rfl
  | cons a l ih =>
      rw [foldE, foldE, ← step t a]
      cases g t a with
      | error e => rfl
      | ok t' => exact ih t'

/-- A loop that follows another one step by step ends where the other one does. -/
theorem foldE_simulates {τ : Type} {f : σ → α → Except ε σ} {g : τ → α → Except ε τ}
    (R : σ → τ → Prop) {l : List α}
    (step : ∀ a ∈ l, ∀ s t s', R s t → f s a = .ok s' → ∃ t', g t a = .ok t' ∧ R s' t')
    {s s' : σ} {t : τ} (h : R s t) (hf : foldE f s l = .ok s') :
    ∃ t', foldE g t l = .ok t' ∧ R s' t' := by
  induction l generalizing s t with
  | nil =>
      cases hf
      exact ⟨t, rfl, h⟩
  | cons a l ih =>
      obtain ⟨s₁, hs₁, hrest⟩ := bind_ok_iff.mp hf
      obtain ⟨t₁, ht₁, h₁⟩ := step a List.mem_cons_self s t s₁ h hs₁
      obtain ⟨t', ht', h'⟩ :=
        ih (fun b hb => step b (List.mem_cons_of_mem a hb)) h₁ hrest
      exact ⟨t', bind_ok_iff.mpr ⟨t₁, ht₁, ht'⟩, h'⟩

/-- Loop rule of `foldE` for a run that succeeds: the invariant sees the elements that are done, the
first ones of the list. -/
theorem foldE_done {f : σ → α → Except ε σ} {l : List α} (Inv : List α → σ → Prop)
    (step : ∀ done a s s', done ++ [a] <+: l → Inv done s → f s a = .ok s' →
      Inv (done ++ [a]) s') {s s' : σ} (h : Inv [] s) (hf : foldE f s l = .ok s') : Inv l s' := by
  have main : ∀ (rest done : List α) (s : σ), done ++ rest = l → Inv done s →
      foldE f s rest = .ok s' → Inv l s' := by
    intro rest
    induction rest with
    | nil =>
        intro done s hl h hf
        cases hf
        rwa [← hl, List.append_nil]
    | cons a rest ih =>
        intro done s hl h hf
        obtain ⟨s₁, hs₁, hrest⟩ := bind_ok_iff.mp hf
        have hl' : (done ++ [a]) ++ rest = l := by
          rw [List.append_assoc]
          exact hl
        exact ih (done ++ [a]) s₁ hl' (step done a s s₁ ⟨rest, hl'⟩ h hs₁) hrest
  exact main l [] s rfl h hf

/-- `foldE` over a concatenation runs the two parts in order. -/
theorem foldE_append (f : σ → α → Except ε σ) (s : σ) (l l' : List α) :
    foldE f s (l ++ l') = (foldE f s l >>= fun s' => foldE f s' l') := by
  induction l generalizing s with
  | nil => rfl
  | cons a l ih =>
      simp only [List.cons_append, foldE]
      cases f s a with
      | ok s' => exact ih s'
      | error e => rfl

end Loops

end Destor.Library.Outcome
