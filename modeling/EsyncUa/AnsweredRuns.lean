import EsyncUa.Programs

/-!
The runs of a program that nothing interrupts, over every answer that its operations may have.
What a run returns and leaves is described backwards through the program, one rule for each of
its forms.
-/
namespace EsyncUa.AnsweredRuns

open EsyncUa.Programs

variable {μ σ : Type} {Op : Type} {Ans : Op → Type} {α β : Type}

section Rules

variable (mem : σ → μ) (act : (o : Op) → Ans o → σ → σ → Prop)

/-- The program may return `a` and leave `s'`. -/
def Yields : Prog μ Ans α → σ → α → σ → Prop
  | .pure a', s, a, s' => a' = a ∧ s = s'
  | .get k, s, a, s' => Yields (k (mem s)) s a s'
  | .call o k, s, a, s' => ∃ b s₁, act o b s s₁ ∧ Yields (k b) s₁ a s'

@[simp] theorem yields_pure (a a' : α) (s s' : σ) :
    Yields mem act (Prog.pure a') s a s' ↔ a' = a ∧ s = s' := Iff.rfl

@[simp] theorem yields_read (f : μ → α) (s : σ) (a : α) (s' : σ) :
    Yields mem act (Prog.read f) s a s' ↔ f (mem s) = a ∧ s = s' := Iff.rfl

@[simp] theorem yields_perform (o : Op) (s : σ) (b : Ans o) (s' : σ) :
    Yields mem act (Prog.perform o) s b s' ↔ act o b s s' := by
  constructor
  · rintro ⟨b', s₁, hact, rfl, rfl⟩
    exact hact
  · intro hact
    exact ⟨b, s', hact, rfl, rfl⟩

@[simp] theorem yields_bind (p : Prog μ Ans α) (f : α → Prog μ Ans β) (s : σ) (b : β) (s' : σ) :
    Yields mem act (p >>= f) s b s' ↔
      ∃ a s₁, Yields mem act p s a s₁ ∧ Yields mem act (f a) s₁ b s' := by
  induction p generalizing s with
  | pure a =>
      constructor
      · intro h
        exact ⟨a, s, ⟨rfl, rfl⟩, h⟩
      · rintro ⟨a', s₁, ⟨rfl, rfl⟩, h⟩
        exact h
  | get k ih => exact ih (mem s) s
  | call o k ih =>
      constructor
      · rintro ⟨answer, s₁, hact, h⟩
        obtain ⟨a, s₂, hk, hf⟩ := (ih answer s₁).mp h
        exact ⟨a, s₂, ⟨answer, s₁, hact, hk⟩, hf⟩
      · rintro ⟨a, s₂, ⟨answer, s₁, hact, hk⟩, hf⟩
        exact ⟨answer, s₁, hact, (ih answer s₁).mpr ⟨a, s₂, hk, hf⟩⟩

@[simp] theorem yields_map (p : Prog μ Ans α) (f : α → β) (s : σ) (b : β) (s' : σ) :
    Yields mem act (f <$> p) s b s' ↔ ∃ a, Yields mem act p s a s' ∧ f a = b := by
  rw [map_eq_pure_bind, yields_bind]
  constructor
  · rintro ⟨a, s₁, h, rfl, rfl⟩
    exact ⟨a, h, rfl⟩
  · rintro ⟨a, h, rfl⟩
    exact ⟨a, s', h, rfl, rfl⟩

@[simp] theorem yields_ite (c : Prop) [Decidable c] (p q : Prog μ Ans α) (s : σ) (a : α)
    (s' : σ) :
    Yields mem act (if c then p else q) s a s' ↔
      if c then Yields mem act p s a s' else Yields mem act q s a s' := by
  split <;> rfl

end Rules

variable {mem : σ → μ} {act : (o : Op) → Ans o → σ → σ → Prop}

/-- A program whose operations all have an answer in every state has a run. -/
theorem yields_exists {Q : Op → Prop} (hact : ∀ o, Q o → ∀ s, ∃ b s', act o b s s')
    {p : Prog μ Ans α} (hp : p.All Q) (s : σ) : ∃ a s', Yields mem act p s a s' := by
  induction p generalizing s with
  | pure a => exact ⟨a, s, rfl, rfl⟩
  | get k ih => exact ih (mem s) (hp (mem s)) s
  | call o k ih =>
      obtain ⟨b, s₁, ho⟩ := hact o hp.1 s
      obtain ⟨a, s', hk⟩ := ih b (hp.2 b) s₁
      exact ⟨a, s', b, s₁, ho, hk⟩

/-- What no operation of a program changes is the same after a run. -/
theorem yields_frame {γ : Type} {f : σ → γ} {Q : Op → Prop}
    (hact : ∀ o, Q o → ∀ b s s', act o b s s' → f s' = f s) {p : Prog μ Ans α} (hp : p.All Q)
    {s s' : σ} {a : α} (h : Yields mem act p s a s') : f s' = f s := by
  induction p generalizing s with
  | pure a =>
      obtain ⟨_, rfl⟩ := h
      rfl
  | get k ih => exact ih (mem s) (hp (mem s)) h
  | call o k ih =>
      obtain ⟨b, s₁, ho, hk⟩ := h
      exact (ih b (hp.2 b) hk).trans (hact o hp.1 b s s₁ ho)

/-- More answers allow more runs. -/
theorem yields_mono {act' : (o : Op) → Ans o → σ → σ → Prop}
    (hact : ∀ o b s s', act o b s s' → act' o b s s') {p : Prog μ Ans α} {s s' : σ} {a : α}
    (h : Yields mem act p s a s') : Yields mem act' p s a s' := by
  induction p generalizing s with
  | pure a => exact h
  | get k ih => exact ih (mem s) h
  | call o k ih =>
      obtain ⟨b, s₁, ho, hk⟩ := h
      exact ⟨b, s₁, hact o b s s₁ ho, ih b hk⟩

/-- The run in which every operation has one answer. -/
def evaluate (mem : σ → μ) (answer : (o : Op) → σ → Option (Ans o × σ)) :
    Prog μ Ans α → σ → Option (α × σ)
  | .pure a, s => some (a, s)
  | .get k, s => evaluate mem answer (k (mem s)) s
  | .call o k, s => (answer o s).bind fun r => evaluate mem answer (k r.1) r.2

theorem yields_of_evaluate {answer : (o : Op) → σ → Option (Ans o × σ)}
    (hact : ∀ o s b s', answer o s = some (b, s') → act o b s s') {p : Prog μ Ans α} {s s' : σ}
    {a : α} (h : evaluate mem answer p s = some (a, s')) : Yields mem act p s a s' := by
  induction p generalizing s with
  | pure a =>
      cases h
      exact ⟨rfl, rfl⟩
  | get k ih => exact ih (mem s) h
  | call o k ih =>
      obtain ⟨⟨b, s₁⟩, ho, hk⟩ := Option.bind_eq_some_iff.mp h
      exact ⟨b, s₁, hact o s b s₁ ho, ih b hk⟩

end EsyncUa.AnsweredRuns
