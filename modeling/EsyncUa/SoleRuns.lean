import EsyncUa.Schedules

/-!
A program that one thread runs without a step of the others in between. The player answers its
operations, none of which starts a thread. What the program returns and leaves is computed,
and is also described by conditions that go back through the program, one rule for each of
its forms. A program that is run alone can be run so in the machine.
-/
namespace EsyncUa.SoleRuns

open EsyncUa.Programs EsyncUa.Machines EsyncUa.Schedules Relation

variable {τ μ σ : Type} {Op : Type} {Ans : Op → Type} {M : Machine τ μ σ Ans}
variable (P : Player M) (t : τ) {α β : Type}

/-- The value that the program returns and the state it leaves, if it comes to its end. -/
def alone : Prog μ Ans α → σ → Option (α × σ)
  | .pure a, s => some (a, s)
  | .get k, s => alone (k (M.mem s)) s
  | .call o k, s =>
      (P.answer t s o).bind fun r =>
        if (M.fork t o r.1).isNone then alone (k r.1) r.2 else none

/-- Whatever the program returns and leaves satisfies `Q`. -/
def Ensures (p : Prog μ Ans α) (s : σ) (Q : α → σ → Prop) : Prop :=
  ∀ a s', alone P t p s = some (a, s') → Q a s'

@[simp] theorem ensures_pure (a : α) (s : σ) (Q : α → σ → Prop) :
    Ensures P t (Prog.pure a) s Q ↔ Q a s := by
  constructor
  · intro h
    exact h a s rfl
  · intro h a' s' heq
    cases heq
    exact h

@[simp] theorem ensures_get (k : μ → Prog μ Ans α) (s : σ) (Q : α → σ → Prop) :
    Ensures P t (Prog.get k) s Q ↔ Ensures P t (k (M.mem s)) s Q := Iff.rfl

theorem ensures_call (o : Op) (k : Ans o → Prog μ Ans α) (s : σ) (Q : α → σ → Prop) :
    Ensures P t (Prog.call o k) s Q ↔
      ∀ b s', P.answer t s o = some (b, s') → M.fork t o b = none → Ensures P t (k b) s' Q := by
  constructor
  · intro h b s' hanswer hfork a s'' hrun
    apply h a s''
    rw [alone, hanswer]
    simpa [hfork] using hrun
  · intro h a s'' hrun
    rw [alone, Option.bind_eq_some_iff] at hrun
    obtain ⟨⟨b, s'⟩, hanswer, hrun⟩ := hrun
    split at hrun
    · rename_i hfork
      exact h b s' hanswer (Option.isNone_iff_eq_none.mp hfork) a s'' hrun
    · cases hrun

@[simp] theorem ensures_bind (p : Prog μ Ans α) (f : α → Prog μ Ans β) (s : σ)
    (Q : β → σ → Prop) :
    Ensures P t (p >>= f) s Q ↔ Ensures P t p s fun a s' => Ensures P t (f a) s' Q := by
  induction p generalizing s with
  | pure a => simp
  | get k ih => exact ih (M.mem s) s
  | call o k ih => simp only [Prog.call_bind, ensures_call, ih]

@[simp] theorem ensures_read (f : μ → α) (s : σ) (Q : α → σ → Prop) :
    Ensures P t (Prog.read f) s Q ↔ Q (f (M.mem s)) s := by
  rw [Prog.read, ensures_get, ensures_pure]

@[simp] theorem ensures_ite {c : Prop} [Decidable c] (p q : Prog μ Ans α) (s : σ)
    (Q : α → σ → Prop) :
    Ensures P t (if c then p else q) s Q ↔
      (c → Ensures P t p s Q) ∧ (¬c → Ensures P t q s Q) := by
  by_cases h : c <;> simp [h]

variable {P t}

theorem Ensures.mono {p : Prog μ Ans α} {s : σ} {Q Q' : α → σ → Prop}
    (h : Ensures P t p s Q) (hQ : ∀ a s', Q a s' → Q' a s') : Ensures P t p s Q' :=
  fun a s' hrun => hQ a s' (h a s' hrun)

theorem Ensures.and {p : Prog μ Ans α} {s : σ} {Q Q' : α → σ → Prop}
    (h : Ensures P t p s Q) (h' : Ensures P t p s Q') :
    Ensures P t p s fun a s' => Q a s' ∧ Q' a s' :=
  fun a s' hrun => ⟨h a s' hrun, h' a s' hrun⟩

variable [DecidableEq τ]

/-- A thread of the machine can run the program so. -/
theorem alone_steps {p : Prog μ Ans α} {s s' : σ} {a : α} (h : alone P t p s = some (a, s'))
    (f : α → Prog μ Ans Unit) (pool : τ → Prog μ Ans Unit) :
    ReflTransGen M.Step ⟨s, Function.update pool t (p >>= f)⟩
      ⟨s', Function.update pool t (f a)⟩ := by
  induction p generalizing s with
  | pure b =>
    cases h
    exact .refl
  | get k ih =>
    have hstep := Machine.Step.get (M := M) ⟨s, Function.update pool t (Prog.get k >>= f)⟩ t _
      (Function.update_self ..)
    rw [Function.update_idem] at hstep
    exact .head hstep (ih _ h)
  | call o k ih =>
    rw [alone, Option.bind_eq_some_iff] at h
    obtain ⟨⟨b, s₁⟩, hanswer, h⟩ := h
    split at h
    · rename_i hfork
      have hstep := Machine.Step.call (M := M)
        ⟨s, Function.update pool t (Prog.call o k >>= f)⟩ t o _ b s₁ (Function.update_self ..)
        (P.sound t s o b s₁ hanswer) (Option.isNone_iff_eq_none.mp hfork)
      rw [Function.update_idem] at hstep
      exact .head hstep (ih b h)
    · cases h

end EsyncUa.SoleRuns
