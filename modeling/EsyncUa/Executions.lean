import EsyncUa.Programs

/-!
Runs of one program with nobody else at work: a handler answers each operation and changes the
state. A run may meet a condition at each of its steps, and what every such step keeps holds at
its end.
-/
namespace EsyncUa.Executions

open EsyncUa.Programs

variable {μ σ : Type} {Op : Type} {Ans : Op → Type} {α β : Type}

/-- Who performs the operations: the memory that a state shows, and what an operation does. -/
structure Handler (μ σ : Type) {Op : Type} (Ans : Op → Type) where
  mem : σ → μ
  act : σ → (o : Op) → Ans o × σ

namespace Handler

variable (H : Handler μ σ Ans)

/-- The value that a program returns and the state it leaves. -/
def run : Prog μ Ans α → σ → α × σ
  | .pure a, s => (a, s)
  | .get k, s => run (k (H.mem s)) s
  | .call o k, s => run (k (H.act s o).1) (H.act s o).2

@[simp] theorem run_pure (a : α) (s : σ) : H.run (Prog.pure a) s = (a, s) := rfl

@[simp] theorem run_read (f : μ → α) (s : σ) : H.run (Prog.read f) s = (f (H.mem s), s) := rfl

@[simp] theorem run_perform (o : Op) (s : σ) : H.run (Prog.perform o) s = H.act s o := rfl

@[simp] theorem run_bind (p : Prog μ Ans α) (f : α → Prog μ Ans β) (s : σ) :
    H.run (p >>= f) s = H.run (f (H.run p s).1) (H.run p s).2 := by
  induction p generalizing s with
  | pure a => rfl
  | get k ih => exact ih (H.mem s) s
  | call o k ih => exact ih (H.act s o).1 (H.act s o).2

theorem run_ite (c : Prop) [Decidable c] (p q : Prog μ Ans α) (s : σ) :
    H.run (if c then p else q) s = if c then H.run p s else H.run q s := by
  split <;> rfl

/-- Every state of the run satisfies `I`, and every operation `P` in the state before it. -/
def Along (I : σ → Prop) (P : σ → Op → Prop) : Prog μ Ans α → σ → Prop
  | .pure _, s => I s
  | .get k, s => I s ∧ Along I P (k (H.mem s)) s
  | .call o k, s => I s ∧ P s o ∧ Along I P (k (H.act s o).1) (H.act s o).2

instance decidableAlong (I : σ → Prop) (P : σ → Op → Prop) [DecidablePred I]
    [∀ s o, Decidable (P s o)] : (p : Prog μ Ans α) → (s : σ) → Decidable (H.Along I P p s)
  | .pure _, s => inferInstanceAs (Decidable (I s))
  | .get k, s => @instDecidableAnd _ _ _ (decidableAlong I P (k (H.mem s)) s)
  | .call o k, s => @instDecidableAnd _ _ _
      (@instDecidableAnd _ _ _ (decidableAlong I P (k (H.act s o).1) (H.act s o).2))

variable {H} {I : σ → Prop} {P : σ → Op → Prop} {s : σ}

theorem Along.start {p : Prog μ Ans α} (h : H.Along I P p s) : I s := by
  cases p with
  | pure a => exact h
  | get k => exact h.1
  | call o k => exact h.1

theorem along_bind {p : Prog μ Ans α} {f : α → Prog μ Ans β} (h : H.Along I P (p >>= f) s) :
    H.Along I P p s ∧ H.Along I P (f (H.run p s).1) (H.run p s).2 := by
  induction p generalizing s with
  | pure a => exact ⟨h.start, h⟩
  | get k ih =>
      obtain ⟨hrest, hnext⟩ := ih _ h.2
      exact ⟨⟨h.1, hrest⟩, hnext⟩
  | call o k ih =>
      obtain ⟨hrest, hnext⟩ := ih _ h.2.2
      exact ⟨⟨h.1, h.2.1, hrest⟩, hnext⟩

theorem Along.finish {p : Prog μ Ans α} (h : H.Along I P p s) : I (H.run p s).2 := by
  induction p generalizing s with
  | pure a => exact h
  | get k ih => exact ih _ h.2
  | call o k ih => exact ih _ h.2.2

/-- What every step keeps that meets its condition holds at the end of the run. -/
theorem Along.keeps {p : Prog μ Ans α} (h : H.Along I P p s) {Q : Op → Prop} (hall : p.All Q)
    {J : σ → Prop} (hstep : ∀ s o, I s → P s o → Q o → J s → J (H.act s o).2) (hs : J s) :
    J (H.run p s).2 := by
  induction p generalizing s with
  | pure a => exact hs
  | get k ih => exact ih _ h.2 (hall _) hs
  | call o k ih =>
      obtain ⟨hstart, hcond, hrest⟩ := h
      exact ih _ hrest (hall.2 _) (hstep s o hstart hcond hall.1 hs)

end Handler

end EsyncUa.Executions
