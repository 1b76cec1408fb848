import EsyncUa.Machines
import Mathlib.Data.Nat.Find

/-!
Infinite runs of a machine. A run is fair to a thread if the thread takes a step again and again
as long as it is able to again and again. Every program is finite, so a thread that a run is fair
to comes to the end of its program, unless from some moment on it is not able to take a step.
-/
namespace EsyncUa.FairRuns

open EsyncUa.Programs EsyncUa.Machines

variable {τ μ σ : Type} {Op : Type} {Ans : Op → Type} [DecidableEq τ]

/-- The steps that thread `t` takes. -/
inductive StepOf (M : Machine τ μ σ Ans) (t : τ) (c : Config τ μ σ Ans) :
    Config τ μ σ Ans → Prop
  | get (k) (hpool : c.pool t = Prog.get k) :
      StepOf M t c ⟨c.st, Function.update c.pool t (k (M.mem c.st))⟩
  | call (o k b s) (hpool : c.pool t = Prog.call o k) (hact : M.act t o b c.st s)
      (hfork : M.fork t o b = none) : StepOf M t c ⟨s, Function.update c.pool t (k b)⟩
  | fork (o k b s t' p) (hpool : c.pool t = Prog.call o k) (hact : M.act t o b c.st s)
      (hfork : M.fork t o b = some (t', p)) (hne : t' ≠ t) (hidle : c.Idle t') :
      StepOf M t c ⟨s, Function.update (Function.update c.pool t (k b)) t' p⟩

variable {M : Machine τ μ σ Ans} {t : τ} {c c' : Config τ μ σ Ans}

theorem StepOf.step (h : StepOf M t c c') : M.Step c c' := by
  cases h with
  | get k hpool => exact .get c t k hpool
  | call o k b s hpool hact hfork => exact .call c t o k b s hpool hact hfork
  | fork o k b s t' p hpool hact hfork hne hidle =>
    exact .fork c t o k b s t' p hpool hact hfork hne hidle

/-- A step brings the thread to a smaller program. -/
theorem StepOf.pool (h : StepOf M t c c') :
    (∃ k, c.pool t = .get k ∧ c'.pool t = k (M.mem c.st)) ∨
    ∃ o k b, c.pool t = .call o k ∧ c'.pool t = k b := by
  cases h with
  | get k hpool => exact .inl ⟨k, hpool, Function.update_self ..⟩
  | call o k b s hpool _ _ => exact .inr ⟨o, k, b, hpool, Function.update_self ..⟩
  | fork o k b s t' p hpool _ _ hne _ =>
    exact .inr ⟨o, k, b, hpool, by simp [Function.update_of_ne hne.symm]⟩

def CanStep (M : Machine τ μ σ Ans) (t : τ) (c : Config τ μ σ Ans) : Prop := ∃ c', StepOf M t c c'

theorem CanStep.not_idle (h : CanStep M t c) : ¬c.Idle t := by
  intro hidle
  obtain ⟨c', hstep⟩ := h
  obtain ⟨k, hpool, -⟩ | ⟨o, k, b, hpool, -⟩ := hstep.pool
  · rw [hidle] at hpool
    cases hpool
  · rw [hidle] at hpool
    cases hpool

/-- What one step does to a thread that runs a program. -/
theorem step_cases (h : M.Step c c') (hidle : ¬c.Idle t) :
    StepOf M t c c' ∨ c'.pool t = c.pool t ∨ c'.Idle t := by
  cases h with
  | get t₁ k hpool =>
    by_cases ht : t₁ = t
    · subst ht
      exact .inl (.get k hpool)
    · exact .inr (.inl (Function.update_of_ne (Ne.symm ht) ..))
  | call t₁ o k b s hpool hact hfork =>
    by_cases ht : t₁ = t
    · subst ht
      exact .inl (.call o k b s hpool hact hfork)
    · exact .inr (.inl (Function.update_of_ne (Ne.symm ht) ..))
  | fork t₁ o k b s t' p hpool hact hfork hne hidle' =>
    by_cases ht : t₁ = t
    · subst ht
      exact .inl (.fork o k b s t' p hpool hact hfork hne hidle')
    · have ht' : t ≠ t' := by
        rintro rfl
        exact hidle hidle'
      exact .inr (.inl (by simp [Function.update_of_ne ht', Function.update_of_ne (Ne.symm ht)]))
  | arrive t₁ p s hidle' harrive =>
    have ht : t ≠ t₁ := by
      rintro rfl
      exact hidle hidle'
    exact .inr (.inl (Function.update_of_ne ht ..))
  | restart s hrestart => exact .inr (.inr rfl)

/-- An infinite run from a reachable configuration. -/
structure Run (M : Machine τ μ σ Ans) where
  config : ℕ → Config τ μ σ Ans
  start : M.Reachable (config 0)
  step : ∀ n, M.Step (config n) (config (n + 1))

namespace Run

variable (r : Run M)

theorem reachable (n : ℕ) : M.Reachable (r.config n) := by
  induction n with
  | zero => exact r.start
  | succ n ih => exact ih.step _ _ (r.step n)

/-- Until the next step of a thread its program stays as it is. -/
theorem next {n : ℕ} (hidle : ∀ m, n ≤ m → ¬(r.config m).Idle t)
    (hstep : ∃ m, n ≤ m ∧ StepOf M t (r.config m) (r.config (m + 1))) :
    ∃ m, n ≤ m ∧ (r.config m).pool t = (r.config n).pool t ∧
      StepOf M t (r.config m) (r.config (m + 1)) := by
  classical
  have hex : ∃ d, StepOf M t (r.config (n + d)) (r.config (n + d + 1)) := by
    obtain ⟨m, hm, hstep⟩ := hstep
    refine ⟨m - n, ?_⟩
    rwa [Nat.add_sub_cancel' hm]
  have hpool : ∀ d, d ≤ Nat.find hex → (r.config (n + d)).pool t = (r.config n).pool t := by
    intro d hd
    induction d with
    | zero => rfl
    | succ d ih =>
      have hnot := Nat.find_min hex (Nat.lt_of_succ_le hd)
      obtain hstep | hsame | hstopped := step_cases (r.step (n + d)) (hidle (n + d) (by omega))
      · exact absurd hstep hnot
      · exact hsame.trans (ih (by omega))
      · exact absurd hstopped (hidle (n + d + 1) (by omega))
  exact ⟨n + Nat.find hex, by omega, hpool _ le_rfl, Nat.find_spec hex⟩

/-- A thread that is never idle again takes finitely many steps: its program gets smaller. -/
theorem steps_end {n : ℕ} (hidle : ∀ m, n ≤ m → ¬(r.config m).Idle t) :
    ∃ m, n ≤ m ∧ ∀ j, m ≤ j → ¬StepOf M t (r.config j) (r.config (j + 1)) := by
  by_contra hnot
  have hoften : ∀ m, n ≤ m → ∃ j, m ≤ j ∧ StepOf M t (r.config j) (r.config (j + 1)) := by
    intro m hm
    by_contra hnone
    exact hnot ⟨m, hm, fun j hj hstep => hnone ⟨j, hj, hstep⟩⟩
  have hends : ∀ p m, n ≤ m → (r.config m).pool t ≠ p := by
    intro p
    induction p with
    | pure a => exact fun m hm hpool => hidle m hm hpool
    | get k ih =>
      intro m hm hpool
      obtain ⟨m', hm', hsame, hstep⟩ :=
        r.next (fun j hj => hidle j (Nat.le_trans hm hj)) (hoften m hm)
      rw [hpool] at hsame
      obtain ⟨k', hk, hnext⟩ | ⟨o, k', b, hk, -⟩ := hstep.pool
      · obtain rfl := Prog.get.inj (hsame.symm.trans hk)
        exact ih _ (m' + 1) (by omega) hnext
      · cases hsame.symm.trans hk
    | call o k ih =>
      intro m hm hpool
      obtain ⟨m', hm', hsame, hstep⟩ :=
        r.next (fun j hj => hidle j (Nat.le_trans hm hj)) (hoften m hm)
      rw [hpool] at hsame
      obtain ⟨k', hk, -⟩ | ⟨o', k', b, hk, hnext⟩ := hstep.pool
      · cases hsame.symm.trans hk
      · obtain ⟨rfl, hk⟩ := Prog.call.inj (hsame.symm.trans hk)
        obtain rfl := eq_of_heq hk
        exact ih b (m' + 1) (by omega) hnext
  exact hends _ n le_rfl rfl

/-- A thread that is able to take a step again and again takes one again and again. -/
def StrongFair (t : τ) : Prop := (∀ n, ∃ m, n ≤ m ∧ CanStep M t (r.config m)) →
  ∀ n, ∃ m, n ≤ m ∧ StepOf M t (r.config m) (r.config (m + 1))

variable {r}

/-- A thread that is able to take a step again and again comes to the end of its program. -/
theorem StrongFair.ends (hfair : r.StrongFair t) {n : ℕ}
    (hcan : ∀ m, n ≤ m → ∃ j, m ≤ j ∧ CanStep M t (r.config j)) :
    ∃ m, n ≤ m ∧ (r.config m).Idle t := by
  by_contra hnot
  obtain ⟨m, hm, hnone⟩ := r.steps_end fun j hj hidle => hnot ⟨j, hj, hidle⟩
  have hoften : ∀ i, ∃ j, i ≤ j ∧ CanStep M t (r.config j) := by
    intro i
    obtain ⟨j, hj, hstep⟩ := hcan (max i n) (Nat.le_max_right i n)
    exact ⟨j, Nat.le_trans (Nat.le_max_left i n) hj, hstep⟩
  obtain ⟨j, hj, hstep⟩ := hfair hoften m
  exact hnone j hj hstep

end Run

end EsyncUa.FairRuns
