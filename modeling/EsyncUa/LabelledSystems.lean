import Mathlib.Algebra.BigOperators.Ring.List
import Mathlib.Algebra.Order.Ring.Nat
import Mathlib.Tactic.Basic

/-!
Systems whose steps have labels. What every step keeps holds in every reachable state. Where the
steps spend from a stock that others add to, a run that spends more than it finds and is given
has come to its goal.
-/
namespace EsyncUa.LabelledSystems

/-- The first states and, for each label, the steps that have it. -/
structure System (σ ι : Type*) where
  init : σ → Prop
  step : ι → σ → σ → Prop

variable {σ ι : Type*}

namespace System

variable (S : System σ ι)

/-- The steps that have the labels, one after the other. -/
inductive Run : List ι → σ → σ → Prop
  | nil (s) : Run [] s s
  | cons {l ls s s' s''} (hstep : S.step l s s') (hrun : Run ls s' s'') : Run (l :: ls) s s''

def Reachable (s : σ) : Prop := ∃ s₀ ls, S.init s₀ ∧ S.Run ls s₀ s

variable {S}

/-- What every step keeps is kept by a run. -/
theorem Run.keeps {I : σ → Prop} {ls : List ι} {s s' : σ} (hrun : S.Run ls s s')
    (hstep : ∀ l s s', I s → S.step l s s' → I s') (hs : I s) : I s' := by
  induction hrun with
  | nil s => exact hs
  | cons hl _ ih => exact ih (hstep _ _ _ hs hl)

theorem Reachable.invariant {I : σ → Prop} {s : σ} (h : S.Reachable s)
    (hinit : ∀ s, S.init s → I s) (hstep : ∀ l s s', I s → S.step l s s' → I s') : I s := by
  obtain ⟨s₀, ls, hs₀, hrun⟩ := h
  exact hrun.keeps hstep (hinit s₀ hs₀)

theorem Run.append {ls ms : List ι} {s s' s'' : σ} (h : S.Run ls s s') (h' : S.Run ms s' s'') :
    S.Run (ls ++ ms) s s'' := by
  induction h with
  | nil s => exact h'
  | cons hl _ ih => exact .cons hl (ih h')

theorem Reachable.run {ls : List ι} {s s' : σ} (h : S.Reachable s) (hrun : S.Run ls s s') :
    S.Reachable s' := by
  obtain ⟨s₀, ms, hs₀, hms⟩ := h
  exact ⟨s₀, ms ++ ls, hs₀, hms.append hrun⟩

theorem Reachable.step {l : ι} {s s' : σ} (h : S.Reachable s) (hstep : S.step l s s') :
    S.Reachable s' :=
  h.run (.cons hstep (.nil s'))

/-- The system whose steps are computed from the label. -/
def ofOption (start : σ) (perform : σ → ι → Option σ) : System σ ι where
  init := fun s => s = start
  step := fun l s s' => perform s l = some s'

theorem run_of_foldlM {start : σ} {perform : σ → ι → Option σ} {ls : List ι} {s s' : σ}
    (h : ls.foldlM perform s = some s') : (ofOption start perform).Run ls s s' := by
  induction ls generalizing s with
  | nil =>
    cases h
    exact .nil _
  | cons l ls ih =>
    obtain ⟨s₁, hl, hls⟩ := Option.bind_eq_some_iff.mp (by simpa using h)
    exact .cons hl (ih hls)

theorem reachable_of_foldlM {start : σ} {perform : σ → ι → Option σ} {ls : List ι} {s : σ}
    (h : ls.foldlM perform start = some s) : (ofOption start perform).Reachable s :=
  ⟨start, ls, rfl, run_of_foldlM h⟩

/-- A step with label `l` takes `c l` from the stock `m` and puts at most `g l` there. As long as
the goal is not reached a run never takes more than it finds and is given. -/
theorem Run.reaches {I G : σ → Prop} {m : σ → ℕ} {c g : ι → ℕ} {ls : List ι} {s s' : σ}
    (hrun : S.Run ls s s') (hI : I s) (hkeeps : ∀ l s s', I s → S.step l s s' → I s')
    (hgoal : ∀ l s s', I s → G s → S.step l s s' → G s')
    (hstock : ∀ l s s', I s → S.step l s s' → G s' ∨ m s' + c l ≤ m s + g l)
    (hlong : m s + (ls.map g).sum < (ls.map c).sum) : G s' := by
  have hspent : G s' ∨ m s' + (ls.map c).sum ≤ m s + (ls.map g).sum := by
    clear hlong
    induction hrun with
    | nil s => exact .inr (by simp)
    | @cons l ls s s₁ s' hl hrun ih =>
      have hI₁ := hkeeps _ _ _ hI hl
      rcases hstock l s s₁ hI hl with hG | hle
      · have hboth : I s' ∧ G s' :=
          hrun.keeps (I := fun s => I s ∧ G s)
            (fun l s s' h hl => ⟨hkeeps _ _ _ h.1 hl, hgoal _ _ _ h.1 h.2 hl⟩) ⟨hI₁, hG⟩
        exact .inl hboth.2
      · rcases ih hI₁ with hG | hrest
        · exact .inl hG
        · refine .inr ?_
          simp only [List.map_cons, List.sum_cons]
          omega
  rcases hspent with hG | hle
  · exact hG
  · omega

end System

end EsyncUa.LabelledSystems
