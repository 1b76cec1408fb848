import EsyncUa.Outlines
import EsyncUa.SoleRuns

/-!
The complete runs of a program by one thread of an outline. Before each of its steps the other
threads may have taken some that the outline tolerates. What a proof outline says of a program
holds at the end of each of these runs, and a run of the thread alone is one of them.
-/
namespace EsyncUa.Passages

open EsyncUa.Programs EsyncUa.Machines EsyncUa.Schedules EsyncUa.SoleRuns EsyncUa.Outlines

variable {τ μ σ : Type} {Op : Type} {Ans : Op → Type} {M : Machine τ μ σ Ans}
variable (O : Outline M) (t : τ) {α β : Type}

/-- The thread runs the program from `s` to its end in `s'`, where it returns `a`. -/
def Passes : Prog μ Ans α → σ → α → σ → Prop
  | .pure b, s, a, s' => b = a ∧ O.Later t s s'
  | .get k, s, a, s' => ∃ s₁, O.Later t s s₁ ∧ Passes (k (M.mem s₁)) s₁ a s'
  | .call o k, s, a, s' =>
      ∃ s₁ b s₂, O.Later t s s₁ ∧ M.act t o b s₁ s₂ ∧ Passes (k b) s₂ a s'

variable {O t} {p : Prog μ Ans α} {s s₁ s' : σ} {a : α}

theorem passes_later (hlater : O.Later t s s₁) (h : Passes O t p s₁ a s') :
    Passes O t p s a s' := by
  cases p with
  | pure b => exact ⟨h.1, hlater.trans h.2⟩
  | get k =>
    obtain ⟨s₂, hlater₂, h⟩ := h
    exact ⟨s₂, hlater.trans hlater₂, h⟩
  | call o k =>
    obtain ⟨s₂, b, s₃, hlater₂, hact, h⟩ := h
    exact ⟨s₂, b, s₃, hlater.trans hlater₂, hact, h⟩

/-- A run of one part after the other is a run of the whole. -/
theorem passes_bind {f : α → Prog μ Ans β} {b : β} (hp : Passes O t p s a s₁)
    (hf : Passes O t (f a) s₁ b s') : Passes O t (p >>= f) s b s' := by
  induction p generalizing s with
  | pure c =>
    obtain ⟨rfl, hlater⟩ := hp
    exact passes_later hlater hf
  | get k ih =>
    obtain ⟨s₂, hlater, hp⟩ := hp
    exact ⟨s₂, hlater, ih _ hp⟩
  | call o k ih =>
    obtain ⟨s₂, c, s₃, hlater, hact, hp⟩ := hp
    exact ⟨s₂, c, s₃, hlater, hact, ih c hp⟩

/-- The others need not take a step. -/
theorem passes_alone {P : Player M} (h : alone P t p s = some (a, s')) :
    Passes O t p s a s' := by
  induction p generalizing s with
  | pure b =>
    cases h
    exact ⟨rfl, .refl⟩
  | get k ih => exact ⟨s, .refl, ih _ h⟩
  | call o k ih =>
    rw [alone, Option.bind_eq_some_iff] at h
    obtain ⟨⟨b, s₂⟩, hanswer, h⟩ := h
    split at h
    · exact ⟨s, b, s₂, .refl, P.sound t s o b s₂ hanswer, ih b h⟩
    · cases h

theorem wp_passes {Q : α → σ → Prop} (hwp : O.wp t p Q s) (hinv : O.inv s)
    (h : Passes O t p s a s') : O.inv s' ∧ Q a s' := by
  induction p generalizing s with
  | pure b =>
    obtain ⟨rfl, hlater⟩ := h
    exact ⟨hlater.inv hinv, hwp s' hlater (hlater.inv hinv)⟩
  | get k ih =>
    obtain ⟨s₂, hlater, h⟩ := h
    exact ih _ (hwp s₂ hlater (hlater.inv hinv)) (hlater.inv hinv) h
  | call o k ih =>
    obtain ⟨s₂, b, s₃, hlater, hact, h⟩ := h
    obtain ⟨hgrants, hwp⟩ := hwp s₂ hlater (hlater.inv hinv) b s₃ hact
    exact ih b hwp hgrants.inv h

theorem passes_triple {P : σ → Prop} {Q : α → σ → Prop} (htriple : O.Triple t P p Q)
    (hinv : O.inv s) (hs : P s) (h : Passes O t p s a s') : Q a s' :=
  (wp_passes (htriple s hinv hs) hinv h).2

end EsyncUa.Passages
