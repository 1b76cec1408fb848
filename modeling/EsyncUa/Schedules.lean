import EsyncUa.Machines

/-!
Playing a run of a machine. A player chooses the answer to each operation; a schedule says
which thread moves next, how many steps it takes, and what comes from outside. What the
player may not do is not done, so every configuration that is played is reachable.
-/
namespace EsyncUa.Schedules

open EsyncUa.Programs EsyncUa.Machines Relation

variable {τ μ σ : Type} {Op : Type} {Ans : Op → Type}

/-- A choice among the answers that a machine allows. -/
structure Player (M : Machine τ μ σ Ans) where
  answer : τ → σ → (o : Op) → Option (Ans o × σ)
  sound : ∀ t s o b s', answer t s o = some (b, s') → M.act t o b s s'

/-- Where an answer is chosen first, the step has its effect. -/
theorem answered {β : Type} {answer : Option β} {effect : β → Option σ} {b : β} {s' : σ}
    (h : (answer.bind fun b => (effect b).map fun s' => (b, s')) = some (b, s')) :
    answer = some b ∧ effect b = some s' := by
  obtain ⟨b', hb', h⟩ := Option.bind_eq_some_iff.mp h
  obtain ⟨s₁, hs₁, heq⟩ := Option.map_eq_some_iff.mp h
  cases heq
  exact ⟨hb', hs₁⟩

def isIdle : Prog μ Ans Unit → Bool
  | .pure _ => true
  | _ => false

theorem idle_of_isIdle {c : Config τ μ σ Ans} {t : τ} (h : isIdle (c.pool t) = true) :
    c.Idle t := by
  unfold Config.Idle
  cases hp : c.pool t with
  | pure a => rfl
  | get k => simp [hp, isIdle] at h
  | call o k => simp [hp, isIdle] at h

variable [DecidableEq τ]

namespace Player

variable {M : Machine τ μ σ Ans} (P : Player M)

/-- The configuration after thread `t` got the answer `b`; nothing if a thread that it starts
has not ended yet. -/
def answered (t : τ) {o : Op} (k : Ans o → Prog μ Ans Unit) (pool : τ → Prog μ Ans Unit)
    (b : Ans o) (s : σ) : Option (Config τ μ σ Ans) :=
  match M.fork t o b with
  | none => some ⟨s, Function.update pool t (k b)⟩
  | some (t', p) =>
      if t' ≠ t ∧ isIdle (pool t') then
        some ⟨s, Function.update (Function.update pool t (k b)) t' p⟩
      else none

/-- One step of thread `t`. -/
def next (t : τ) (c : Config τ μ σ Ans) : Option (Config τ μ σ Ans) :=
  match c.pool t with
  | .pure _ => none
  | .get k => some ⟨c.st, Function.update c.pool t (k (M.mem c.st))⟩
  | .call o k => (P.answer t c.st o).bind fun r => answered (M := M) t k c.pool r.1 r.2

/-- At most `n` steps of thread `t`. -/
def advance (t : τ) : Nat → Config τ μ σ Ans → Config τ μ σ Ans
  | 0, c => c
  | n + 1, c =>
      match P.next t c with
      | none => c
      | some c' => advance t n c'

theorem next_step {t : τ} {c c' : Config τ μ σ Ans} (h : P.next t c = some c') :
    M.Step c c' := by
  unfold next at h
  cases hpool : c.pool t with
  | pure a => simp [hpool] at h
  | get k =>
      simp only [hpool, Option.some.injEq] at h
      exact h ▸ .get c t k hpool
  | call o k =>
      simp only [hpool, Option.bind_eq_some_iff] at h
      obtain ⟨⟨b, s⟩, hanswer, hnext⟩ := h
      have hact := P.sound t c.st o b s hanswer
      unfold answered at hnext
      cases hfork : M.fork t o b with
      | none =>
          simp only [hfork, Option.some.injEq] at hnext
          exact hnext ▸ .call c t o k b s hpool hact hfork
      | some tp =>
          obtain ⟨t', p⟩ := tp
          simp only [hfork] at hnext
          split at hnext
          · rename_i hfree
            simp only [Option.some.injEq] at hnext
            exact hnext ▸
              .fork c t o k b s t' p hpool hact hfork hfree.1 (idle_of_isIdle hfree.2)
          · simp at hnext

theorem advance_step {t : τ} {c : Config τ μ σ Ans} (h : (P.next t c).isSome = true) :
    M.Step c (P.advance t 1 c) := by
  obtain ⟨c', hc'⟩ := Option.isSome_iff_exists.mp h
  simpa only [advance, hc'] using P.next_step hc'

theorem advance_run (t : τ) (n : Nat) (c : Config τ μ σ Ans) :
    ReflTransGen M.Step c (P.advance t n c) := by
  induction n generalizing c with
  | zero => exact .refl
  | succ n ih =>
      unfold advance
      cases h : P.next t c with
      | none => exact .refl
      | some c' => exact (ih c').head (P.next_step h)

end Player

/-- One entry of a schedule: steps of a thread, a program from outside, or a restart. The
state after an arrival and after a restart is part of the entry. -/
inductive Move (M : Machine τ μ σ Ans) : Type
  | steps (t : τ) (n : Nat)
  | arrive (t : τ) (p : Prog μ Ans Unit) (s : σ → Option σ)
      (sound : ∀ s₀ s₁, s s₀ = some s₁ → M.arrive t p s₀ s₁)
  | restart (s : σ → σ) (sound : ∀ s₀, M.restart s₀ (s s₀))

namespace Player

variable {M : Machine τ μ σ Ans} (P : Player M)

def move : Move M → Config τ μ σ Ans → Config τ μ σ Ans
  | .steps t n, c => P.advance t n c
  | .arrive t p s _, c =>
      match s c.st with
      | some s₁ => if isIdle (c.pool t) then ⟨s₁, Function.update c.pool t p⟩ else c
      | none => c
  | .restart s _, c => ⟨s c.st, idlePool⟩

def play (moves : List (Move M)) (c : Config τ μ σ Ans) : Config τ μ σ Ans :=
  moves.foldl (fun c m => P.move m c) c

theorem move_run (m : Move M) (c : Config τ μ σ Ans) : ReflTransGen M.Step c (P.move m c) := by
  cases m with
  | steps t n => exact P.advance_run t n c
  | arrive t p s sound =>
      cases hs : s c.st with
      | none =>
          rw [show P.move (.arrive t p s sound) c = c by simp only [move, hs]]
      | some s₁ =>
          by_cases hidle : isIdle (c.pool t) = true
          · simp only [move, hs, hidle, if_true]
            exact .single (.arrive c t p s₁ (idle_of_isIdle hidle) (sound _ _ hs))
          · rw [show P.move (.arrive t p s sound) c = c by simp only [move, hs, if_neg hidle]]
  | restart s sound => exact .single (.restart c _ (sound c.st))

theorem play_run (moves : List (Move M)) (c : Config τ μ σ Ans) :
    ReflTransGen M.Step c (P.play moves c) := by
  induction moves generalizing c with
  | nil => exact .refl
  | cons m moves ih => exact (P.move_run m c).trans (ih _)

/-- Every configuration that is played is reachable. -/
theorem play_reachable (moves : List (Move M)) {c : Config τ μ σ Ans} (hc : M.Reachable c) :
    M.Reachable (P.play moves c) :=
  hc.run (P.play_run moves c)

end Player

/-- The same choices as far as a condition on the state changes allows them. -/
def Player.restrict {M : Machine τ μ σ Ans} (P : Player M) (C : τ → σ → σ → Prop)
    [∀ t s s', Decidable (C t s s')] : Player (M.restrict C) where
  answer := fun t s o => (P.answer t s o).filter fun r => C t s r.2
  sound := by
    intro t s o b s' h
    obtain ⟨hanswer, hC⟩ := Option.filter_eq_some_iff.mp h
    exact ⟨P.sound t s o b s' hanswer, of_decide_eq_true hC⟩

end EsyncUa.Schedules
