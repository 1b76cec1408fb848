import EsyncUa.Machines

/-!
What a program does as long as the memory it reads meets a condition. When every state of a
machine meets it, the programs that its threads are given decide what any thread may be about
to do.
-/
namespace EsyncUa.GuardedPrograms

open EsyncUa.Programs EsyncUa.Machines

variable {τ μ σ : Type} {Op : Type} {Ans : Op → Type} {α β : Type}

namespace Prog

/-- Every operation satisfies `Q` if every read finds a memory that satisfies `I`. -/
def AllUnder (I : μ → Prop) (Q : Op → Prop) : Prog μ Ans α → Prop
  | .pure _ => True
  | .get k => ∀ m, I m → AllUnder I Q (k m)
  | .call o k => Q o ∧ ∀ b, AllUnder I Q (k b)

/-- The program may return `a` if every read finds a memory that satisfies `I`. -/
def ReturnsUnder (I : μ → Prop) (a : α) : Prog μ Ans α → Prop
  | .pure b => b = a
  | .get k => ∃ m, I m ∧ ReturnsUnder I a (k m)
  | .call _ k => ∃ b, ReturnsUnder I a (k b)

variable (I : μ → Prop) (Q : Op → Prop)

@[simp] theorem allUnder_pure (a : α) : AllUnder I Q (Prog.pure a : Prog μ Ans α) := trivial

@[simp] theorem allUnder_read (f : μ → α) : AllUnder I Q (Prog.read f : Prog μ Ans α) :=
  fun _ _ => trivial

@[simp] theorem allUnder_call (o : Op) (k : Ans o → Prog μ Ans α) :
    AllUnder I Q (Prog.call o k) ↔ Q o ∧ ∀ b, AllUnder I Q (k b) := Iff.rfl

@[simp] theorem allUnder_perform (o : Op) :
    AllUnder I Q (Prog.perform o : Prog μ Ans _) ↔ Q o := by
  rw [Prog.perform, allUnder_call]
  exact and_iff_left fun b => trivial

@[simp] theorem allUnder_ite {c : Prop} [Decidable c] (p q : Prog μ Ans α) :
    AllUnder I Q (if c then p else q) ↔ (c → AllUnder I Q p) ∧ (¬c → AllUnder I Q q) := by
  by_cases h : c <;> simp [h]

@[simp] theorem allUnder_bind (p : Prog μ Ans α) (f : α → Prog μ Ans β) :
    AllUnder I Q (p >>= f) ↔
      AllUnder I Q p ∧ ∀ a, ReturnsUnder I a p → AllUnder I Q (f a) := by
  induction p with
  | pure a => simp [ReturnsUnder]
  | get k ih =>
    simp only [Prog.get_bind, AllUnder, ReturnsUnder, ih]
    constructor
    · intro h
      exact ⟨fun m hm => (h m hm).1, fun a ⟨m, hm, ha⟩ => (h m hm).2 a ha⟩
    · intro h m hm
      exact ⟨h.1 m hm, fun a ha => h.2 a ⟨m, hm, ha⟩⟩
  | call o k ih =>
    simp only [Prog.call_bind, allUnder_call, ReturnsUnder, ih]
    constructor
    · intro h
      exact ⟨⟨h.1, fun b => (h.2 b).1⟩, fun a ⟨b, ha⟩ => (h.2 b).2 a ha⟩
    · intro h
      exact ⟨h.1.1, fun b => ⟨h.1.2 b, fun a ha => h.2 a ⟨b, ha⟩⟩⟩

theorem returnsUnder_read (f : μ → α) (a : α) :
    ReturnsUnder I a (Prog.read f : Prog μ Ans α) ↔ ∃ m, I m ∧ f m = a := Iff.rfl

end Prog

variable {M : Machine τ μ σ Ans} [DecidableEq τ] {I : μ → Prop} {Q : Op → Prop}

/-- What the programs that are started and that arrive do under a condition on the memory that
always holds is what every thread does. -/
theorem pool_allUnder (hmem : ∀ c, M.Reachable c → I (M.mem c.st))
    (hfork : ∀ t o b t' p, M.fork t o b = some (t', p) → Prog.AllUnder I Q p)
    (harrive : ∀ t p s s', M.arrive t p s s' → Prog.AllUnder I Q p)
    {c : Config τ μ σ Ans} (hc : M.Reachable c) (t : τ) : Prog.AllUnder I Q (c.pool t) := by
  have hupdate : ∀ (pool : τ → Prog μ Ans Unit) (t' : τ) (p : Prog μ Ans Unit),
      (∀ t, Prog.AllUnder I Q (pool t)) → Prog.AllUnder I Q p →
      ∀ t, Prog.AllUnder I Q (Function.update pool t' p t) := by
    intro pool t' p hpool hp t
    by_cases h : t = t'
    · rw [h, Function.update_self]
      exact hp
    · rw [Function.update_of_ne h]
      exact hpool t
  induction hc generalizing t with
  | init s hinit => exact trivial
  | step c c' hc hstep ih =>
    cases hstep with
    | get t' k hpool =>
      have hk := ih t'
      rw [hpool] at hk
      exact hupdate _ _ _ ih (hk _ (hmem c hc)) t
    | call t' o k b s hpool hact hforks =>
      have hk := ih t'
      rw [hpool] at hk
      exact hupdate _ _ _ ih (hk.2 b) t
    | fork t' o k b s u p hpool hact hforks hne hidle =>
      have hk := ih t'
      rw [hpool] at hk
      exact hupdate _ _ _ (hupdate _ _ _ ih (hk.2 b)) (hfork _ _ _ _ _ hforks) t
    | arrive t' p s hidle ha => exact hupdate _ _ _ ih (harrive _ _ _ _ ha) t
    | restart s hrestart => exact trivial

end EsyncUa.GuardedPrograms
