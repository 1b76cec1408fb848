import EsyncUa.Programs
import Mathlib.Logic.Function.Basic
import Mathlib.Logic.Relation

/-!
Threads that run programs over one shared state, in every interleaving.
A step is a read or an operation of one thread; an operation may start a program on
an idle thread, and an idle thread may be given a new program from outside.
A restart stops every thread wherever it stands and keeps what the restart relation keeps.
-/
namespace EsyncUa.Machines

open EsyncUa.Programs

/-- Threads `τ` with programs over the memory `μ` that they see of the state `σ`. -/
structure Machine (τ μ σ : Type) {Op : Type} (Ans : Op → Type) where
  mem : σ → μ
  init : σ → Prop
  act : τ → (o : Op) → Ans o → σ → σ → Prop
  fork : τ → (o : Op) → Ans o → Option (τ × Prog μ Ans Unit)
  arrive : τ → Prog μ Ans Unit → σ → σ → Prop
  restart : σ → σ → Prop

/-- The state and what each thread still has to run; an idle thread has nothing left. -/
structure Config (τ μ σ : Type) {Op : Type} (Ans : Op → Type) where
  st : σ
  pool : τ → Prog μ Ans Unit

variable {τ μ σ : Type} {Op : Type} {Ans : Op → Type} [DecidableEq τ]

def Config.Idle (c : Config τ μ σ Ans) (t : τ) : Prop := c.pool t = Prog.pure ()

def idlePool : τ → Prog μ Ans Unit := fun _ => Prog.pure ()

namespace Machine

inductive Step (M : Machine τ μ σ Ans) : Config τ μ σ Ans → Config τ μ σ Ans → Prop
  | get (c t k) (hpool : c.pool t = Prog.get k) :
      Step M c ⟨c.st, Function.update c.pool t (k (M.mem c.st))⟩
  | call (c t o k b s) (hpool : c.pool t = Prog.call o k) (hact : M.act t o b c.st s)
      (hfork : M.fork t o b = none) :
      Step M c ⟨s, Function.update c.pool t (k b)⟩
  | fork (c t o k b s t' p) (hpool : c.pool t = Prog.call o k) (hact : M.act t o b c.st s)
      (hfork : M.fork t o b = some (t', p)) (hne : t' ≠ t) (hidle : c.Idle t') :
      Step M c ⟨s, Function.update (Function.update c.pool t (k b)) t' p⟩
  | arrive (c t p s) (hidle : c.Idle t) (harrive : M.arrive t p c.st s) :
      Step M c ⟨s, Function.update c.pool t p⟩
  | restart (c s) (hrestart : M.restart c.st s) : Step M c ⟨s, idlePool⟩

/-- The configurations of all runs from the initial states with every thread idle. -/
inductive Reachable (M : Machine τ μ σ Ans) : Config τ μ σ Ans → Prop
  | init (s) (hinit : M.init s) : Reachable M ⟨s, idlePool⟩
  | step (c c') (hc : Reachable M c) (hstep : M.Step c c') : Reachable M c'

theorem Reachable.run {M : Machine τ μ σ Ans} {c c' : Config τ μ σ Ans} (hc : M.Reachable c)
    (h : Relation.ReflTransGen M.Step c c') : M.Reachable c' := by
  induction h with
  | refl => exact hc
  | tail _ hstep ih => exact ih.step _ _ hstep

/-- The same threads where every state change of a thread also meets `C`. -/
def restrict (M : Machine τ μ σ Ans) (C : τ → σ → σ → Prop) : Machine τ μ σ Ans where
  mem := M.mem
  init := M.init
  act := fun t o b s s' => M.act t o b s s' ∧ C t s s'
  fork := M.fork
  arrive := fun t p s s' => M.arrive t p s s' ∧ C t s s'
  restart := M.restart

theorem Step.mono {M : Machine τ μ σ Ans} {C D : τ → σ → σ → Prop}
    (hCD : ∀ t s s', C t s s' → D t s s') {c c' : Config τ μ σ Ans}
    (h : (M.restrict C).Step c c') : (M.restrict D).Step c c' := by
  cases h with
  | get t k hpool => exact .get c t k hpool
  | call t o k b s hpool hact hfork =>
      exact .call c t o k b s hpool ⟨hact.1, hCD _ _ _ hact.2⟩ hfork
  | fork t o k b s t' p hpool hact hfork hne hidle =>
      exact .fork c t o k b s t' p hpool ⟨hact.1, hCD _ _ _ hact.2⟩ hfork hne hidle
  | arrive t p s hidle harrive => exact .arrive c t p s hidle ⟨harrive.1, hCD _ _ _ harrive.2⟩
  | restart s hrestart => exact .restart c s hrestart

theorem Reachable.mono {M : Machine τ μ σ Ans} {C D : τ → σ → σ → Prop}
    (hCD : ∀ t s s', C t s s' → D t s s') {c : Config τ μ σ Ans}
    (h : (M.restrict C).Reachable c) : (M.restrict D).Reachable c := by
  induction h with
  | init s hinit => exact .init s hinit
  | step c c' _ hstep ih => exact .step c c' ih (hstep.mono hCD)

theorem Reachable.restrict {M : Machine τ μ σ Ans} {C : τ → σ → σ → Prop}
    (hC : ∀ t s s', C t s s') {c : Config τ μ σ Ans} (h : M.Reachable c) :
    (M.restrict C).Reachable c := by
  induction h with
  | init s hinit => exact .init s hinit
  | step c c' _ hstep ih =>
      refine .step c c' ih ?_
      cases hstep with
      | get t k hpool => exact .get c t k hpool
      | call t o k b s hpool hact hfork => exact .call c t o k b s hpool ⟨hact, hC _ _ _⟩ hfork
      | fork t o k b s t' p hpool hact hfork hne hidle =>
          exact .fork c t o k b s t' p hpool ⟨hact, hC _ _ _⟩ hfork hne hidle
      | arrive t p s hidle harrive => exact .arrive c t p s hidle ⟨harrive, hC _ _ _⟩
      | restart s hrestart => exact .restart c s hrestart

theorem Step.of_restrict {M : Machine τ μ σ Ans} {C : τ → σ → σ → Prop}
    {c c' : Config τ μ σ Ans} (h : (M.restrict C).Step c c') : M.Step c c' := by
  cases h with
  | get t k hpool => exact .get c t k hpool
  | call t o k b s hpool hact hfork => exact .call c t o k b s hpool hact.1 hfork
  | fork t o k b s t' p hpool hact hfork hne hidle =>
      exact .fork c t o k b s t' p hpool hact.1 hfork hne hidle
  | arrive t p s hidle harrive => exact .arrive c t p s hidle harrive.1
  | restart s hrestart => exact .restart c s hrestart

theorem Reachable.of_restrict {M : Machine τ μ σ Ans} {C : τ → σ → σ → Prop}
    {c : Config τ μ σ Ans} (h : (M.restrict C).Reachable c) : M.Reachable c := by
  induction h with
  | init s hinit => exact .init s hinit
  | step c c' _ hstep ih => exact .step c c' ih hstep.of_restrict

/-- What every state change of one step keeps holds in every reachable state. -/
theorem Reachable.invariant {M : Machine τ μ σ Ans} {I : σ → Prop}
    (hinit : ∀ s, M.init s → I s)
    (hact : ∀ t o b s s', I s → M.act t o b s s' → I s')
    (harrive : ∀ t p s s', I s → M.arrive t p s s' → I s')
    (hrestart : ∀ s s', I s → M.restart s s' → I s')
    {c : Config τ μ σ Ans} (h : M.Reachable c) : I c.st := by
  induction h with
  | init s hs => exact hinit s hs
  | step c c' _ hstep ih =>
      cases hstep with
      | get t k hpool => exact ih
      | call t o k b s hpool ha _ => exact hact _ _ _ _ _ ih ha
      | fork t o k b s t' p hpool ha _ _ _ => exact hact _ _ _ _ _ ih ha
      | arrive t p s hidle ha => exact harrive _ _ _ _ ih ha
      | restart s hr => exact hrestart _ _ ih hr

end Machine

end EsyncUa.Machines
