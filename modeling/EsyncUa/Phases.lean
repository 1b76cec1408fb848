import EsyncUa.Machines

/-!
The phases that a thread goes through while it runs a program. A protocol says in which phases
a thread may read, which operations it may perform in each, and to which phase a read or an
operation takes it. Every program is checked alone; what a phase says about the state then
holds of every thread in every reachable configuration.
-/
namespace EsyncUa.Phases

open EsyncUa.Programs EsyncUa.Machines

/-- The phases `S` of the threads `τ`. -/
structure Protocol (τ μ S : Type) {Op : Type} (Ans : Op → Type) where
  reads : τ → S → Prop
  sees : τ → S → μ → S → Prop
  may : τ → S → Op → Prop
  does : τ → S → (o : Op) → Ans o → S → Prop

variable {τ μ σ S : Type} {Op : Type} {Ans : Op → Type} {α β : Type}

namespace Protocol

variable (N : Protocol τ μ S Ans) (t : τ)

/-- Thread `t` running the program from phase `x` keeps to the protocol, and ends with a result
and in a phase that satisfy `Q`. -/
def Follows : Prog μ Ans α → S → (α → S → Prop) → Prop
  | .pure a, x, Q => Q a x
  | .get k, x, Q => N.reads t x ∧ ∀ m, ∃ x', N.sees t x m x' ∧ Follows (k m) x' Q
  | .call o k, x, Q => N.may t x o ∧ ∀ b, ∃ x', N.does t x o b x' ∧ Follows (k b) x' Q

variable {N t}

theorem Follows.bind {p : Prog μ Ans α} {f : α → Prog μ Ans β} {x : S} {Q : β → S → Prop}
    (h : N.Follows t p x fun a x' => N.Follows t (f a) x' Q) : N.Follows t (p >>= f) x Q := by
  induction p generalizing x with
  | pure a => exact h
  | get k ih =>
    refine ⟨h.1, fun m => ?_⟩
    obtain ⟨x', hsees, hk⟩ := h.2 m
    exact ⟨x', hsees, ih m hk⟩
  | call o k ih =>
    refine ⟨h.1, fun b => ?_⟩
    obtain ⟨x', hdoes, hk⟩ := h.2 b
    exact ⟨x', hdoes, ih b hk⟩

theorem Follows.mono {p : Prog μ Ans α} {x : S} {Q Q' : α → S → Prop} (h : N.Follows t p x Q)
    (hQ : ∀ a x', Q a x' → Q' a x') : N.Follows t p x Q' := by
  induction p generalizing x with
  | pure a => exact hQ a x h
  | get k ih =>
    refine ⟨h.1, fun m => ?_⟩
    obtain ⟨x', hsees, hk⟩ := h.2 m
    exact ⟨x', hsees, ih m hk⟩
  | call o k ih =>
    refine ⟨h.1, fun b => ?_⟩
    obtain ⟨x', hdoes, hk⟩ := h.2 b
    exact ⟨x', hdoes, ih b hk⟩

/-- A program whose operations leave the phase as it is. -/
theorem Follows.within {p : Prog μ Ans α} {G : Op → Prop} {x : S} (hp : p.All G)
    (hreads : N.reads t x) (hsees : ∀ m, N.sees t x m x)
    (hG : ∀ o, G o → N.may t x o ∧ ∀ b, N.does t x o b x) :
    N.Follows t p x fun _ x' => x' = x := by
  induction p with
  | pure a => rfl
  | get k ih => exact ⟨hreads, fun m => ⟨x, hsees m, ih m (hp m)⟩⟩
  | call o k ih =>
    exact ⟨(hG o hp.1).1, fun b => ⟨x, (hG o hp.1).2 b, ih b (hp.2 b)⟩⟩

theorem Follows.perform {o : Op} {x x' : S} (hmay : N.may t x o)
    (hdoes : ∀ b, N.does t x o b x') :
    N.Follows t (Prog.perform o : Prog μ Ans _) x fun _ y => y = x' :=
  ⟨hmay, fun b => ⟨x', hdoes b, rfl⟩⟩

variable (N) {M : Machine τ μ σ Ans} (rest : S) (Fits : τ → S → σ → Prop)

/-- A thread that is given the program from a phase that fits ends in the phase `rest`. -/
def Begins (t : τ) (p : Prog μ Ans Unit) (s : σ) : Prop :=
  ∃ x, Fits t x s ∧ N.Follows t p x fun _ y => y = rest

/-- What is to be proved of a protocol and of what its phases say about the state: idle threads
are in the phase `rest`. -/
structure Sound (M : Machine τ μ σ Ans) : Prop where
  init : ∀ s, M.init s → ∀ t, Fits t rest s
  restart : ∀ s s', M.restart s s' → ∀ t, Fits t rest s'
  sees : ∀ t s (phase : τ → S) x', (∀ t, Fits t (phase t) s) →
    N.sees t (phase t) (M.mem s) x' → Fits t x' s
  act : ∀ t o b s s' (phase : τ → S) x', (∀ t, Fits t (phase t) s) → M.act t o b s s' →
    N.does t (phase t) o b x' → Fits t x' s' ∧
    (∀ t₂, t₂ ≠ t → (∀ p, M.fork t o b ≠ some (t₂, p)) → Fits t₂ (phase t₂) s') ∧
    ∀ t₂ p, t₂ ≠ t → M.fork t o b = some (t₂, p) → phase t₂ = rest → N.Begins rest Fits t₂ p s'
  arrive : ∀ t p s s' (phase : τ → S), (∀ t, Fits t (phase t) s) → phase t = rest →
    M.arrive t p s s' → N.Begins rest Fits t p s' ∧ ∀ t₂, t₂ ≠ t → Fits t₂ (phase t₂) s'

variable {N rest Fits} [DecidableEq τ]

/-- Every thread is in a phase that fits, from which it keeps to the protocol. -/
theorem Sound.phases (hN : N.Sound rest Fits M) {c : Config τ μ σ Ans} (hc : M.Reachable c) :
    ∃ phase : τ → S, ∀ t, Fits t (phase t) c.st ∧
      N.Follows t (c.pool t) (phase t) fun _ y => y = rest := by
  have hupdate : ∀ (s : σ) (pool : τ → Prog μ Ans Unit) (phase : τ → S) (t : τ)
      (p : Prog μ Ans Unit), N.Begins rest Fits t p s →
      (∀ t₂, t₂ ≠ t →
        Fits t₂ (phase t₂) s ∧ N.Follows t₂ (pool t₂) (phase t₂) fun _ y => y = rest) →
      ∃ phase' : τ → S, ∀ t₂, Fits t₂ (phase' t₂) s ∧
        N.Follows t₂ (Function.update pool t p t₂) (phase' t₂) fun _ y => y = rest := by
    intro s pool phase t p ⟨x, hx, hp⟩ hothers
    refine ⟨Function.update phase t x, fun t₂ => ?_⟩
    by_cases h : t₂ = t
    · subst h
      simp only [Function.update_self]
      exact ⟨hx, hp⟩
    · simp only [Function.update_of_ne h]
      exact hothers t₂ h
  induction hc with
  | init s hinit => exact ⟨fun _ => rest, fun t => ⟨hN.init s hinit t, rfl⟩⟩
  | step c c' _ hstep ih =>
    obtain ⟨phase, hphase⟩ := ih
    have hfits : ∀ t, Fits t (phase t) c.st := fun t => (hphase t).1
    cases hstep with
    | get t k hpool =>
      have hk := (hphase t).2
      rw [hpool] at hk
      obtain ⟨x', hsees, hk⟩ := hk.2 (M.mem c.st)
      exact hupdate _ _ phase t _ ⟨x', hN.sees t c.st phase x' hfits hsees, hk⟩
        fun t₂ _ => hphase t₂
    | call t o k b s hpool hact hfork =>
      have hk := (hphase t).2
      rw [hpool] at hk
      obtain ⟨x', hdoes, hk⟩ := hk.2 b
      obtain ⟨hx', hothers, -⟩ := hN.act t o b c.st s phase x' hfits hact hdoes
      refine hupdate _ _ phase t _ ⟨x', hx', hk⟩ fun t₂ h => ⟨hothers t₂ h ?_, (hphase t₂).2⟩
      intro p hp
      exact Option.some_ne_none _ (hp.symm.trans hfork)
    | fork t o k b s t' p hpool hact hfork hne hidle =>
      have hk := (hphase t).2
      rw [hpool] at hk
      obtain ⟨x', hdoes, hk⟩ := hk.2 b
      obtain ⟨hx', hothers, hforked⟩ := hN.act t o b c.st s phase x' hfits hact hdoes
      have hrest := (hphase t').2
      rw [hidle] at hrest
      refine hupdate _ _ (Function.update phase t x') t' p (hforked t' p hne hfork hrest) ?_
      intro t₂ h'
      by_cases h : t₂ = t
      · subst h
        simp only [Function.update_self]
        exact ⟨hx', hk⟩
      · simp only [Function.update_of_ne h]
        refine ⟨hothers t₂ h fun q hq => h' ?_, (hphase t₂).2⟩
        exact congrArg Prod.fst (Option.some.inj (hq.symm.trans hfork))
    | arrive t p s hidle harrive =>
      have hrest := (hphase t).2
      rw [hidle] at hrest
      obtain ⟨hbegins, hothers⟩ := hN.arrive t p c.st s phase hfits hrest harrive
      exact hupdate _ _ phase t p hbegins fun t₂ h => ⟨hothers t₂ h, (hphase t₂).2⟩
    | restart s hrestart =>
      exact ⟨fun _ => rest, fun t => ⟨hN.restart c.st s hrestart t, rfl⟩⟩

end Protocol

end EsyncUa.Phases
