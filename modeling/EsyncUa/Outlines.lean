import EsyncUa.Machines
import Mathlib.Logic.Relation

/-!
Proof outlines for the programs of a machine, thread by thread.
An outline names an invariant of the state, what each thread tolerates from the others,
what each thread's own steps satisfy, and what holds while a thread is idle. Every program
is then proved alone; the outline holds of every reachable configuration, and the facts
its steps satisfy may be added to the machine for the next outline.
-/
namespace EsyncUa.Outlines

open EsyncUa.Programs EsyncUa.Machines

variable {τ μ σ : Type} {Op : Type} {Ans : Op → Type} {α β : Type}

/-- `start t p` is what holds when thread `t` is given the program `p`, and `post t` what holds
while `t` is idle; `rely t` is what `t` tolerates from one step of another thread. -/
structure Outline (M : Machine τ μ σ Ans) where
  inv : σ → Prop
  rely : τ → σ → σ → Prop
  guar : τ → σ → σ → Prop
  start : τ → Prog μ Ans Unit → σ → Prop
  post : τ → σ → Prop

namespace Outline

variable {M : Machine τ μ σ Ans} (O : Outline M) (t : τ)

/-- The other threads took some steps. -/
def Later : σ → σ → Prop :=
  Relation.ReflTransGen fun s s' => O.rely t s s' ∧ O.inv s'

/-- What one operation of thread `t` owes to the outline. -/
structure Grants (o : Op) (b : Ans o) (s s' : σ) : Prop where
  inv : O.inv s'
  guar : O.guar t s s'
  rely : ∀ t₂, t₂ ≠ t → (∀ p, M.fork t o b ≠ some (t₂, p)) → O.rely t₂ s s'
  fork : ∀ t₂ p, t₂ ≠ t → M.fork t o b = some (t₂, p) → O.post t₂ s → O.start t₂ p s'

/-- From the state on, whatever the others do, thread `t` running the program keeps to the
outline and establishes `Q` when it returns. -/
def wp : Prog μ Ans α → (α → σ → Prop) → σ → Prop
  | .pure a, Q, s => ∀ s₁, O.Later t s s₁ → O.inv s₁ → Q a s₁
  | .get k, Q, s => ∀ s₁, O.Later t s s₁ → O.inv s₁ → wp (k (M.mem s₁)) Q s₁
  | .call o k, Q, s => ∀ s₁, O.Later t s s₁ → O.inv s₁ → ∀ b s₂, M.act t o b s₁ s₂ →
      O.Grants t o b s₁ s₂ ∧ wp (k b) Q s₂

def Stable (P : σ → Prop) : Prop :=
  ∀ s s', O.inv s → P s → O.rely t s s' → O.inv s' → P s'

def Triple (P : σ → Prop) (p : Prog μ Ans α) (Q : α → σ → Prop) : Prop :=
  ∀ s, O.inv s → P s → O.wp t p Q s

variable {O t} {P P' : σ → Prop} {Q Q' : α → σ → Prop} {R : β → σ → Prop}

theorem Later.inv {s s' : σ} (h : O.Later t s s') (hinv : O.inv s) : O.inv s' := by
  induction h with
  | refl => exact hinv
  | tail _ hlast _ => exact hlast.2

theorem Stable.later (hP : O.Stable t P) {s s' : σ} (h : O.Later t s s') (hinv : O.inv s)
    (hs : P s) : P s' := by
  induction h with
  | refl => exact hs
  | tail hmore hlast ih => exact hP _ _ (Later.inv hmore hinv) ih hlast.1 hlast.2

theorem Stable.and (hP : O.Stable t P) (hP' : O.Stable t P') :
    O.Stable t fun s => P s ∧ P' s :=
  fun s s' hinv h hr hinv' => ⟨hP s s' hinv h.1 hr hinv', hP' s s' hinv h.2 hr hinv'⟩

theorem stable_const (φ : Prop) : O.Stable t fun _ => φ := fun _ _ _ h _ _ => h

theorem stable_forall {ι : Sort*} {P : ι → σ → Prop} (h : ∀ i, O.Stable t (P i)) :
    O.Stable t fun s => ∀ i, P i s :=
  fun s s' hinv hs hr hinv' i => h i s s' hinv (hs i) hr hinv'

theorem stable_exists {ι : Sort*} {P : ι → σ → Prop} (h : ∀ i, O.Stable t (P i)) :
    O.Stable t fun s => ∃ i, P i s :=
  fun s s' hinv ⟨i, hs⟩ hr hinv' => ⟨i, h i s s' hinv hs hr hinv'⟩

theorem wp_later {p : Prog μ Ans α} {s s' : σ} (h : O.wp t p Q s) (hl : O.Later t s s') :
    O.wp t p Q s' := by
  cases p with
  | pure a => exact fun s₁ h₁ => h s₁ (hl.trans h₁)
  | get k => exact fun s₁ h₁ => h s₁ (hl.trans h₁)
  | call o k => exact fun s₁ h₁ => h s₁ (hl.trans h₁)

theorem wp_bind {p : Prog μ Ans β} {f : β → Prog μ Ans α} {s : σ} (hinv : O.inv s)
    (h : O.wp t p (fun b s => O.wp t (f b) Q s) s) : O.wp t (p >>= f) Q s := by
  induction p generalizing s with
  | pure b => exact h s .refl hinv
  | get k ih => exact fun s₁ h₁ hinv₁ => ih _ hinv₁ (h s₁ h₁ hinv₁)
  | call o k ih =>
      intro s₁ h₁ hinv₁ b s₂ hact
      obtain ⟨hgrants, hwp⟩ := h s₁ h₁ hinv₁ b s₂ hact
      exact ⟨hgrants, ih b hgrants.inv hwp⟩

theorem wp_mono {p : Prog μ Ans α} {s : σ} (hQ : ∀ a s, O.inv s → Q a s → Q' a s)
    (h : O.wp t p Q s) : O.wp t p Q' s := by
  induction p generalizing s with
  | pure a => exact fun s₁ h₁ hinv₁ => hQ a s₁ hinv₁ (h s₁ h₁ hinv₁)
  | get k ih => exact fun s₁ h₁ hinv₁ => ih _ (h s₁ h₁ hinv₁)
  | call o k ih =>
      intro s₁ h₁ hinv₁ b s₂ hact
      obtain ⟨hgrants, hwp⟩ := h s₁ h₁ hinv₁ b s₂ hact
      exact ⟨hgrants, ih b hwp⟩

theorem wp_returns {p : Prog μ Ans α} {s : σ} (h : O.wp t p Q s) :
    O.wp t p (fun a s => Q a s ∧ p.Returns a) s := by
  induction p generalizing s with
  | pure a => exact fun s₁ h₁ hinv₁ => ⟨h s₁ h₁ hinv₁, rfl⟩
  | get k ih =>
      intro s₁ h₁ hinv₁
      exact wp_mono (fun a _ _ ha => ⟨ha.1, _, ha.2⟩) (ih _ (h s₁ h₁ hinv₁))
  | call o k ih =>
      intro s₁ h₁ hinv₁ b s₂ hact
      obtain ⟨hgrants, hwp⟩ := h s₁ h₁ hinv₁ b s₂ hact
      exact ⟨hgrants, wp_mono (fun a _ _ ha => ⟨ha.1, b, ha.2⟩) (ih b hwp)⟩

namespace Triple

/-- What a program returns is one of the values it may return. -/
theorem returns {p : Prog μ Ans α} (h : O.Triple t P p Q) :
    O.Triple t P p fun a s => Q a s ∧ p.Returns a :=
  fun s hinv hs => wp_returns (h s hinv hs)

theorem pre {p : Prog μ Ans α} (h : O.Triple t P p Q) (hP : ∀ s, O.inv s → P' s → P s) :
    O.Triple t P' p Q :=
  fun s hinv hs => h s hinv (hP s hinv hs)

theorem post {p : Prog μ Ans α} (h : O.Triple t P p Q) (hQ : ∀ a s, O.inv s → Q a s → Q' a s) :
    O.Triple t P p Q' :=
  fun s hinv hs => wp_mono hQ (h s hinv hs)

theorem pure {a : α} (hP : O.Stable t P) (hQ : ∀ s, O.inv s → P s → Q a s) :
    O.Triple t P (Prog.pure a) Q :=
  fun _ hinv hs s₁ hl hinv₁ => hQ s₁ hinv₁ (hP.later hl hinv hs)

theorem bind {p : Prog μ Ans β} {f : β → Prog μ Ans α} (h : O.Triple t P p R)
    (hf : ∀ b, O.Triple t (R b) (f b) Q) : O.Triple t P (p >>= f) Q :=
  fun s hinv hs => wp_bind hinv (wp_mono (fun b s₁ hinv₁ hR => hf b s₁ hinv₁ hR) (h s hinv hs))

/-- A read: what the read value says about the state may be used at that moment. -/
theorem read_bind {f : μ → β} {k : β → Prog μ Ans α} (hP : O.Stable t P)
    (hR : ∀ s, O.inv s → P s → R (f (M.mem s)) s) (hk : ∀ b, O.Triple t (R b) (k b) Q) :
    O.Triple t P (Prog.read f >>= k) Q := by
  intro s hinv hs s₁ hl hinv₁
  exact hk _ s₁ hinv₁ (hR s₁ hinv₁ (hP.later hl hinv hs))

theorem read {f : μ → α} (hP : O.Stable t P) (hQ : ∀ a, O.Stable t (Q a))
    (hR : ∀ s, O.inv s → P s → Q (f (M.mem s)) s) :
    O.Triple t P (Prog.read f) Q := by
  intro s hinv hs s₁ hl hinv₁ s₂ hl₂ hinv₂
  exact (hQ _).later hl₂ hinv₁ (hR s₁ hinv₁ (hP.later hl hinv hs))

theorem perform_bind {o : Op} {k : Ans o → Prog μ Ans α} {R : Ans o → σ → Prop}
    (hP : O.Stable t P)
    (hact : ∀ s b s', O.inv s → P s → M.act t o b s s' → O.Grants t o b s s' ∧ R b s')
    (hk : ∀ b, O.Triple t (R b) (k b) Q) :
    O.Triple t P (Prog.perform o >>= k) Q := by
  intro s hinv hs s₁ hl hinv₁ b s₂ ha
  obtain ⟨hgrants, hR⟩ := hact s₁ b s₂ hinv₁ (hP.later hl hinv hs) ha
  exact ⟨hgrants, hk b s₂ hgrants.inv hR⟩

theorem perform {o : Op} {Q : Ans o → σ → Prop} (hP : O.Stable t P)
    (hQ : ∀ b, O.Stable t (Q b))
    (hact : ∀ s b s', O.inv s → P s → M.act t o b s s' → O.Grants t o b s s' ∧ Q b s') :
    O.Triple t P (Prog.perform o) Q := by
  intro s hinv hs s₁ hl hinv₁ b s₂ ha
  obtain ⟨hgrants, hR⟩ := hact s₁ b s₂ hinv₁ (hP.later hl hinv hs) ha
  exact ⟨hgrants, fun s₃ hl₃ hinv₃ => (hQ b).later hl₃ hgrants.inv hR⟩

/-- A program whose operations all keep `P` keeps `P`. -/
theorem frame {p : Prog μ Ans α} {G : Op → Prop} (hP : O.Stable t P)
    (hG : ∀ o b s s', G o → O.inv s → P s → M.act t o b s s' → O.Grants t o b s s' ∧ P s')
    (hp : p.All G) : O.Triple t P p fun a s => P s ∧ p.Returns a := by
  induction p with
  | pure a => exact pure hP fun s _ hs => ⟨hs, rfl⟩
  | get k ih =>
      intro s hinv hs s₁ hl hinv₁
      exact wp_mono (fun a s₂ _ h => ⟨h.1, _, h.2⟩)
        (ih _ (hp _) s₁ hinv₁ (hP.later hl hinv hs))
  | call o k ih =>
      intro s hinv hs s₁ hl hinv₁ b s₂ ha
      obtain ⟨hgrants, hs₂⟩ := hG o b s₁ s₂ hp.1 hinv₁ (hP.later hl hinv hs) ha
      exact ⟨hgrants, wp_mono (fun a s₃ _ h => ⟨h.1, b, h.2⟩)
        (ih b (hp.2 b) s₂ hgrants.inv hs₂)⟩

theorem ite {c : Prop} [Decidable c] {p q : Prog μ Ans α}
    (hp : c → O.Triple t P p Q) (hq : ¬c → O.Triple t P q Q) :
    O.Triple t P (if c then p else q) Q := by
  by_cases h : c
  · simpa only [if_pos h] using hp h
  · simpa only [if_neg h] using hq h

theorem exists_pre {ι : Sort*} {P : ι → σ → Prop} {p : Prog μ Ans α}
    (h : ∀ i, O.Triple t (P i) p Q) : O.Triple t (fun s => ∃ i, P i s) p Q :=
  fun s hinv ⟨i, hs⟩ => h i s hinv hs

theorem const_pre {φ : Prop} {p : Prog μ Ans α} (h : φ → O.Triple t P p Q) :
    O.Triple t (fun s => φ ∧ P s) p Q :=
  fun s hinv hs => h hs.1 s hinv hs.2

end Triple

/-- What is to be proved of an outline: its initial and restarted states, the programs that
arrive from outside, and each program that a thread may be given. -/
structure Sound (O : Outline M) : Prop where
  init : ∀ s, M.init s → O.inv s ∧ ∀ t, O.post t s
  restart : ∀ s s', O.inv s → M.restart s s' → O.inv s' ∧ ∀ t, O.post t s'
  stable : ∀ t, O.Stable t (O.post t)
  arrive : ∀ t p s s', O.inv s → O.post t s → M.arrive t p s s' →
    O.inv s' ∧ O.guar t s s' ∧ O.start t p s' ∧ ∀ t₂, t₂ ≠ t → O.rely t₂ s s'
  body : ∀ t p s, O.inv s → O.start t p s → O.wp t p (fun _ => O.post t) s

def Holds (O : Outline M) (c : Config τ μ σ Ans) : Prop :=
  O.inv c.st ∧ ∀ t, O.wp t (c.pool t) (fun _ => O.post t) c.st

theorem Sound.idle (hO : O.Sound) {s : σ} (hinv : O.inv s) (h : ∀ t, O.post t s) :
    O.Holds ⟨s, idlePool⟩ :=
  ⟨hinv, fun t _ hl _ => (hO.stable t).later hl hinv (h t)⟩

variable [DecidableEq τ]

theorem Sound.step (hO : O.Sound) {c c' : Config τ μ σ Ans} (hc : O.Holds c)
    (hstep : M.Step c c') : O.Holds c' := by
  cases hstep with
  | get t k hpool =>
      refine ⟨hc.1, fun t₂ => ?_⟩
      have ht := hc.2 t₂
      by_cases h : t₂ = t
      · subst h
        rw [hpool] at ht
        simpa only [Function.update_self] using ht c.st .refl hc.1
      · simpa only [Function.update_of_ne h] using ht
  | call t o k b s hpool hact hfork =>
      have ht := hc.2 t
      rw [hpool] at ht
      obtain ⟨hgrants, hwp⟩ := ht c.st .refl hc.1 b s hact
      refine ⟨hgrants.inv, fun t₂ => ?_⟩
      by_cases h : t₂ = t
      · subst h
        simpa only [Function.update_self] using hwp
      · have hrely := hgrants.rely t₂ h (by simp [hfork])
        simpa only [Function.update_of_ne h] using
          wp_later (hc.2 t₂) (.single ⟨hrely, hgrants.inv⟩)
  | fork t o k b s t' p hpool hact hfork hne hidle =>
      have ht := hc.2 t
      rw [hpool] at ht
      obtain ⟨hgrants, hwp⟩ := ht c.st .refl hc.1 b s hact
      have hpost : O.post t' c.st := by
        have ht' := hc.2 t'
        rw [hidle] at ht'
        exact ht' c.st .refl hc.1
      refine ⟨hgrants.inv, fun t₂ => ?_⟩
      by_cases h' : t₂ = t'
      · subst h'
        simpa only [Function.update_self] using
          hO.body t₂ p s hgrants.inv (hgrants.fork t₂ p hne hfork hpost)
      · simp only [Function.update_of_ne h']
        by_cases h : t₂ = t
        · subst h
          simpa only [Function.update_self] using hwp
        · have hrely := hgrants.rely t₂ h (by
            intro q hq
            rw [hfork] at hq
            exact h' (congrArg Prod.fst (Option.some.inj hq)).symm)
          simpa only [Function.update_of_ne h] using
            wp_later (hc.2 t₂) (.single ⟨hrely, hgrants.inv⟩)
  | arrive t p s hidle harrive =>
      have hpost : O.post t c.st := by
        have ht := hc.2 t
        rw [hidle] at ht
        exact ht c.st .refl hc.1
      obtain ⟨hinv, _, hstart, hrely⟩ := hO.arrive t p c.st s hc.1 hpost harrive
      refine ⟨hinv, fun t₂ => ?_⟩
      by_cases h : t₂ = t
      · subst h
        simpa only [Function.update_self] using hO.body t₂ p s hinv hstart
      · simpa only [Function.update_of_ne h] using
          wp_later (hc.2 t₂) (.single ⟨hrely t₂ h, hinv⟩)
  | restart s hrestart =>
      obtain ⟨hinv, hpost⟩ := hO.restart c.st s hc.1 hrestart
      exact hO.idle hinv hpost

/-- Every reachable configuration keeps to a sound outline. -/
theorem Sound.holds (hO : O.Sound) {c : Config τ μ σ Ans} (h : M.Reachable c) : O.Holds c := by
  induction h with
  | init s hinit =>
      obtain ⟨hinv, hpost⟩ := hO.init s hinit
      exact hO.idle hinv hpost
  | step c c' _ hstep ih => exact hO.step ih hstep

theorem Sound.inv (hO : O.Sound) {c : Config τ μ σ Ans} (h : M.Reachable c) : O.inv c.st :=
  (hO.holds h).1

theorem Sound.post_of_idle (hO : O.Sound) {c : Config τ μ σ Ans} (h : M.Reachable c) {t : τ}
    (hidle : c.Idle t) : O.post t c.st := by
  have ht := (hO.holds h).2 t
  rw [hidle] at ht
  exact ht c.st .refl (hO.holds h).1

/-- What a sound outline says about one state change of thread `t`. -/
def Facts (O : Outline M) (t : τ) (s s' : σ) : Prop := O.inv s ∧ O.inv s' ∧ O.guar t s s'

/-- The runs of a machine are runs of the machine restricted to the facts of a sound outline. -/
theorem Sound.strengthen (hO : O.Sound) {c : Config τ μ σ Ans} (h : M.Reachable c) :
    (M.restrict O.Facts).Reachable c := by
  induction h with
  | init s hinit => exact .init s hinit
  | step c c' hc hstep ih =>
      have hinv := hO.inv hc
      have hinv' := hO.inv (hc.step _ _ hstep)
      refine .step c c' ih ?_
      cases hstep with
      | get t k hpool => exact .get c t k hpool
      | call t o k b s hpool hact hfork =>
          have ht := (hO.holds hc).2 t
          rw [hpool] at ht
          exact .call c t o k b s hpool
            ⟨hact, hinv, hinv', (ht c.st .refl hinv b s hact).1.guar⟩ hfork
      | fork t o k b s t' p hpool hact hfork hne hidle =>
          have ht := (hO.holds hc).2 t
          rw [hpool] at ht
          exact .fork c t o k b s t' p hpool
            ⟨hact, hinv, hinv', (ht c.st .refl hinv b s hact).1.guar⟩ hfork hne hidle
      | arrive t p s hidle harrive =>
          have hpost := hO.post_of_idle hc hidle
          exact .arrive c t p s hidle
            ⟨harrive, hinv, hinv', (hO.arrive t p c.st s hinv hpost harrive).2.1⟩
      | restart s hrestart => exact .restart c s hrestart

end Outline

end EsyncUa.Outlines
