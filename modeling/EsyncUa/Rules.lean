import EsyncUa.Frames
import EsyncUa.Outlines

/-!
Proof rules for the statements that the agent's programs are made of, for any outline.
-/
namespace EsyncUa.Rules

open EsyncUa.JsonProperties EsyncUa.Components EsyncUa.Programs EsyncUa.Operations
open EsyncUa.Installation EsyncUa.Machines EsyncUa.Outlines EsyncUa.Agents

variable {σ : Type} {M : Machine Tid Shared σ Op.Ans} {O : Outline M} {t : Tid}
variable {α β : Type} {P : σ → Prop}

/-- Nothing follows a crash. -/
theorem crash_triple {f : β → UaProg α} {Q : α → σ → Prop} :
    O.Triple t P (crash >>= f) Q :=
  fun _ _ _ _ _ _ b => b.elim

theorem orCrash_bind {value : Option β} {f : β → UaProg α} {Q : α → σ → Prop}
    (h : ∀ a, value = some a → O.Triple t P (f a) Q) :
    O.Triple t P (orCrash value >>= f) Q := by
  cases value with
  | none => exact crash_triple
  | some a => exact h a rfl

theorem doIf_triple {c : Prop} [Decidable c] {p : UaProg Unit} {Q : Unit → σ → Prop}
    (hp : c → O.Triple t P p Q) (hstable : O.Stable t P)
    (hQ : ¬c → ∀ s, O.inv s → P s → Q () s) : O.Triple t P (doIf c p) Q :=
  Outline.Triple.ite hp fun h => .pure hstable (hQ h)

theorem ignoring_triple {p : UaProg α} {R : σ → Prop} (h : O.Triple t P p fun _ => R)
    (hstable : O.Stable t R) : O.Triple t P (ignoring p) fun _ => R :=
  .bind h fun _ => .pure hstable fun _ _ hs => hs

/-- Every event of a history, with the history before it. -/
def Throughout (φ : Event → List Event → Prop) : List Event → Prop
  | [] => True
  | e :: h => φ e h ∧ Throughout φ h

theorem Throughout.split {φ : Event → List Event → Prop} {after before : List Event} {e : Event}
    (h : Throughout φ (after ++ e :: before)) : φ e before := by
  induction after with
  | nil => exact h.1
  | cons _ after ih => exact ih h.2

/-- What the invariant, the condition on the run and the conduct of the threads say of one
event holds of all events. -/
theorem throughout_of_sound {cfg : AgentConfig} {C G : Tid → Event → World → Prop}
    {φ : Event → List Event → Prop} {O : Outline (runsWhere cfg C)} (hO : O.Sound)
    (hguar : O.guar = WhenEvents G)
    (hevent : ∀ t e w, O.inv w → C t e w → G t e w → φ e w.trace)
    (hreboot : ∀ h, φ .rebooted h) {c : AgentConfiguration}
    (hc : (runsWhere cfg C).Reachable c) : Throughout φ c.st.trace := by
  have hstep : ∀ t e (w w' : World), Throughout φ w.trace → w'.trace = e :: w.trace →
      WhenEvents C t w w' → O.Facts t w w' → Throughout φ w'.trace := by
    rintro t e w w' hw htrace hevents ⟨hinv, -, hfacts⟩
    rw [hguar] at hfacts
    rw [htrace]
    exact ⟨hevent t e w hinv (hevents e htrace) (hfacts e htrace), hw⟩
  refine (hO.strengthen hc).invariant (I := fun w => Throughout φ w.trace) ?_ ?_ ?_ ?_
  · rintro w ⟨htrace, -⟩
    rw [htrace]
    trivial
  · rintro t o b w w' hw ⟨⟨⟨-, htrace⟩, hevents⟩, hfacts⟩
    exact hstep t _ w w' hw htrace hevents hfacts
  · rintro t p w w' hw ⟨⟨⟨e, -, rfl⟩, hevents⟩, hfacts⟩
    exact hstep t e w _ hw rfl hevents hfacts
  · rintro w w' hw ⟨htrace, -⟩
    rw [htrace]
    exact ⟨hreboot _, hw⟩

end EsyncUa.Rules
