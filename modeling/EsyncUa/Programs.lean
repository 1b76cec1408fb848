import Mathlib.Logic.Basic
import Mathlib.Tactic.Basic

/-!
Programs of one thread over a memory it shares with others.
A program returns, reads the memory at one moment, or performs an operation and
continues with its answer. Between two of these moments other threads may run.
Two syntactic facts about a program are computed here: which operations it may
perform at all, and which values it may return.
-/
namespace EsyncUa.Programs

/-- A program over the memory `μ` whose operation `o` is answered by an `Ans o`. -/
inductive Prog (μ : Type) {Op : Type} (Ans : Op → Type) (α : Type) : Type
  | pure (a : α) : Prog μ Ans α
  | get (k : μ → Prog μ Ans α) : Prog μ Ans α
  | call (o : Op) (k : Ans o → Prog μ Ans α) : Prog μ Ans α

variable {μ : Type} {Op : Type} {Ans : Op → Type} {α β γ : Type}

namespace Prog

def bind : Prog μ Ans α → (α → Prog μ Ans β) → Prog μ Ans β
  | pure a, f => f a
  | get k, f => get fun m => (k m).bind f
  | call o k, f => call o fun b => (k b).bind f

instance : Monad (Prog μ Ans) where
  pure := Prog.pure
  bind := Prog.bind

@[simp] theorem pure_eq (a : α) : (Pure.pure a : Prog μ Ans α) = Prog.pure a := rfl

@[simp] theorem pure_bind (a : α) (f : α → Prog μ Ans β) :
    (Prog.pure a : Prog μ Ans α) >>= f = f a := rfl

@[simp] theorem get_bind (k : μ → Prog μ Ans α) (f : α → Prog μ Ans β) :
    Prog.get k >>= f = Prog.get fun m => k m >>= f := rfl

@[simp] theorem call_bind (o : Op) (k : Ans o → Prog μ Ans α) (f : α → Prog μ Ans β) :
    Prog.call o k >>= f = Prog.call o fun b => k b >>= f := rfl

theorem bind_pure_right (p : Prog μ Ans α) : p >>= Prog.pure = p := by
  induction p with
  | pure a => rfl
  | get k ih =>
      rw [get_bind]
      exact congrArg Prog.get (funext ih)
  | call o k ih =>
      rw [call_bind]
      exact congrArg (Prog.call o) (funext ih)

theorem bind_bind (p : Prog μ Ans α) (f : α → Prog μ Ans β) (g : β → Prog μ Ans γ) :
    p >>= f >>= g = p >>= fun a => f a >>= g := by
  induction p with
  | pure a => rfl
  | get k ih => exact congrArg Prog.get (funext ih)
  | call o k ih => exact congrArg (Prog.call o) (funext ih)

instance : LawfulMonad (Prog μ Ans) :=
  LawfulMonad.mk' _ (fun p => bind_pure_right p) (fun _ _ => rfl) (fun p f g => bind_bind p f g)

/-- One read of the memory. -/
def read (f : μ → α) : Prog μ Ans α := get fun m => Prog.pure (f m)

/-- One operation, returning its answer. -/
def perform (o : Op) : Prog μ Ans (Ans o) := call o Prog.pure

/-- The program over a larger memory and among more operations. -/
def embed {μ' Op' : Type} {Ans' : Op' → Type} (g : μ' → μ) (f : Op → Op')
    (ans : ∀ o, Ans' (f o) → Ans o) : Prog μ Ans α → Prog μ' Ans' α
  | pure a => pure a
  | get k => get fun m => (k (g m)).embed g f ans
  | call o k => call (f o) fun b => (k (ans o b)).embed g f ans

/-- Every operation the program may perform satisfies `Q`. -/
def All (Q : Op → Prop) : Prog μ Ans α → Prop
  | pure _ => True
  | get k => ∀ m, (k m).All Q
  | call o k => Q o ∧ ∀ b, (k b).All Q

/-- Some answers and some memories lead the program to return `a`. -/
def Returns (a : α) : Prog μ Ans α → Prop
  | pure b => b = a
  | get k => ∃ m, (k m).Returns a
  | call _ k => ∃ b, (k b).Returns a

@[simp] theorem returns_pure (a b : α) : (Prog.pure b : Prog μ Ans α).Returns a ↔ b = a := Iff.rfl

@[simp] theorem returns_perform (o : Op) (b : Ans o) : (perform o : Prog μ Ans _).Returns b :=
  ⟨b, rfl⟩

@[simp] theorem returns_bind (p : Prog μ Ans α) (f : α → Prog μ Ans β) (b : β) :
    (p >>= f).Returns b ↔ ∃ a, p.Returns a ∧ (f a).Returns b := by
  induction p with
  | pure a => simp [Returns]
  | get k ih =>
      simp only [get_bind, Returns, ih]
      constructor
      · rintro ⟨m, a, ha, hb⟩
        exact ⟨a, ⟨m, ha⟩, hb⟩
      · rintro ⟨a, ⟨m, ha⟩, hb⟩
        exact ⟨m, a, ha, hb⟩
  | call o k ih =>
      simp only [call_bind, Returns, ih]
      constructor
      · rintro ⟨c, a, ha, hb⟩
        exact ⟨a, ⟨c, ha⟩, hb⟩
      · rintro ⟨a, ⟨c, ha⟩, hb⟩
        exact ⟨c, a, ha, hb⟩

variable (Q : Op → Prop)

@[simp] theorem all_pure (a : α) : (Prog.pure a : Prog μ Ans α).All Q := trivial

@[simp] theorem all_get (k : μ → Prog μ Ans α) : (get k).All Q ↔ ∀ m, (k m).All Q := Iff.rfl

@[simp] theorem all_call (o : Op) (k : Ans o → Prog μ Ans α) :
    (call o k).All Q ↔ Q o ∧ ∀ b, (k b).All Q := Iff.rfl

@[simp] theorem all_read (f : μ → α) : (read f : Prog μ Ans α).All Q := fun _ => trivial

@[simp] theorem all_perform (o : Op) : (perform o : Prog μ Ans _).All Q ↔ Q o :=
  ⟨fun h => h.1, fun h => ⟨h, fun _ => trivial⟩⟩

@[simp] theorem all_bind (p : Prog μ Ans α) (f : α → Prog μ Ans β) :
    (p >>= f).All Q ↔ p.All Q ∧ ∀ a, p.Returns a → (f a).All Q := by
  induction p with
  | pure a => simp [Returns]
  | get k ih =>
      simp only [get_bind, all_get, ih, Returns]
      constructor
      · intro h
        exact ⟨fun m => (h m).1, fun a ⟨m, ha⟩ => (h m).2 a ha⟩
      · intro h m
        exact ⟨h.1 m, fun a ha => h.2 a ⟨m, ha⟩⟩
  | call o k ih =>
      simp only [call_bind, all_call, ih, Returns]
      constructor
      · intro h
        exact ⟨⟨h.1, fun b => (h.2 b).1⟩, fun a ⟨b, ha⟩ => (h.2 b).2 a ha⟩
      · intro h
        exact ⟨h.1.1, fun b => ⟨h.1.2 b, fun a ha => h.2 a ⟨b, ha⟩⟩⟩

@[simp] theorem all_ite {c : Prop} [Decidable c] (p q : Prog μ Ans α) :
    (if c then p else q).All Q ↔ (c → p.All Q) ∧ (¬c → q.All Q) := by
  by_cases h : c <;> simp [h]

theorem all_true (p : Prog μ Ans α) : p.All fun _ => True := by
  induction p with
  | pure a => trivial
  | get k ih => exact ih
  | call o k ih => exact ⟨trivial, ih⟩

variable {Q} in
theorem All.mono {Q' : Op → Prop} (hQ : ∀ o, Q o → Q' o) {p : Prog μ Ans α} (h : p.All Q) :
    p.All Q' := by
  induction p with
  | pure a => trivial
  | get k ih => exact fun m => ih m (h m)
  | call o k ih => exact ⟨hQ o h.1, fun b => ih b (h.2 b)⟩

/-- An embedded program performs only operations of the smaller set. -/
theorem all_embed {μ' Op' : Type} {Ans' : Op' → Type} (g : μ' → μ) (f : Op → Op')
    (ans : ∀ o, Ans' (f o) → Ans o) (p : Prog μ Ans α) :
    (p.embed g f ans).All fun o' => ∃ o, o' = f o := by
  induction p with
  | pure a => trivial
  | get k ih => exact fun m => ih (g m)
  | call o k ih => exact ⟨⟨o, rfl⟩, fun b => ih (ans o b)⟩

end Prog

end EsyncUa.Programs
