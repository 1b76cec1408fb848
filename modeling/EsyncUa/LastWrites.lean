import Mathlib.Data.List.Basic

/-!
A variable that the elements of a list may assign one after the other. It ends with the last
value assigned, or with the value it had before; the order of the elements matters as soon as
two of them assign different values.
-/
namespace EsyncUa.LastWrites

variable {α β : Type*}

/-- The variable after a loop over the elements; `write` is what an element assigns. -/
def assigned (write : α → Option β) (old : β) (items : List α) : β :=
  items.foldl (fun value item => (write item).getD value) old

@[simp] theorem assigned_nil (write : α → Option β) (old : β) : assigned write old [] = old := rfl

@[simp] theorem assigned_cons (write : α → Option β) (old : β) (item : α) (items : List α) :
    assigned write old (item :: items) = assigned write ((write item).getD old) items := rfl

theorem assigned_append (write : α → Option β) (old : β) (items more : List α) :
    assigned write old (items ++ more) = assigned write (assigned write old items) more :=
  List.foldl_append

theorem assigned_of_silent (write : α → Option β) (old : β) (items : List α)
    (h : ∀ item ∈ items, write item = none) : assigned write old items = old := by
  induction items generalizing old with
  | nil => rfl
  | cons item rest ih =>
    obtain ⟨hitem, hrest⟩ := List.forall_mem_cons.mp h
    rw [assigned_cons, hitem]
    exact ih old hrest

/-- The last element that assigns anything decides. -/
theorem assigned_of_last (write : α → Option β) (old : β) (items later : List α) (item : α)
    (value : β) (hitem : write item = some value)
    (hlater : ∀ item ∈ later, write item = none) :
    assigned write old (items ++ item :: later) = value := by
  rw [assigned_append, assigned_cons, hitem]
  exact assigned_of_silent write value later hlater

/-- What is stored at the end was stored before or comes from one of the elements. -/
theorem assigned_source (write : α → Option β) (old : β) (items : List α) :
    assigned write old items = old ∧ (∀ item ∈ items, write item = none) ∨
      ∃ earlier item later, items = earlier ++ item :: later ∧
        write item = some (assigned write old items) ∧ ∀ item ∈ later, write item = none := by
  induction items generalizing old with
  | nil => exact Or.inl ⟨rfl, by simp⟩
  | cons item rest ih =>
    rcases ih ((write item).getD old) with ⟨hkept, hsilent⟩ | ⟨earlier, last, later, hrest, h⟩
    · cases hitem : write item with
      | none =>
        refine Or.inl ⟨by simpa [hitem] using hkept, ?_⟩
        exact List.forall_mem_cons.mpr ⟨hitem, hsilent⟩
      | some value =>
        refine Or.inr ⟨[], item, rest, rfl, ?_, hsilent⟩
        rw [assigned_cons, hkept, hitem, Option.getD_some]
    · exact Or.inr ⟨item :: earlier, last, later, by rw [hrest, List.cons_append], h⟩

theorem assigned_of_agreeing (write : α → Option β) (old : β) (items : List α) (value : β)
    (hagree : ∀ item ∈ items, write item = none ∨ write item = some value)
    (hsome : ∃ item ∈ items, write item = some value) : assigned write old items = value := by
  rcases assigned_source write old items with ⟨-, hsilent⟩ | ⟨earlier, item, later, hitems, h, -⟩
  · obtain ⟨item, hmem, hitem⟩ := hsome
    simp [hsilent item hmem] at hitem
  · rcases hagree item (by simp [hitems]) with hnone | hvalue
    · simp [hnone] at h
    · exact Option.some.inj (h.symm.trans hvalue)

/-- An element that assigns something can be moved to the end, where it decides. -/
theorem exists_perm_assigned (write : α → Option β) (old : β) (items : List α) (item : α)
    (value : β) (hmem : item ∈ items) (hitem : write item = some value) :
    ∃ reordered, reordered.Perm items ∧ assigned write old reordered = value := by
  obtain ⟨earlier, later, rfl⟩ := List.append_of_mem hmem
  refine ⟨(earlier ++ later) ++ [item], ?_, ?_⟩
  · exact (List.perm_append_singleton item _).trans List.perm_middle.symm
  · exact assigned_of_last write old _ [] item value hitem (by simp)

/-- The order of the elements does not matter exactly when no two of them disagree. -/
theorem assigned_perm_iff (write : α → Option β) (old : β) (items : List α) :
    (∀ reordered, reordered.Perm items →
        assigned write old reordered = assigned write old items) ↔
      ∀ item ∈ items, ∀ other ∈ items, ∀ value another,
        write item = some value → write other = some another → value = another := by
  constructor
  · intro h item hitem other hother value another hvalue hanother
    obtain ⟨first, hfirst, hlast⟩ :=
      exists_perm_assigned write old items item value hitem hvalue
    obtain ⟨second, hsecond, hlast'⟩ :=
      exists_perm_assigned write old items other another hother hanother
    rw [← hlast, ← hlast', h first hfirst, h second hsecond]
  · intro h reordered hperm
    rcases assigned_source write old items with
      ⟨hold, hsilent⟩ | ⟨earlier, item, later, hitems, hitem, -⟩
    · rw [hold]
      exact assigned_of_silent write old reordered fun item hmem =>
        hsilent item (hperm.mem_iff.mp hmem)
    · have hmem : item ∈ items := by simp [hitems]
      refine assigned_of_agreeing write old reordered _ ?_ ⟨item, hperm.mem_iff.mpr hmem, hitem⟩
      intro other hother
      cases hwrite : write other with
      | none => exact Or.inl rfl
      | some another =>
        have hsame := h item hmem other (hperm.mem_iff.mp hother) _ _ hitem hwrite
        exact Or.inr (by rw [hsame])

end EsyncUa.LastWrites
