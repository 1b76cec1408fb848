import EsyncUa.JsonProperties
import EsyncUa.Successors
import Mathlib.Data.Fintype.EquivFin

/-!
The rollback versions that are tried one after the other. The next version is looked up by
the text of the current one. For an array of strings that is the walk of Successors, so the
versions come to an end exactly if no version that is still to be tried occurs earlier in the
array.
-/
namespace EsyncUa.RollbackVersions

open EsyncUa.JsonProperties EsyncUa.Successors

/-- The current version after it has been replaced by the next one `n` times. -/
def versionAfter (jsonArr : List Json) : Nat → String → Option String
  | 0, currentVer => some currentVer
  | n + 1, currentVer =>
      match getPkgNextRollbackVersion jsonArr (some currentVer) with
      | some (_, some nextVer) => versionAfter jsonArr n nextVer
      | _ => none

/-- After at most `steps` replacements there is no next version. -/
def RollbackEnds (jsonArr : List Json) (currentVer : String) (steps : Nat) : Prop :=
  ∃ n ≤ steps, ∃ lastVer, versionAfter jsonArr n currentVer = some lastVer ∧
    getPkgNextRollbackVersion jsonArr (some lastVer) = some (eUaErr, none)

theorem versionsAfter_strings (vers : List String) (currentVer : String) :
    versionsAfter currentVer (vers.map some) =
      some (if currentVer ∈ vers then some ((vers.drop (vers.idxOf currentVer + 1)).map some)
        else none) := by
  induction vers with
  | nil => rfl
  | cons ver vers ih =>
    simp only [List.map_cons, versionsAfter]
    by_cases heq : currentVer = ver
    · subst heq
      simp
    · rw [if_neg heq, ih, List.idxOf_cons_ne vers (Ne.symm heq)]
      simp [heq]

/-- For an array of strings the next version is the successor of the current one. -/
theorem getPkgNextRollbackVersion_strings (vers : List String) (currentVer : String) :
    getPkgNextRollbackVersion (vers.map Json.string) (some currentVer) =
      match successor vers currentVer with
      | some nextVer => some (eUaOk, some nextVer)
      | none => some (eUaErr, none) := by
  have hstrings : (vers.map Json.string).map Json.getString? = vers.map some := by
    rw [List.map_map]
    rfl
  have hrest : (if currentVer ∈ vers then
        some ((vers.drop (vers.idxOf currentVer + 1)).map some) else none).getD (vers.map some) =
      (vers.drop (startAfter vers currentVer)).map some := by
    rw [startAfter]
    split <;> simp
  have hnext : successor vers currentVer = (vers.drop (startAfter vers currentVer)).head? := by
    rw [List.head?_drop]
    rfl
  simp only [getPkgNextRollbackVersion, hstrings, versionsAfter_strings, hrest, hnext]
  cases vers.drop (startAfter vers currentVer) <;> rfl

theorem versionAfter_strings (vers : List String) (n : Nat) (currentVer : String) :
    versionAfter (vers.map Json.string) n currentVer = walk vers n currentVer := by
  induction n generalizing currentVer with
  | zero => rfl
  | succ n ih =>
    rw [versionAfter, walk, getPkgNextRollbackVersion_strings]
    cases successor vers currentVer with
    | none => rfl
    | some nextVer => exact ih nextVer

theorem rollbackEnds_strings (vers : List String) (currentVer : String) (steps : Nat) :
    RollbackEnds (vers.map Json.string) currentVer steps ↔ EndsWithin vers currentVer steps := by
  have hlast : ∀ lastVer, getPkgNextRollbackVersion (vers.map Json.string) (some lastVer) =
      some (eUaErr, none) ↔ successor vers lastVer = none := by
    intro lastVer
    rw [getPkgNextRollbackVersion_strings]
    cases successor vers lastVer <;> simp
  simp only [RollbackEnds, EndsWithin, versionAfter_strings, hlast]

/-- Rollback ends, and then after at most as many steps as the array has entries, if and only
if no version from the one after the current version on (from the first one on, if the current
version is not in the array) occurs earlier in the array. -/
theorem rollback_ends_iff (vers : List String) (currentVer : String) :
    (RollbackEnds (vers.map Json.string) currentVer vers.length ↔
      FreshFrom vers (startAfter vers currentVer)) ∧
    ((∃ steps, RollbackEnds (vers.map Json.string) currentVer steps) ↔
      FreshFrom vers (startAfter vers currentVer)) := by
  simp only [rollbackEnds_strings]
  refine ⟨⟨EndsWithin.fresh, FreshFrom.endsWithin⟩, ?_, fun h => ⟨_, h.endsWithin⟩⟩
  intro h
  obtain ⟨steps, hends⟩ := h
  exact hends.fresh

/-- Two versions that are tried in turn without an end. -/
theorem repeated_version_cycles :
    ¬ ∀ (vers : List String) (currentVer : String),
      RollbackEnds (vers.map Json.string) currentVer vers.length := by
  intro h
  have hends := (rollbackEnds_strings _ _ _).mp (h ["1.0", "2.0", "1.0"] "3.0")
  exact absurd hends.fresh (by decide)

/-- Whatever version is to be rolled back, the rollback ends if no version is repeated, and
only then. -/
theorem rollback_ends_from_all_iff (vers : List String) :
    (∀ currentVer, RollbackEnds (vers.map Json.string) currentVer vers.length) ↔ vers.Nodup := by
  simp only [rollbackEnds_strings]
  constructor
  · intro h
    obtain ⟨other, hother⟩ := Infinite.exists_notMem_finset vers.toFinset
    rw [List.mem_toFinset] at hother
    have hfresh := (h other).fresh
    rwa [startAfter, if_neg hother, freshFrom_zero_iff] at hfresh
  · intro h currentVer
    apply FreshFrom.endsWithin
    intro k hk _
    exact (freshFrom_zero_iff vers).mpr h k hk (Nat.zero_le k)

end EsyncUa.RollbackVersions
