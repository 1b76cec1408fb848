import EsyncUa.Delivery
import EsyncUa.LastWrites
import EsyncUa.Rehearsals

/-!
The component that `ua_backup_package` backs up. Its search goes through the registered handlers
with each handler's own type, which hides the type it is asked for, and does not stop: the last
handler with a registered component decides.
-/
namespace EsyncUa.BackupTargets

open JsonProperties Components Programs Operations Installation Routing RoutingTree Registration
open Delivery LastWrites

section Model

variable {κ : Type} [DecidableEq κ]

/-- The loop over the gathered runners; a component is named by the address of its runner. -/
def firstOfType (lib : Library UaccPtr κ) (type : List Char) :
    List UaccPtr → Option (Option UaccPtr)
  | [] => some none
  | ri :: rest => do
      let info ← lib.runners ri
      if info.type = type then some (some ri) else firstOfType lib type rest

/-- The loop over the handlers, with the component found so far. -/
def searchComponent : Library UaccPtr κ → List (Handler κ) → Option UaccPtr →
    Option (Option UaccPtr)
  | _, [], uacc => some uacc
  | lib, uah :: rest, uacc => do
      let type := uah.typeHandler
      let (tree, riList) ← queryRiTree lib.riTree none type false (some []) true
      let lib := { lib with riTree := tree }
      let found ← firstOfType lib type (riList.getD [])
      searchComponent lib rest (found <|> uacc)

/-- A manifest path is set if it is NULL and its directory is known. -/
def fillManifest (uacc : UaccPtr) (manifest : UaComponentContext → Option String)
    (dir : UaInternal → Option String) (store : Option String → Assign)
    (parts : List (Option String)) : UaProg Bool := do
  let old ← readComp uacc manifest
  let dir ← readIntl dir
  if old.isNone ∧ isSet dir then do
    assign uacc (store (join dir parts))
    pure true
  else pure false

/-- What `ua_backup_package` does with the component it has found. -/
def backupComponent (uacc : UaccPtr) (pkgName version : Option String) : UaProg Rc := do
  let freeUpdate ← fillManifest uacc (·.updateManifest) (·.cacheDir) .updateManifest
    [pkgName, some manifestPkg]
  let freeBackup ← fillManifest uacc (·.backupManifest) (·.backupDir) .backupManifest
    [some "backup", pkgName, some manifestPkg]
  let ret ← handlerBackupActions uacc pkgName version
  doIf freeUpdate (assign uacc (.updateManifest none))
  doIf freeBackup (assign uacc (.backupManifest none))
  pure ret

/-- `ua_backup_package`: the program that it runs; `none` is an access to a freed runner. -/
def uaBackupPackage (lib : Library UaccPtr κ) (_type : List Char)
    (pkgName version : Option String) : Option (UaProg Rc) := do
  match ← searchComponent lib lib.uah none with
  | none => some (pure eUaErr)
  | some uacc => some (backupComponent uacc pkgName version)

end Model

section Reached

variable {ρ κ : Type} [LinearOrder ρ] [DecidableEq κ]

/-- The libraries after any sequence of registrations and their removals, successful or not. -/
inductive Reached (callbacks : κ → Callbacks) : Library ρ κ → Prop
  | initial : Reached callbacks initial
  | call {lib lib' : Library ρ κ} {ret : Rc} (c : Call ρ κ) (h : Reached callbacks lib)
      (halloc : Allocates lib c) (hcall : call callbacks lib c = some (lib', ret)) :
      Reached callbacks lib'

/-- A registration that fails drops the tree. -/
theorem registerHandlers_failed (callbacks : κ → Callbacks) (ends : ρ → Bool)
    (all : List (Handler κ)) (uah : List (Handler κ × Start ρ)) {lib lib' : Library ρ κ} {ret : Rc}
    (hcall : registerHandlers callbacks ends all uah lib = some (lib', ret))
    (hret : ret ≠ eUaOk) : lib'.riTree = none := by
  induction uah generalizing lib with
  | nil =>
    cases hcall
    exact absurd rfl hret
  | cons entry rest ih =>
    obtain ⟨⟨lib₁, err⟩, -, hcall⟩ := Option.bind_eq_some_iff.mp hcall
    by_cases herr : err = eUaOk
    · simp only [herr, if_true] at hcall
      exact ih hcall
    · simp only [herr, if_false] at hcall
      obtain ⟨⟨lib₂, ret₂⟩, hunregister, hreturn⟩ := Option.bind_eq_some_iff.mp hcall
      simp only [Option.pure_def, Option.some.injEq, Prod.mk.injEq] at hreturn
      rw [← hreturn.1]
      exact uaUnregister_tree ends all hunregister

/-- The tree always holds runners that are allocated. -/
theorem Reached.inv {callbacks : κ → Callbacks} {lib : Library ρ κ} (h : Reached callbacks lib) :
    ∃ S, Inv S lib := by
  induction h with
  | initial => exact ⟨∅, inv_empty rfl⟩
  | @call lib lib' ret c h halloc hcall ih =>
    obtain ⟨S, hS⟩ := ih
    cases c with
    | register uah ends =>
      by_cases hret : ret = eUaOk
      · subst hret
        exact ⟨_, inv_call callbacks (.register uah ends) hS halloc hcall nofun⟩
      · exact ⟨∅, inv_empty (registerHandlers_failed callbacks ends _ uah hcall hret)⟩
    | unregister uah ends => exact ⟨∅, inv_empty (uaUnregister_tree ends uah hcall)⟩

/-- The runners in the tree, at any path. -/
def InTree (lib : Library ρ κ) (path : List (List Char)) (ri : ρ) : Prop :=
  ri ∈ itemsAt path (lib.riTree.getD .bare)

theorem Reached.allocated {callbacks : κ → Callbacks} {lib : Library ρ κ}
    (h : Reached callbacks lib) {path : List (List Char)} {ri : ρ} (hri : InTree lib path ri) :
    ∃ info, lib.runners ri = some info := by
  obtain ⟨S, hS⟩ := h.inv
  obtain ⟨e, he, -, rfl⟩ := (mem_items_iff hS path ri).mp hri
  obtain ⟨info, hinfo, -⟩ := hS.allocated e he
  exact ⟨info, hinfo⟩

end Reached

section Targets

variable {κ : Type} [DecidableEq κ] {callbacks : κ → Callbacks} {lib : Library UaccPtr κ}

/-- The component is registered for exactly this type. -/
def Registered (lib : Library UaccPtr κ) (type : List Char) (uacc : UaccPtr) : Prop :=
  InTree lib (components type) uacc ∧ ∃ info, lib.runners uacc = some info ∧ info.type = type

/-- Some component is registered for exactly this type. -/
def Served (lib : Library UaccPtr κ) (type : List Char) : Prop := ∃ uacc, Registered lib type uacc

/-- A component registered for the type is backed up; without one nothing is done. -/
structure Selects (lib : Library UaccPtr κ) (type : List Char) (pkgName version : Option String) :
    Prop where
  component : Served lib type → ∃ uacc, Registered lib type uacc ∧
    uaBackupPackage lib type pkgName version = some (backupComponent uacc pkgName version)
  nothing : ¬Served lib type →
    uaBackupPackage lib type pkgName version = some (pure eUaErr)

/-- The last handler with a registered component is one for the type, and there is such a
handler if a component is registered for the type. -/
structure Matches (lib : Library UaccPtr κ) (type : List Char) : Prop where
  last : ∀ before handler after, lib.uah = before ++ handler :: after →
    Served lib handler.typeHandler → (∀ later ∈ after, ¬Served lib later.typeHandler) →
    handler.typeHandler = type
  found : Served lib type → ∃ handler ∈ lib.uah, Served lib handler.typeHandler

omit [DecidableEq κ] in
theorem Registered.type_eq {type type' : List Char} {uacc : UaccPtr}
    (h : Registered lib type uacc) (h' : Registered lib type' uacc) : type = type' := by
  obtain ⟨-, info, hinfo, rfl⟩ := h
  obtain ⟨-, info', hinfo', rfl⟩ := h'
  rw [Option.some.inj (hinfo.symm.trans hinfo')]

/-- The component that the loop finds for one handler. -/
def hit (lib : Library UaccPtr κ) (type : List Char) : Option UaccPtr :=
  (itemsAt (components type) (lib.riTree.getD .bare)).find? fun ri =>
    (lib.runners ri).any fun info => decide (info.type = type)

omit [DecidableEq κ] in
theorem firstOfType_eq (lib : Library UaccPtr κ) (type : List Char) (gathered : List UaccPtr)
    (halloc : ∀ ri ∈ gathered, ∃ info, lib.runners ri = some info) :
    firstOfType lib type gathered = some (gathered.find? fun ri =>
      (lib.runners ri).any fun info => decide (info.type = type)) := by
  induction gathered with
  | nil => rfl
  | cons ri rest ih =>
    obtain ⟨⟨info, hinfo⟩, hrest⟩ := List.forall_mem_cons.mp halloc
    rw [firstOfType, hinfo]
    by_cases htype : info.type = type
    · simp [htype, hinfo]
    · simp [htype, hinfo, ih hrest]

omit [DecidableEq κ] in
theorem hit_eq_some {type : List Char} {uacc : UaccPtr} (h : hit lib type = some uacc) :
    Registered lib type uacc := by
  refine ⟨List.mem_of_find?_eq_some h, ?_⟩
  have hany := List.find?_some h
  obtain ⟨info, hinfo, htype⟩ := (Option.any_eq_true _ _).mp hany
  exact ⟨info, hinfo, of_decide_eq_true htype⟩

omit [DecidableEq κ] in
theorem hit_eq_none_iff (lib : Library UaccPtr κ) (type : List Char) :
    hit lib type = none ↔ ¬Served lib type := by
  constructor
  · rintro h ⟨uacc, hmem, info, hinfo, htype⟩
    have hnot := List.find?_eq_none.mp h uacc hmem
    simp [hinfo, htype] at hnot
  · intro h
    cases hhit : hit lib type with
    | none => rfl
    | some uacc => exact absurd ⟨uacc, hit_eq_some hhit⟩ h

/-- The search leaves the component of the last handler that has one. -/
theorem searchComponent_eq (h : Reached callbacks lib) (uah : List (Handler κ))
    (uacc : Option UaccPtr) :
    searchComponent lib uah uacc =
      some (assigned (fun handler => (hit lib handler.typeHandler).map some) uacc uah) := by
  induction uah generalizing uacc with
  | nil => rfl
  | cons handler rest ih =>
    obtain ⟨gathered, hquery, hgathered⟩ := query_gathers lib.riTree handler.typeHandler true
    rw [gather_tip] at hgathered
    have hfound : firstOfType lib handler.typeHandler gathered =
        some (hit lib handler.typeHandler) := by
      rw [firstOfType_eq lib handler.typeHandler gathered, hgathered]
      · rfl
      · intro ri hri
        rw [hgathered] at hri
        exact h.allocated hri
    rw [searchComponent, hquery]
    simp only [Option.bind_eq_bind, Option.bind_some, Option.getD_some, hfound, assigned_cons]
    rw [ih]
    cases hit lib handler.typeHandler <;> rfl

/-- The first operation of a program on a memory that does not change before. -/
def firstOp {α : Type} (m : Shared) : UaProg α → Option Op
  | .pure _ => none
  | .get k => firstOp m (k m)
  | .call o _ => some o

/-- With a cache directory and no manifest set, the manifest of the component is set first. -/
theorem firstOp_backupComponent (uacc : UaccPtr) (pkgName version : Option String) :
    firstOp ((Rehearsals.sampleConfig false 0).started .empty .empty)
        (backupComponent uacc pkgName version) =
      some (.assign uacc (.updateManifest (join (some "/cache") [pkgName, some manifestPkg]))) :=
  rfl

/-- The programs of two components differ. -/
theorem backupComponent_injective {uacc uacc' : UaccPtr} {pkgName version : Option String}
    (h : backupComponent uacc pkgName version = backupComponent uacc' pkgName version) :
    uacc = uacc' := by
  have hfirst := firstOp_backupComponent uacc pkgName version
  rw [h, firstOp_backupComponent] at hfirst
  exact (Op.assign.inj (Option.some.inj hfirst)).1.symm

theorem backupComponent_ne_pure (uacc : UaccPtr) (pkgName version : Option String) (ret : Rc) :
    backupComponent uacc pkgName version ≠ pure ret := nofun

theorem uaBackupPackage_some (h : Reached callbacks lib) (type : List Char)
    (pkgName version : Option String) {before after : List (Handler κ)} {handler : Handler κ}
    {uacc : UaccPtr} (huah : lib.uah = before ++ handler :: after)
    (hhit : hit lib handler.typeHandler = some uacc)
    (hafter : ∀ later ∈ after, hit lib later.typeHandler = none) :
    uaBackupPackage lib type pkgName version = some (backupComponent uacc pkgName version) := by
  rw [uaBackupPackage, searchComponent_eq h, huah,
    assigned_of_last _ _ before after handler (some uacc) (by rw [hhit]; rfl)
      fun later hlater => by rw [hafter later hlater]; rfl]
  rfl

theorem uaBackupPackage_none (h : Reached callbacks lib) (type : List Char)
    (pkgName version : Option String)
    (hnone : ∀ handler ∈ lib.uah, hit lib handler.typeHandler = none) :
    uaBackupPackage lib type pkgName version = some (pure eUaErr) := by
  rw [uaBackupPackage, searchComponent_eq h, assigned_of_silent _ _ _ fun handler hhandler => by
    rw [hnone handler hhandler]; rfl]
  rfl

omit [DecidableEq κ] in
/-- Either no handler has a component, or one of them is the last that has. -/
theorem exists_last_hit (lib : Library UaccPtr κ) (uah : List (Handler κ)) :
    (∀ handler ∈ uah, hit lib handler.typeHandler = none) ∨
      ∃ before handler after uacc, uah = before ++ handler :: after ∧
        hit lib handler.typeHandler = some uacc ∧
        ∀ later ∈ after, hit lib later.typeHandler = none := by
  rcases assigned_source (fun handler => hit lib handler.typeHandler) 0 uah with
    ⟨-, hnone⟩ | ⟨before, handler, after, huah, hhit, hafter⟩
  · exact Or.inl hnone
  · exact Or.inr ⟨before, handler, after, _, huah, hhit, hafter⟩

/-- In every library that can be reached, the right component is backed up exactly when the
last handler with a registered component is one for the type. -/
theorem selects_iff (h : Reached callbacks lib) (type : List Char)
    (pkgName version : Option String) :
    Selects lib type pkgName version ↔ Matches lib type := by
  constructor
  · intro hselects
    refine ⟨?_, ?_⟩
    · intro before handler after huah hserved hafter
      obtain ⟨uacc, hhit⟩ := Option.ne_none_iff_exists'.mp fun hnone =>
        (hit_eq_none_iff lib handler.typeHandler).mp hnone hserved
      have hprogram := uaBackupPackage_some h type pkgName version huah hhit fun later hlater =>
        (hit_eq_none_iff lib later.typeHandler).mpr (hafter later hlater)
      by_cases htype : Served lib type
      · obtain ⟨uacc', hregistered, hprogram'⟩ := hselects.component htype
        obtain rfl := backupComponent_injective
          (Option.some.inj (hprogram.symm.trans hprogram'))
        exact (hit_eq_some hhit).type_eq hregistered
      · exact absurd (Option.some.inj (hprogram.symm.trans (hselects.nothing htype)))
          (backupComponent_ne_pure uacc pkgName version eUaErr)
    · intro htype
      rcases exists_last_hit lib lib.uah with hnone | ⟨before, handler, after, uacc, huah, hhit, -⟩
      · obtain ⟨uacc, -, hprogram⟩ := hselects.component htype
        have herr := uaBackupPackage_none h type pkgName version hnone
        exact absurd (Option.some.inj (hprogram.symm.trans herr))
          (backupComponent_ne_pure uacc pkgName version eUaErr)
      · exact ⟨handler, by simp [huah], uacc, hit_eq_some hhit⟩
  · intro hmatches
    rcases exists_last_hit lib lib.uah with
      hnone | ⟨before, handler, after, uacc, huah, hhit, hafter⟩
    · refine ⟨fun htype => ?_, fun _ => uaBackupPackage_none h type pkgName version hnone⟩
      obtain ⟨handler, hhandler, hserved⟩ := hmatches.found htype
      exact absurd hserved ((hit_eq_none_iff lib handler.typeHandler).mp (hnone handler hhandler))
    · have hregistered := hit_eq_some hhit
      have htype := hmatches.last before handler after huah ⟨uacc, hregistered⟩ fun later hlater =>
        (hit_eq_none_iff lib later.typeHandler).mp (hafter later hlater)
      rw [htype] at hregistered
      refine ⟨fun _ => ⟨uacc, hregistered, ?_⟩, fun hnot => absurd ⟨uacc, hregistered⟩ hnot⟩
      exact uaBackupPackage_some h type pkgName version huah hhit hafter

end Targets

/-- The library after the registration of one routine for two types. -/
def twoComponents : Library UaccPtr Nat where
  riTree := some (.mk [] [("A".toList, .mk [1] [("B".toList, .mk [2] [])])])
  runners := Function.update (Function.update (fun _ => none)
    1 (some ⟨"/A".toList, some 0, true, []⟩)) 2 (some ⟨"/A/B".toList, some 0, true, []⟩)
  uah := twoHandlers.map Prod.fst
  state := .handlerRegistered

theorem twoComponents_reached : Reached (fun _ => ⟨false, false, true⟩) twoComponents := by
  have hcall : call (fun _ => ⟨false, false, true⟩) initial
      (.register twoHandlers fun _ => true) = some (twoComponents, eUaOk) := by
    simp [call, uaRegister, twoHandlers, registerHandlers, registerHandler, queryRiTree,
      setRunner, query_register, initial, eUaOk, twoComponents]
    rfl
  exact .call (.register twoHandlers fun _ => true) .initial ⟨by decide, fun _ _ => rfl⟩ hcall

theorem registered_first : Registered twoComponents "/A".toList 1 := by
  refine ⟨?_, _, rfl, rfl⟩
  unfold InTree
  rw [show components "/A".toList = ["A".toList] from rfl]
  decide

theorem registered_second : Registered twoComponents "/A/B".toList 2 := by
  refine ⟨?_, _, rfl, rfl⟩
  unfold InTree
  rw [show components "/A/B".toList = ["A".toList, "B".toList] from rfl]
  decide

theorem selects_iff_example :
    Selects twoComponents "/A/B".toList (some "p") (some "1") := by
  refine (selects_iff twoComponents_reached "/A/B".toList (some "p") (some "1")).mpr ⟨?_, ?_⟩
  · intro before handler after huah _ hafter
    cases before with
    | nil =>
      obtain ⟨-, rfl⟩ := List.cons.inj huah
      exact absurd ⟨2, registered_second⟩ (hafter _ List.mem_cons_self)
    | cons first before =>
      obtain ⟨-, hrest⟩ := List.cons.inj huah
      cases before with
      | nil =>
        obtain ⟨rfl, -⟩ := List.cons.inj hrest
        rfl
      | cons second before =>
        obtain ⟨-, hnil⟩ := List.cons.inj hrest
        simp at hnil
  · exact fun _ => ⟨⟨"/A/B".toList, some 0⟩, List.mem_cons_of_mem _ List.mem_cons_self, 2,
      registered_second⟩

/-- The component of the last handler is backed up in place of the one asked for. -/
theorem last_handler_backed_up : Reached (fun _ => ⟨false, false, true⟩) twoComponents ∧
    ¬Selects twoComponents "/A".toList (some "p") (some "1") := by
  refine ⟨twoComponents_reached, fun h => ?_⟩
  obtain ⟨uacc, hregistered, hprogram⟩ := h.component ⟨1, registered_first⟩
  obtain ⟨second, hsecond⟩ := Option.ne_none_iff_exists'.mp fun hnone =>
    (hit_eq_none_iff twoComponents "/A/B".toList).mp hnone ⟨2, registered_second⟩
  have huah : twoComponents.uah = [⟨"/A".toList, some 0⟩] ++ ⟨"/A/B".toList, some 0⟩ :: [] := rfl
  have hother := uaBackupPackage_some twoComponents_reached "/A".toList (some "p") (some "1")
    huah hsecond (by simp)
  obtain rfl := backupComponent_injective (Option.some.inj (hprogram.symm.trans hother))
  exact absurd (hregistered.type_eq (hit_eq_some hsecond)) (by decide)

end EsyncUa.BackupTargets
