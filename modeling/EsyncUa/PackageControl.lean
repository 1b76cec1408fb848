import EsyncUa.Components
import Mathlib.Data.List.Infix

/-!
The control state of a package, which the interface functions of `handler.c` set: whether
rollback is disabled, the type of rollback, the two flags of a rollback with an empty backup
and the custom message. One hash entry per package, made by the first setter that needs it,
has the five settings. All setters but `ua_rollback_control` change their setting alone. That
one leaves an entry that is there as it is when rollback is to be disabled, and deletes the
whole entry when rollback is to be enabled again.
-/
namespace EsyncUa.PackageControl

open EsyncUa.JsonProperties EsyncUa.Components

/-- The setters change the entry of a package if there is one, and otherwise add one that
is zero in all else. -/
def changeEntry (ctrl : Table CompCtrl) (pkgName : String) (change : CompCtrl → CompCtrl) :
    Table CompCtrl :=
  match ctrl pkgName with
  | some rbc => ctrl.set pkgName (change rbc)
  | none => ctrl.set pkgName (change CompCtrl.zero)

/-- The setters that check their package name. -/
def changeNamed (ctrl : Table CompCtrl) (pkgName : Option String)
    (change : CompCtrl → CompCtrl) : Rc × Table CompCtrl :=
  match pkgName with
  | none => (eUaErr, ctrl)
  | some pkgName => (eUaOk, changeEntry ctrl pkgName change)

/-- `ua_rollback_control`; its package name is not checked. -/
def uaRollbackControl (ctrl : Table CompCtrl) (pkgName : String) (disable : Int32) :
    Table CompCtrl :=
  match ctrl pkgName with
  | some _ => if disable = 0 then ctrl.delete pkgName else ctrl
  | none =>
      if disable ≠ 0 then ctrl.set pkgName { CompCtrl.zero with rbDisable := disable } else ctrl

/-- `ua_enable_fake_rollback_version`. -/
def uaEnableFakeRollbackVersion (ctrl : Table CompCtrl) (pkgName : Option String) :
    Rc × Table CompCtrl :=
  changeNamed ctrl pkgName fun rbc => { rbc with enableFakeRbVersion := 1 }

/-- `ua_config_rollback_with_empty_backup`. -/
def uaConfigRollbackWithEmptyBackup (ctrl : Table CompCtrl) (pkgName : Option String)
    (enable downloadRequired : Int32) : Rc × Table CompCtrl :=
  changeNamed ctrl pkgName fun rbc =>
    { rbc with enableFakeRbVersion := enable, rbDownloadRequired := downloadRequired }

/-- `ua_set_rollback_type`. -/
def uaSetRollbackType (ctrl : Table CompCtrl) (pkgName : Option String)
    (rbType : UpdateRollback) : Rc × Table CompCtrl :=
  if rbType ≠ .none then
    (if pkgName.isSome then eUaOk else eUaErr, compSetRbType ctrl pkgName rbType)
  else (eUaErr, ctrl)

/-- `ua_clear_custom_message`. -/
def uaClearCustomMessage (ctrl : Table CompCtrl) (pkgName : Option String) : Table CompCtrl :=
  uaSetCustomMessage ctrl pkgName none

/-- The calls that set the control state. -/
inductive ControlCall
  | setCustomMessage (pkgName message : Option String)
  | clearCustomMessage (pkgName : Option String)
  | setRollbackType (pkgName : Option String) (rbType : UpdateRollback)
  | enableFakeRollbackVersion (pkgName : Option String)
  | configRollbackWithEmptyBackup (pkgName : Option String) (enable downloadRequired : Int32)
  | rollbackControl (pkgName : String) (disable : Int32)

def ControlCall.apply (ctrl : Table CompCtrl) : ControlCall → Table CompCtrl
  | .setCustomMessage pkgName message => uaSetCustomMessage ctrl pkgName message
  | .clearCustomMessage pkgName => uaClearCustomMessage ctrl pkgName
  | .setRollbackType pkgName rbType => (uaSetRollbackType ctrl pkgName rbType).2
  | .enableFakeRollbackVersion pkgName => (uaEnableFakeRollbackVersion ctrl pkgName).2
  | .configRollbackWithEmptyBackup pkgName enable downloadRequired =>
      (uaConfigRollbackWithEmptyBackup ctrl pkgName enable downloadRequired).2
  | .rollbackControl pkgName disable => uaRollbackControl ctrl pkgName disable

/-- The table after a sequence of calls, from the empty one. -/
def controlAfter (calls : List ControlCall) : Table CompCtrl :=
  calls.foldl ControlCall.apply .empty

/-- The settings of a package as the agent reads them: no entry is the initial settings. -/
def settingsOf (ctrl : Table CompCtrl) (pkgName : String) : CompCtrl :=
  (ctrl pkgName).getD .zero

/-- `is_fake_rb_version_enabled`: the flag, and what `dl_required` has afterwards. -/
def isFakeRbVersionEnabled (ctrl : Table CompCtrl) (pkgName : Option String)
    (dlRequired : Int32) : Int32 × Int32 :=
  match pkgName.bind ctrl with
  | some ctl => (ctl.enableFakeRbVersion, ctl.rbDownloadRequired)
  | none => (0, dlRequired)

section Readers

variable (ctrl : Table CompCtrl) (p : String)

theorem uaRollbackDisabled_settings :
    uaRollbackDisabled ctrl (some p) = (settingsOf ctrl p).rbDisable := by
  simp only [uaRollbackDisabled, settingsOf, Option.bind_some]
  cases ctrl p <;> rfl

theorem compGetRbType_settings :
    compGetRbType ctrl (some p) = (settingsOf ctrl p).rbType := by
  simp only [compGetRbType, settingsOf, Option.bind_some]
  cases ctrl p <;> rfl

theorem getComponentCustomMessage_settings :
    getComponentCustomMessage ctrl (some p) = (settingsOf ctrl p).customMsg := by
  simp only [getComponentCustomMessage, settingsOf, Option.bind_some]
  cases ctrl p <;> rfl

theorem isFakeRbVersionEnabled_settings :
    isFakeRbVersionEnabled ctrl (some p) 0 =
      ((settingsOf ctrl p).enableFakeRbVersion, (settingsOf ctrl p).rbDownloadRequired) := by
  simp only [isFakeRbVersionEnabled, settingsOf, Option.bind_some]
  cases ctrl p <;> rfl

end Readers

/-- The value that the last call of a setter has given, of those that give one. -/
def lastGiven {α β : Type} (given : α → Option β) (initial : β) (calls : List α) : β :=
  (calls.filterMap given).getLast?.getD initial

@[simp] theorem lastGiven_nil {α β : Type} (given : α → Option β) (initial : β) :
    lastGiven given initial [] = initial := rfl

theorem lastGiven_snoc {α β : Type} (given : α → Option β) (initial : β) (calls : List α)
    (call : α) :
    lastGiven given initial (calls ++ [call]) =
      (given call).getD (lastGiven given initial calls) := by
  unfold lastGiven
  rw [List.filterMap_append]
  cases h : given call <;> simp [h]

/-- The message that a call sets for the package, if it sets one. -/
def messageGiven (p : String) : ControlCall → Option (Option String)
  | .setCustomMessage (some q) message => if q = p then some message else none
  | .clearCustomMessage (some q) => if q = p then some none else none
  | _ => none

/-- The rollback type that a call sets; URB_NONE sets none. -/
def rbTypeGiven (p : String) : ControlCall → Option UpdateRollback
  | .setRollbackType (some q) rbType => if q = p ∧ rbType ≠ .none then some rbType else none
  | _ => none

/-- The fake-version flag has two setters. -/
def fakeVersionGiven (p : String) : ControlCall → Option Int32
  | .enableFakeRollbackVersion (some q) => if q = p then some 1 else none
  | .configRollbackWithEmptyBackup (some q) enable _ => if q = p then some enable else none
  | _ => none

def downloadRequiredGiven (p : String) : ControlCall → Option Int32
  | .configRollbackWithEmptyBackup (some q) _ downloadRequired =>
      if q = p then some downloadRequired else none
  | _ => none

def disableGiven (p : String) : ControlCall → Option Int32
  | .rollbackControl q disable => if q = p then some disable else none
  | _ => none

/-- Each setting of the package has the value that its own setter was called with last. -/
structure SettingsKept (calls : List ControlCall) (p : String) : Prop where
  disabled_iff : uaRollbackDisabled (controlAfter calls) (some p) ≠ 0 ↔
    lastGiven (disableGiven p) 0 calls ≠ 0
  disable : uaRollbackDisabled (controlAfter calls) (some p) =
    lastGiven (disableGiven p) 0 calls
  message : getComponentCustomMessage (controlAfter calls) (some p) =
    lastGiven (messageGiven p) none calls
  rbType : compGetRbType (controlAfter calls) (some p) =
    lastGiven (rbTypeGiven p) UpdateRollback.none calls
  fakeVersion : (isFakeRbVersionEnabled (controlAfter calls) (some p) 0).1 =
    lastGiven (fakeVersionGiven p) 0 calls
  downloadRequired : (isFakeRbVersionEnabled (controlAfter calls) (some p) 0).2 =
    lastGiven (downloadRequiredGiven p) 0 calls

/-- The settings that the last calls of the setters gave. -/
def lastSettings (calls : List ControlCall) (p : String) : CompCtrl where
  rbDisable := lastGiven (disableGiven p) 0 calls
  rbType := lastGiven (rbTypeGiven p) .none calls
  enableFakeRbVersion := lastGiven (fakeVersionGiven p) 0 calls
  rbDownloadRequired := lastGiven (downloadRequiredGiven p) 0 calls
  customMsg := lastGiven (messageGiven p) none calls

theorem settingsKept_iff (calls : List ControlCall) (p : String) :
    SettingsKept calls p ↔ settingsOf (controlAfter calls) p = lastSettings calls p := by
  constructor
  · intro h
    apply CompCtrl.ext
    · exact (uaRollbackDisabled_settings _ p).symm.trans h.disable
    · exact (compGetRbType_settings _ p).symm.trans h.rbType
    · exact (congrArg Prod.fst (isFakeRbVersionEnabled_settings _ p)).symm.trans h.fakeVersion
    · exact (congrArg Prod.snd (isFakeRbVersionEnabled_settings _ p)).symm.trans
        h.downloadRequired
    · exact (getComponentCustomMessage_settings _ p).symm.trans h.message
  · intro h
    constructor <;>
      simp only [h, lastSettings, uaRollbackDisabled_settings, compGetRbType_settings,
        isFakeRbVersionEnabled_settings, getComponentCustomMessage_settings]

/-- What one call is to do to the settings of a package. -/
def ControlCall.give (p : String) (call : ControlCall) (settings : CompCtrl) : CompCtrl where
  rbDisable := (disableGiven p call).getD settings.rbDisable
  rbType := (rbTypeGiven p call).getD settings.rbType
  enableFakeRbVersion := (fakeVersionGiven p call).getD settings.enableFakeRbVersion
  rbDownloadRequired := (downloadRequiredGiven p call).getD settings.rbDownloadRequired
  customMsg := (messageGiven p call).getD settings.customMsg

theorem lastSettings_snoc (calls : List ControlCall) (call : ControlCall) (p : String) :
    lastSettings (calls ++ [call]) p = call.give p (lastSettings calls p) := by
  simp only [lastSettings, lastGiven_snoc, ControlCall.give]

theorem controlAfter_snoc (calls : List ControlCall) (call : ControlCall) :
    controlAfter (calls ++ [call]) = call.apply (controlAfter calls) := by
  rw [controlAfter, controlAfter, List.foldl_append]
  rfl

theorem settingsOf_set (ctrl : Table CompCtrl) (q p : String) (rbc : CompCtrl) :
    settingsOf (ctrl.set q rbc) p = if p = q then rbc else settingsOf ctrl p := by
  rw [settingsOf, Table.set_apply]
  split <;> rfl

theorem settingsOf_changeEntry (ctrl : Table CompCtrl) (q p : String)
    (change : CompCtrl → CompCtrl) :
    settingsOf (changeEntry ctrl q change) p =
      if p = q then change (settingsOf ctrl p) else settingsOf ctrl p := by
  rw [changeEntry]
  by_cases hp : p = q
  · subst hp
    cases h : ctrl p <;> simp [settingsOf, h]
  · cases h : ctrl q <;> simp [settingsOf_set, hp]

/-- A call of `ua_rollback_control` that finds an entry does its work if it is to disable what
is so disabled already, or to enable again what has no other setting. -/
def Admits (ctrl : Table CompCtrl) : ControlCall → Prop
  | .rollbackControl pkgName disable =>
      ∀ rbc, ctrl pkgName = some rbc →
        if disable = 0 then { rbc with rbDisable := 0 } = CompCtrl.zero
        else rbc.rbDisable = disable
  | _ => True

section Given

attribute [local simp] ControlCall.give disableGiven rbTypeGiven fakeVersionGiven
  downloadRequiredGiven messageGiven

variable (p : String) (settings : CompCtrl)

/-- The setter of a message gives the message of its package, and nothing else. -/
theorem give_setCustomMessage (pkgName message : Option String) :
    (ControlCall.setCustomMessage pkgName message).give p settings =
      if pkgName = some p then { settings with customMsg := message } else settings := by
  cases pkgName with
  | none => rfl
  | some q =>
    by_cases hq : q = p <;> simp [hq]

theorem give_clearCustomMessage (pkgName : Option String) :
    (ControlCall.clearCustomMessage pkgName).give p settings =
      (ControlCall.setCustomMessage pkgName none).give p settings := by
  cases pkgName <;> rfl

theorem give_setRollbackType (pkgName : Option String) (rbType : UpdateRollback) :
    (ControlCall.setRollbackType pkgName rbType).give p settings =
      if pkgName = some p ∧ rbType ≠ .none then { settings with rbType := rbType }
      else settings := by
  cases pkgName with
  | none => simp
  | some q =>
    by_cases hq : q = p <;> by_cases hrb : rbType = .none <;> simp [hq, hrb]

theorem give_configRollback (pkgName : Option String) (enable downloadRequired : Int32) :
    (ControlCall.configRollbackWithEmptyBackup pkgName enable downloadRequired).give p settings =
      if pkgName = some p then
        { settings with enableFakeRbVersion := enable, rbDownloadRequired := downloadRequired }
      else settings := by
  cases pkgName with
  | none => rfl
  | some q =>
    by_cases hq : q = p <;> simp [hq]

theorem give_enableFakeRollback (pkgName : Option String) :
    (ControlCall.enableFakeRollbackVersion pkgName).give p settings =
      if pkgName = some p then { settings with enableFakeRbVersion := 1 } else settings := by
  cases pkgName with
  | none => rfl
  | some q =>
    by_cases hq : q = p <;> simp [hq]

theorem give_rollbackControl (q : String) (disable : Int32) :
    (ControlCall.rollbackControl q disable).give p settings =
      if q = p then { settings with rbDisable := disable } else settings := by
  by_cases hq : q = p <;> simp [hq]

end Given

/-- `ua_rollback_control` leaves the entries of other packages alone. -/
theorem settingsOf_rollbackControl_ne (ctrl : Table CompCtrl) {p q : String} (disable : Int32)
    (h : p ≠ q) : settingsOf (uaRollbackControl ctrl q disable) p = settingsOf ctrl p := by
  rw [uaRollbackControl]
  cases ctrl q <;> dsimp only <;> split <;>
    simp [settingsOf, Table.delete_apply, h]

theorem rbDisable_unchanged (rbc : CompCtrl) (disable : Int32) :
    rbc = { rbc with rbDisable := disable } ↔ rbc.rbDisable = disable := by
  constructor
  · intro h
    rw [h]
  · rintro rfl
    rfl

theorem settingsOf_rollbackControl_self (ctrl : Table CompCtrl) (p : String) (disable : Int32) :
    settingsOf (uaRollbackControl ctrl p disable) p =
        { settingsOf ctrl p with rbDisable := disable } ↔
      Admits ctrl (.rollbackControl p disable) := by
  rw [uaRollbackControl]
  cases h : ctrl p with
  | none =>
    by_cases hd : disable = 0
    · subst hd
      simp [Admits, settingsOf, h, CompCtrl.zero]
    · simp [Admits, settingsOf, h, hd]
  | some rbc =>
    by_cases hd : disable = 0
    · subst hd
      simp [Admits, settingsOf, h, Table.delete_apply, eq_comm]
    · simp [Admits, settingsOf, h, hd, rbDisable_unchanged]

theorem settingsOf_changeNamed (ctrl : Table CompCtrl) (pkgName : Option String) (p : String)
    (change : CompCtrl → CompCtrl) :
    settingsOf (changeNamed ctrl pkgName change).2 p =
      if pkgName = some p then change (settingsOf ctrl p) else settingsOf ctrl p := by
  cases pkgName with
  | none => rfl
  | some q =>
    simp only [changeNamed, settingsOf_changeEntry, Option.some.injEq]
    by_cases hp : p = q
    · simp [hp]
    · simp [hp, Ne.symm hp]

theorem settingsOf_compSetRbType (ctrl : Table CompCtrl) (pkgName : Option String) (p : String)
    (rbType : UpdateRollback) :
    settingsOf (compSetRbType ctrl pkgName rbType) p =
      if pkgName = some p then { settingsOf ctrl p with rbType := rbType }
      else settingsOf ctrl p := by
  rw [← settingsOf_changeNamed ctrl pkgName p fun rbc => { rbc with rbType := rbType }]
  cases pkgName <;> rfl

/-- No entry is made to hold no message. -/
theorem settingsOf_setCustomMessage (ctrl : Table CompCtrl) (pkgName message : Option String)
    (p : String) :
    settingsOf (uaSetCustomMessage ctrl pkgName message) p =
      if pkgName = some p then { settingsOf ctrl p with customMsg := message }
      else settingsOf ctrl p := by
  rw [← settingsOf_changeNamed ctrl pkgName p fun rbc => { rbc with customMsg := message }]
  cases pkgName with
  | none => rfl
  | some q =>
    cases h : ctrl q with
    | some rbc => simp [uaSetCustomMessage, changeNamed, changeEntry, h]
    | none =>
      cases message with
      | some message => simp [uaSetCustomMessage, changeNamed, changeEntry, h]
      | none =>
        simp only [uaSetCustomMessage, changeNamed, changeEntry, h, settingsOf_set]
        by_cases hp : p = q
        · subst hp
          simp [settingsOf, h, CompCtrl.zero]
        · rw [if_neg hp]

/-- One call does what it is to do, to every package, if and only if it is admitted. -/
theorem apply_eq_give_iff (ctrl : Table CompCtrl) (call : ControlCall) :
    (∀ p, settingsOf (call.apply ctrl) p = call.give p (settingsOf ctrl p)) ↔
      Admits ctrl call := by
  cases call with
  | rollbackControl q disable =>
    constructor
    · intro h
      have hself := h q
      rw [give_rollbackControl, if_pos rfl] at hself
      exact (settingsOf_rollbackControl_self ctrl q disable).mp hself
    · intro h p
      rw [give_rollbackControl]
      by_cases hp : q = p
      · subst hp
        rw [if_pos rfl]
        exact (settingsOf_rollbackControl_self ctrl q disable).mpr h
      · rw [if_neg hp]
        exact settingsOf_rollbackControl_ne ctrl disable (Ne.symm hp)
  | setCustomMessage pkgName message =>
    apply iff_of_true _ trivial
    intro p
    rw [give_setCustomMessage]
    exact settingsOf_setCustomMessage ctrl pkgName message p
  | clearCustomMessage pkgName =>
    apply iff_of_true _ trivial
    intro p
    rw [give_clearCustomMessage, give_setCustomMessage]
    exact settingsOf_setCustomMessage ctrl pkgName none p
  | setRollbackType pkgName rbType =>
    apply iff_of_true _ trivial
    intro p
    rw [give_setRollbackType]
    by_cases hrb : rbType = .none
    · simp [ControlCall.apply, uaSetRollbackType, hrb]
    · simp [ControlCall.apply, uaSetRollbackType, hrb, settingsOf_compSetRbType]
  | enableFakeRollbackVersion pkgName =>
    apply iff_of_true _ trivial
    intro p
    rw [give_enableFakeRollback]
    exact settingsOf_changeNamed ctrl pkgName p _
  | configRollbackWithEmptyBackup pkgName enable downloadRequired =>
    apply iff_of_true _ trivial
    intro p
    rw [give_configRollback]
    exact settingsOf_changeNamed ctrl pkgName p _

/-- In every run of calls each setting of each package has, after each call, the value of the
last call of its own setter, if and only if every call of `ua_rollback_control` is admitted by
the table it finds. -/
theorem settingsKept_iff_admits (calls : List ControlCall) :
    (∀ before, before <+: calls → ∀ p, SettingsKept before p) ↔
      ∀ before call, before ++ [call] <+: calls → Admits (controlAfter before) call := by
  constructor
  · intro h before call hprefix
    have hbefore := h before ((List.prefix_append before [call]).trans hprefix)
    have hafter := h (before ++ [call]) hprefix
    rw [← apply_eq_give_iff]
    intro p
    rw [← controlAfter_snoc, (settingsKept_iff _ p).mp (hafter p), lastSettings_snoc,
      (settingsKept_iff _ p).mp (hbefore p)]
  · intro h before
    induction before using List.reverseRecOn with
    | nil =>
      intro _ p
      rw [settingsKept_iff]
      rfl
    | append_singleton before call ih =>
      intro hprefix p
      have hbefore := ih ((List.prefix_append before [call]).trans hprefix) p
      rw [settingsKept_iff] at hbefore ⊢
      rw [controlAfter_snoc, (apply_eq_give_iff _ call).mpr (h before call hprefix) p, hbefore,
        lastSettings_snoc]

/-- A request to disable rollback is lost after a custom message has been set. -/
theorem disable_after_message_lost :
    ¬ ∀ calls p, SettingsKept calls p := by
  intro h
  have hkept := (h [.setCustomMessage (some "p") (some "m"), .rollbackControl "p" 1] "p").disable
  exact absurd hkept (by decide)

end EsyncUa.PackageControl
