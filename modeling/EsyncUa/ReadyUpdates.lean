import EsyncUa.Frames
import EsyncUa.Rehearsals
import EsyncUa.SoleRuns

/-!
What `update_parse_json_ready_update` leaves in the component. The environment answers from
the content of the two manifests, the files and the callback that transfers a file. The
function is followed branch by branch: how the file to install is found, and what remains of
the component when it is not found.
-/
namespace EsyncUa.ReadyUpdates

open EsyncUa.JsonProperties EsyncUa.Components EsyncUa.Programs EsyncUa.Operations
open EsyncUa.Installation EsyncUa.Updater EsyncUa.Machines EsyncUa.Schedules EsyncUa.Agents
open EsyncUa.Frames EsyncUa.Rehearsals EsyncUa.SoleRuns

/-- The answers to the calls of the environment; no file changes between two of them. -/
abbrev Environment : Type := (o : ExtOp) → Option o.Ans

def Environment.oracle (env : Environment) : Oracle :=
  ⟨fun _ o => env o, fun _ => .timedOut, fun _ => true⟩

section Rules

variable (cfg : AgentConfig) (env : Environment) (t : Tid) {α : Type}

/-- The thread alone in the agent. -/
abbrev envPlayer : Player (runsWhere cfg Anything) := player cfg Anything env.oracle

theorem ensures_op (o : Op) (w : World) (Q : o.Ans → World → Prop) :
    Ensures (envPlayer cfg env) t (op o) w Q ↔
      ∀ b s, env.oracle.choose cfg t w o = some b → effect cfg t w.shared o b = some s →
        fork t o b = none → Q b ⟨s, .did t o b :: w.trace⟩ := by
  rw [op, Prog.perform, ensures_call]
  simp only [ensures_pure]
  constructor
  · intro h b s hchoose heffect hfork
    apply h b _ _ hfork
    simp [envPlayer, player, hchoose, heffect]
  · intro h b w' hanswer hfork
    simp only [envPlayer, player, Option.bind_eq_some_iff] at hanswer
    obtain ⟨b', hchoose, s, heffect, hanswer⟩ := hanswer
    rw [if_pos trivial] at hanswer
    cases hanswer
    exact h b s hchoose heffect hfork

@[simp] theorem ensures_readComp (uacc : UaccPtr) (f : UaComponentContext → α) (w : World)
    (Q : α → World → Prop) :
    Ensures (envPlayer cfg env) t (readComp uacc f) w Q ↔ Q (f (w.shared.comp uacc)) w := by
  rw [readComp, ensures_read]
  rfl

@[simp] theorem ensures_assign (uacc : UaccPtr) (x : Assign) (w : World)
    (Q : Unit → World → Prop) :
    Ensures (envPlayer cfg env) t (assign uacc x) w Q ↔
      Q () ⟨Shared.setComp w.shared uacc (Assign.apply x (w.shared.comp uacc)),
        .did t (.assign uacc x) () :: w.trace⟩ := by
  rw [assign, ensures_op]
  exact ⟨fun h => h () _ rfl rfl rfl, fun h b s _ heffect _ => Option.some.inj heffect ▸ h⟩

variable {cfg env t} in
theorem ensures_assign_of {uacc : UaccPtr} {x : Assign} {w : World} {Q : Unit → World → Prop}
    (h : ∀ w' : World, w'.shared.comp uacc = Assign.apply x (w.shared.comp uacc) → Q () w') :
    Ensures (envPlayer cfg env) t (assign uacc x) w Q := by
  rw [ensures_assign]
  apply h
  exact setComp_self ..

@[simp] theorem ensures_assignIntl (x : AssignIntl) (w : World) (Q : Unit → World → Prop) :
    Ensures (envPlayer cfg env) t (assignIntl x) w Q ↔
      Q () ⟨Shared.setIntl w.shared (AssignIntl.apply x w.shared.intl),
        .did t (.assignIntl x) () :: w.trace⟩ := by
  rw [assignIntl, ensures_op]
  exact ⟨fun h => h () _ rfl rfl rfl, fun h b s _ heffect _ => Option.some.inj heffect ▸ h⟩

theorem ensures_ext (o : ExtOp) (w : World) (Q : o.Ans → World → Prop) :
    Ensures (envPlayer cfg env) t (ext o) w Q ↔
      ∀ b, env o = some b → ExtOp.possible w.shared o b = true →
        Q b ⟨w.shared, .did t (.ext o) b :: w.trace⟩ := by
  rw [ext, ensures_op]
  simp only [Oracle.choose, Environment.oracle, effect, fork]
  constructor
  · intro h b henv hpossible
    exact h b w.shared henv (if_pos hpossible) trivial
  · intro h b s henv heffect _
    split at heffect
    · cases heffect
      exact h b henv ‹_›
    · cases heffect

theorem ensures_onTransferFile (uacc : UaccPtr) (ctl : UaCallbackCtl) (w : World)
    (Q : TransferReply → World → Prop) :
    Ensures (envPlayer cfg env) t (callback uacc .onTransferFile ctl) w Q ↔
      ∀ reply : TransferReply, env (.callback uacc .onTransferFile ctl) = some reply →
        (w.shared.comp uacc).uar.onTransferFile = true →
        Q reply ⟨w.shared, .did t (.ext (.callback uacc .onTransferFile ctl)) reply :: w.trace⟩ :=
  ensures_ext cfg env t (.callback uacc .onTransferFile ctl) w Q

theorem ensures_access (path : Option String) (w : World) (Q : Bool → World → Prop) :
    Ensures (envPlayer cfg env) t (access path) w Q ↔
      ∀ b : Bool, env (.access path) = some b → (path.isSome || !b) = true →
        Q b ⟨w.shared, .did t (.ext (.access path)) b :: w.trace⟩ :=
  ensures_ext cfg env t (.access path) w Q

theorem ensures_manifest (xmlFile version : Option String) (w : World)
    (Q : ManifestReply → World → Prop) :
    Ensures (envPlayer cfg env) t (ext (.getPkgFileManifest xmlFile version)) w Q ↔
      ∀ reply : ManifestReply, env (.getPkgFileManifest xmlFile version) = some reply →
        ManifestReply.possible xmlFile version reply = true →
        Q reply ⟨w.shared,
          .did t (.ext (.getPkgFileManifest xmlFile version)) reply :: w.trace⟩ :=
  ensures_ext cfg env t (.getPkgFileManifest xmlFile version) w Q

theorem ensures_calcSha256X (archive : Option String) (w : World)
    (Q : Option Sha256B64 → World → Prop) :
    Ensures (envPlayer cfg env) t (ext (.calcSha256X archive)) w Q ↔
      ∀ sha : Option Sha256B64, env (.calcSha256X archive) = some sha →
        (archive.isSome || sha.isNone) = true →
        Q sha ⟨w.shared, .did t (.ext (.calcSha256X archive)) sha :: w.trace⟩ :=
  ensures_ext cfg env t (.calcSha256X archive) w Q

theorem ensures_addPkgFileManifest (xmlFile : Option String) (pkgFile : PkgFile)
    (w : World) (Q : Rc → World → Prop) :
    Ensures (envPlayer cfg env) t (ext (.addPkgFileManifest xmlFile pkgFile)) w Q ↔
      ∀ rc : Rc, env (.addPkgFileManifest xmlFile pkgFile) = some rc → true = true →
        Q rc ⟨w.shared, .did t (.ext (.addPkgFileManifest xmlFile pkgFile)) rc :: w.trace⟩ :=
  ensures_ext cfg env t (.addPkgFileManifest xmlFile pkgFile) w Q

@[simp] theorem ensures_orCrash (value : Option α) (w : World) (Q : α → World → Prop) :
    Ensures (envPlayer cfg env) t (orCrash value) w Q ↔ ∀ a, value = some a → Q a w := by
  cases value with
  | some a => simp [orCrash]
  | none =>
    apply iff_of_true
    · rw [orCrash, crash, ensures_call]
      intro b
      exact b.elim
    · simp

@[simp] theorem ensures_doIf (c : Prop) [Decidable c] (p : UaProg Unit) (w : World)
    (Q : Unit → World → Prop) :
    Ensures (envPlayer cfg env) t (doIf c p) w Q ↔
      (c → Ensures (envPlayer cfg env) t p w Q) ∧ (¬c → Q () w) := by
  rw [doIf, ensures_ite, Prog.pure_eq, ensures_pure]

@[simp] theorem ensures_ignoring (p : UaProg α) (w : World) (Q : Unit → World → Prop) :
    Ensures (envPlayer cfg env) t (ignoring p) w Q ↔
      Ensures (envPlayer cfg env) t p w fun _ w' => Q () w' := by
  rw [ignoring, ensures_bind]
  simp only [Prog.pure_eq, ensures_pure]

end Rules

section Parse

variable {cfg : AgentConfig} (env : Environment) {t : Tid} {uacc : UaccPtr} {w : World}

/-- The transfer callback of the component gives a path for the file. -/
def Transfers (uacc : UaccPtr) (file newFile : Option String) : Prop :=
  ∃ ctl reply, ctl.pkgPath = file ∧ env (.callback uacc .onTransferFile ctl) = some reply ∧
    reply.newFilePath = newFile ∧ newFile.isSome

theorem parseTransfer_run :
    Ensures (envPlayer cfg env) t (parseTransfer uacc) w fun _ w' =>
      ∃ file, w'.shared.comp uacc =
          { w.shared.comp uacc with
            updateFileInfo := { (w.shared.comp uacc).updateFileInfo with file := file } } ∧
        (file = (w.shared.comp uacc).updateFileInfo.file ∨
          Transfers env uacc (w.shared.comp uacc).updateFileInfo.file file) := by
  simp only [parseTransfer, ensures_bind, ensures_readComp, ensures_ite, Prog.pure_eq,
    ensures_pure]
  constructor
  · intro _
    rw [ensures_onTransferFile]
    intro reply henv _
    simp only [ensures_doIf, ensures_assign, setComp_self]
    constructor
    · intro hsome
      exact ⟨_, rfl, .inr ⟨_, reply, rfl, henv, rfl, hsome⟩⟩
    · intro _
      exact ⟨_, rfl, .inl rfl⟩
  · intro _
    exact ⟨_, rfl, .inl rfl⟩

/-- The digest is computed before a file counts as found, so there is one then. -/
theorem parseDigest_run (err : Rc) :
    Ensures (envPlayer cfg env) t (parseDigest uacc err) w fun rc w' =>
      (rc = eUaOk ∧ (w.shared.comp uacc).updateFileInfo.file.isSome ∨ rc = eUaErr) ∧
      ∃ sha, w'.shared.comp uacc =
        { w.shared.comp uacc with
          updateFileInfo := { (w.shared.comp uacc).updateFileInfo with shaOfSha := sha } } := by
  simp only [parseDigest, ensures_bind, ensures_readComp]
  rw [ensures_calcSha256X]
  intro sha _ hsome
  cases sha with
  | none =>
    exact (ensures_pure ..).mpr ⟨.inr rfl, _, rfl⟩
  | some sha =>
    have hfile : (w.shared.comp uacc).updateFileInfo.file.isSome = true := by simpa using hsome
    simp only [ensures_bind, ensures_assign, ensures_readComp, ensures_doIf, ensures_ignoring,
      Prog.pure_eq, ensures_pure, setComp_self]
    constructor
    · intro herr
      rw [ensures_addPkgFileManifest]
      intro _ _ _
      rw [if_pos herr]
      exact ⟨.inl ⟨rfl, hfile⟩, _, setComp_self ..⟩
    · intro herr
      rw [if_neg herr]
      exact ⟨.inr rfl, _, rfl⟩

/-- The path of the file is the one in the message, or the one the callback gave for it. -/
theorem parseFileFromMsg_run (name : Option String) :
    Ensures (envPlayer cfg env) t (parseFileFromMsg uacc name) w fun rc w' =>
      ∃ info, w'.shared.comp uacc = { w.shared.comp uacc with updateFileInfo := info } ∧
        (rc = eUaOk ∧ info.version = versionToUpdate (w.shared.comp uacc).updatePkg ∧
            info.file.isSome ∧ (info.file = name ∨ Transfers env uacc name info.file) ∨
          rc = eUaErr) := by
  have hdigest : ∀ (w' : World) (err : Rc) (file : Option String),
      (file = name ∨ Transfers env uacc name file) →
      w'.shared.comp uacc =
        { w.shared.comp uacc with
          updateFileInfo :=
            { (w.shared.comp uacc).updateFileInfo with
              file := file, version := versionToUpdate (w.shared.comp uacc).updatePkg } } →
      Ensures (envPlayer cfg env) t (parseDigest uacc err) w' fun rc w' =>
        ∃ info, w'.shared.comp uacc = { w.shared.comp uacc with updateFileInfo := info } ∧
          (rc = eUaOk ∧ info.version = versionToUpdate (w.shared.comp uacc).updatePkg ∧
              info.file.isSome ∧ (info.file = name ∨ Transfers env uacc name info.file) ∨
            rc = eUaErr) := by
    intro w' err file hfile hcomp
    refine (parseDigest_run env err).mono ?_
    intro rc w'' h
    obtain ⟨hrc, sha, hcomp'⟩ := h
    rw [hcomp] at hrc hcomp'
    refine ⟨_, hcomp', ?_⟩
    rcases hrc with ⟨hok, hsome⟩ | herr
    · exact .inl ⟨hok, rfl, hsome, hfile⟩
    · exact .inr herr
  simp only [parseFileFromMsg, ensures_bind, ensures_assign, ensures_readComp, setComp_self]
  rw [ensures_access]
  intro found _ _
  simp only [ensures_ite, Prog.pure_eq, ensures_pure]
  constructor
  · intro _
    exact hdigest _ _ name (.inl rfl) (setComp_self ..)
  · intro _
    refine (parseTransfer_run env).mono ?_
    intro err w' h
    obtain ⟨file, hcomp, hfile⟩ := h
    simp only [setComp_self] at hcomp hfile
    exact hdigest w' err file hfile hcomp

/-- A manifest has a complete entry for the version. -/
def Lists (xmlFile version : Option String) (info : PkgFile) : Prop :=
  env (.getPkgFileManifest xmlFile version) = some (.found info) ∧
    info.version = version ∧ isSet version ∧ isSet info.file

/-- The manifest is a file that cannot be accessed. -/
def Inaccessible (xmlFile version : Option String) : Prop :=
  env (.getPkgFileManifest xmlFile version) = some .sys ∧ xmlFile.isSome

theorem isSome_of_isSet {s : Option String} (h : isSet s = true) : s.isSome = true := by
  cases s with
  | none => cases h
  | some s => rfl

theorem manifest_found {env : Environment} {xmlFile version : Option String} {info : PkgFile}
    (henv : env (.getPkgFileManifest xmlFile version) = some (.found info))
    (h : ManifestReply.possible xmlFile version (.found info) = true) :
    Lists env xmlFile version info := by
  simp only [ManifestReply.possible, Bool.and_eq_true, decide_eq_true_eq] at h
  exact ⟨henv, h.1.1.2, h.1.1.1.2, h.1.2⟩

theorem manifest_sys {env : Environment} {xmlFile version : Option String}
    (henv : env (.getPkgFileManifest xmlFile version) = some .sys)
    (h : ManifestReply.possible xmlFile version .sys = true) :
    Inaccessible env xmlFile version := by
  simp only [ManifestReply.possible, Bool.and_eq_true] at h
  exact ⟨henv, h.1⟩

theorem parseFromBackup_run (version : Option String) :
    Ensures (envPlayer cfg env) t (parseFromBackup uacc version) w fun rc w' =>
      ∃ info, w'.shared.comp uacc = { w.shared.comp uacc with updateFileInfo := info } ∧
        (rc = eUaOk ∧ Lists env (w.shared.comp uacc).backupManifest version info ∨
          rc = eUaErr ∧ ¬Inaccessible env (w.shared.comp uacc).backupManifest version ∨
          rc = eUaSys ∧ Inaccessible env (w.shared.comp uacc).backupManifest version) := by
  simp only [parseFromBackup, ensures_bind, ensures_readComp]
  rw [ensures_manifest]
  intro reply henv hpossible
  cases reply with
  | found info =>
    simp only [ensures_bind, ensures_assign, Prog.pure_eq, ensures_pure, setComp_self]
    exact ⟨info, rfl, .inl ⟨trivial, manifest_found henv hpossible⟩⟩
  | err =>
    refine (ensures_pure ..).mpr ⟨_, rfl, .inr (.inl ⟨rfl, ?_⟩)⟩
    intro hsys
    rw [Inaccessible, henv] at hsys
    cases hsys.1
  | sys =>
    exact (ensures_pure ..).mpr ⟨_, rfl, .inr (.inr ⟨rfl, manifest_sys henv hpossible⟩)⟩

variable (uacc) (jsonObj : Json)

/-- The version of the message that is to be installed counts as downloaded. A property that
is no boolean leaves the flag of an earlier message. -/
def SaysDownloaded (c : UaComponentContext) : Prop :=
  (getPkgDownloadedFromJson jsonObj (versionToUpdate c.updatePkg)).1 = eUaOk ∧
    ((getPkgDownloadedFromJson jsonObj (versionToUpdate c.updatePkg)).2.map intOfBool).getD
      c.updateFileInfo.downloaded ≠ 0

/-- What the message says about the file of a version. -/
def fileProperty (version : Option String) : Rc × Option String :=
  getPkgFileFromJson jsonObj version none

/-- The path of the file of a version, as the update manifest, the message, the callback or
the backup manifest gives it. -/
def Gives (updateManifest backupManifest version file : Option String) : Prop :=
  (∃ info, Lists env updateManifest version info ∧ info.file = file) ∨
  (fileProperty jsonObj version).1 = eUaOk ∧ file = (fileProperty jsonObj version).2 ∨
  (fileProperty jsonObj version).1 = eUaOk ∧
    Transfers env uacc (fileProperty jsonObj version).2 file ∨
  (∃ info, Lists env backupManifest version info ∧ info.file = file)

/-- The result of the search for the file to install, for a component that has the package,
the rollback versions and the manifests of the message. -/
inductive Searched (c : UaComponentContext) : Rc → PkgFile → Prop
  | listed (info) (hlisted : Lists env c.updateManifest (versionToUpdate c.updatePkg) info) :
      Searched c eUaOk info
  | located (info) (hdownloaded : SaysDownloaded jsonObj c)
      (hversion : info.version = versionToUpdate c.updatePkg) (hfile : info.file.isSome)
      (hgives : Gives env uacc jsonObj c.updateManifest c.backupManifest
        (versionToUpdate c.updatePkg) info.file) :
      Searched c eUaOk info
  | skipped (info)
      (hunlisted : ∀ info, ¬Lists env c.updateManifest (versionToUpdate c.updatePkg) info)
      (hnot : ¬SaysDownloaded jsonObj c) (hversion : info.version = c.updateFileInfo.version)
      (hfile : info.file = c.updateFileInfo.file) :
      Searched c eUaOk info
  | failed (info) (hreadable : (fileProperty jsonObj (versionToUpdate c.updatePkg)).1 = eUaOk ∨
        ¬Inaccessible env c.backupManifest (versionToUpdate c.updatePkg)) :
      Searched c eUaErr info
  | inaccessible (info)
      (hno : (fileProperty jsonObj (versionToUpdate c.updatePkg)).1 ≠ eUaOk)
      (hsys : Inaccessible env c.backupManifest (versionToUpdate c.updatePkg)) :
      Searched c eUaSys info

variable {uacc jsonObj}

theorem storeDownloaded_run (downloaded : Option Bool) :
    Ensures (envPlayer cfg env) t
      (doIf downloaded.isSome
        (assign uacc (.fileInfoDownloaded (intOfBool (downloaded.getD false))))) w fun _ w' =>
      w'.shared.comp uacc =
        { w.shared.comp uacc with
          updateFileInfo :=
            { (w.shared.comp uacc).updateFileInfo with
              downloaded := (downloaded.map intOfBool).getD
                (w.shared.comp uacc).updateFileInfo.downloaded } } := by
  rw [ensures_doIf, ensures_assign]
  cases downloaded with
  | none => exact ⟨nofun, fun _ => rfl⟩
  | some value => exact ⟨fun _ => setComp_self .., fun h => absurd rfl h⟩

theorem parseInfoFromMsg_run
    (hunlisted : ∀ info, ¬Lists env (w.shared.comp uacc).updateManifest
      (versionToUpdate (w.shared.comp uacc).updatePkg) info) :
    Ensures (envPlayer cfg env) t (parseInfoFromMsg uacc jsonObj) w fun rc w' =>
      ∃ info, w'.shared.comp uacc = { w.shared.comp uacc with updateFileInfo := info } ∧
        Searched env uacc jsonObj (w.shared.comp uacc) rc info := by
  simp only [parseInfoFromMsg, ensures_bind, ensures_readComp]
  refine (storeDownloaded_run env _).mono ?_
  intro _ w₁ hcomp
  simp only [ensures_ite, ensures_bind, ensures_readComp, ensures_orCrash, ensures_assign,
    Prog.pure_eq, ensures_pure, hcomp]
  constructor
  · intro hdownloaded sha _
    constructor
    · intro hno
      refine (parseFileFromMsg_run env _).mono ?_
      intro rc w₂ h
      obtain ⟨info, hcomp₂, h⟩ := h
      simp only [setComp_self] at hcomp₂ h
      refine ⟨info, hcomp₂, ?_⟩
      rcases h with ⟨hrc, hversion, hfile, hgives⟩ | hrc
      · subst hrc
        refine .located info hdownloaded hversion hfile ?_
        rcases hgives with hmsg | htransfer
        · exact .inr (.inl ⟨hno, hmsg⟩)
        · exact .inr (.inr (.inl ⟨hno, htransfer⟩))
      · subst hrc
        exact .failed info (.inl hno)
    · intro hno
      refine (parseFromBackup_run env _).mono ?_
      intro rc w₂ h
      obtain ⟨info, hcomp₂, h⟩ := h
      simp only [setComp_self] at hcomp₂ h
      refine ⟨info, hcomp₂, ?_⟩
      rcases h with ⟨hrc, hlists⟩ | ⟨hrc, hreadable⟩ | ⟨hrc, hsys⟩
      · subst hrc
        refine .located info hdownloaded hlists.2.1 (isSome_of_isSet hlists.2.2.2) ?_
        exact .inr (.inr (.inr ⟨info, hlists, rfl⟩))
      · subst hrc
        exact .failed info (.inr hreadable)
      · subst hrc
        exact .inaccessible info hno hsys
  · intro hnot
    exact ⟨_, rfl, .skipped _ hunlisted hnot rfl rfl⟩

/-- The component with the rollback versions of the message. -/
def withRollback (jsonObj : Json) (c : UaComponentContext) : UaComponentContext :=
  { c with
    updatePkg :=
      { c.updatePkg with
        rollbackVersion :=
          (getPkgRollbackVersionFromJson jsonObj c.updatePkg.rollbackVersion).2
        rollbackVersions :=
          (getPkgRollbackVersionsFromJson jsonObj c.updatePkg.rollbackVersions).2 } }

theorem parseFileInfo_run :
    Ensures (envPlayer cfg env) t (parseFileInfo uacc jsonObj) w fun rc w' =>
      ∃ info, w'.shared.comp uacc =
          { withRollback jsonObj (w.shared.comp uacc) with updateFileInfo := info } ∧
        Searched env uacc jsonObj (withRollback jsonObj (w.shared.comp uacc)) rc info := by
  simp only [parseFileInfo, ensures_bind, ensures_readComp]
  refine ensures_assign_of fun w₁ h₁ => ensures_assign_of fun w₂ h₂ => ?_
  have hcomp : w₂.shared.comp uacc = withRollback jsonObj (w.shared.comp uacc) := by
    rw [h₂, h₁]
    rfl
  rw [← hcomp, ensures_manifest]
  intro reply henv hpossible
  have hunlisted : (∀ info, reply ≠ .found info) → ∀ info, ¬Lists env
      (w₂.shared.comp uacc).updateManifest (versionToUpdate (w₂.shared.comp uacc).updatePkg)
      info :=
    fun hreply info hlists => hreply info (Option.some.inj (henv.symm.trans hlists.1))
  cases reply with
  | found info =>
    simp only [ensures_bind, ensures_assign, Prog.pure_eq, ensures_pure, setComp_self]
    exact ⟨info, rfl, .listed info (manifest_found henv hpossible)⟩
  | err =>
    refine parseInfoFromMsg_run env (hunlisted ?_)
    intro info h
    cases h
  | sys =>
    refine parseInfoFromMsg_run env (hunlisted ?_)
    intro info h
    cases h

/-- The component with the type and the name of the message. -/
def withIdentity (jsonObj : Json) (c : UaComponentContext) : UaComponentContext :=
  { c with
    updatePkg :=
      { c.updatePkg with
        type := (getPkgTypeFromJson jsonObj c.updatePkg.type).2
        name := (getPkgNameFromJson jsonObj c.updatePkg.name).2 } }

/-- The component with the version of the message and the manifests of its package. -/
def withVersion (jsonObj : Json) (cacheDir backupDir : Option String) (c : UaComponentContext) :
    UaComponentContext :=
  { c with
    updateManifest := join cacheDir [c.updatePkg.name, some manifestPkg]
    backupManifest := join backupDir [some "backup", c.updatePkg.name, some manifestPkg]
    updatePkg :=
      { c.updatePkg with version := (getPkgVersionFromJson jsonObj c.updatePkg.version).2 } }

/-- The component with everything that the message says about the package. -/
def identified (jsonObj : Json) (cacheDir backupDir : Option String) (c : UaComponentContext) :
    UaComponentContext :=
  withRollback jsonObj (withVersion jsonObj cacheDir backupDir (withIdentity jsonObj c))

theorem getString_fst (json : Json) (path : List (Option String)) (old : Option String) :
    (getString json path old).1 = (getString json path none).1 := by
  simp only [getString]
  split <;> rfl

theorem jsonGetProperty_err (typ : JsonType) (json : Json) (path : List (Option String))
    (value : Option Json) (h : (jsonGetProperty typ json path value).1 ≠ eUaOk) :
    (jsonGetProperty typ json path value).1 = eUaErr := by
  induction path generalizing json value with
  | nil => exact absurd rfl h
  | cons node path ih =>
    cases node with
    | none => exact absurd rfl h
    | some node =>
      rw [jsonGetProperty] at h ⊢
      cases hfield : json.field? node with
      | none => rfl
      | some aux =>
        simp only [hfield] at h ⊢
        exact ih _ _ h

theorem getString_err {json : Json} {path : List (Option String)} {old : Option String}
    (h : (getString json path old).1 ≠ eUaOk) : (getString json path old).1 = eUaErr := by
  simp only [getString] at h ⊢
  split at h
  · exact absurd ‹_› h
  · rename_i herr
    rw [if_neg herr]
    exact jsonGetProperty_err _ _ _ _ herr

/-- The message has the type, the name and the version of a package. -/
def HasIdentity (jsonObj : Json) : Prop :=
  (getPkgTypeFromJson jsonObj none).1 = eUaOk ∧ (getPkgNameFromJson jsonObj none).1 = eUaOk ∧
    (getPkgVersionFromJson jsonObj none).1 = eUaOk

theorem parseVersions_run (cacheDir backupDir : Option String) :
    Ensures (envPlayer cfg env) t (parseVersions uacc jsonObj cacheDir backupDir) w fun rc w' =>
      let c := withVersion jsonObj cacheDir backupDir (w.shared.comp uacc)
      (getPkgVersionFromJson jsonObj none).1 = eUaOk ∧
        (∃ info, w'.shared.comp uacc = { withRollback jsonObj c with updateFileInfo := info } ∧
          Searched env uacc jsonObj (withRollback jsonObj c) rc info) ∨
      (getPkgVersionFromJson jsonObj none).1 ≠ eUaOk ∧ rc = eUaErr ∧ w'.shared.comp uacc = c := by
  simp only [parseVersions, assignManifests, ensures_bind, ensures_readComp]
  refine ensures_assign_of fun w₁ h₁ => ensures_assign_of fun w₂ h₂ =>
    ensures_assign_of fun w₃ h₃ => ?_
  have hcomp : w₃.shared.comp uacc =
      withVersion jsonObj cacheDir backupDir (w.shared.comp uacc) := by
    rw [h₃, h₂, h₁]
    rfl
  rw [← hcomp]
  have hfst : (getPkgVersionFromJson jsonObj (w₂.shared.comp uacc).updatePkg.version).1 =
      (getPkgVersionFromJson jsonObj none).1 := getString_fst ..
  rw [hfst, ensures_ite]
  constructor
  · intro hok
    refine (parseFileInfo_run env).mono ?_
    intro rc w' h
    exact .inl ⟨hok, h⟩
  · intro herr
    exact (ensures_pure ..).mpr (.inr ⟨herr, getString_err herr, rfl⟩)

theorem parseIdentity_run :
    Ensures (envPlayer cfg env) t (parseIdentity uacc jsonObj) w fun rc w' =>
      (getPkgTypeFromJson jsonObj none).1 = eUaOk ∧ (getPkgNameFromJson jsonObj none).1 = eUaOk ∧
        rc = eUaOk ∧ w'.shared.comp uacc = withIdentity jsonObj (w.shared.comp uacc) ∨
      ¬((getPkgTypeFromJson jsonObj none).1 = eUaOk ∧
        (getPkgNameFromJson jsonObj none).1 = eUaOk) ∧ rc = eUaErr ∧
        (w'.shared.comp uacc).updatePkg.rollbackVersion =
          (w.shared.comp uacc).updatePkg.rollbackVersion ∧
        (w'.shared.comp uacc).updateError = (w.shared.comp uacc).updateError := by
  simp only [parseIdentity, ensures_bind, ensures_readComp]
  refine ensures_assign_of fun w₁ h₁ => ?_
  have htype : (getPkgTypeFromJson jsonObj (w.shared.comp uacc).updatePkg.type).1 =
      (getPkgTypeFromJson jsonObj none).1 := getString_fst ..
  rw [htype, ensures_ite]
  constructor
  · intro hok
    simp only [parseName, ensures_bind, ensures_readComp]
    refine ensures_assign_of fun w₂ h₂ => ?_
    have hname : (getPkgNameFromJson jsonObj (w₁.shared.comp uacc).updatePkg.name).1 =
        (getPkgNameFromJson jsonObj none).1 := getString_fst ..
    have hcomp : w₂.shared.comp uacc = withIdentity jsonObj (w.shared.comp uacc) := by
      rw [h₂, h₁]
      rfl
    simp only [Prog.pure_eq, ensures_pure, ensures_doIf, ensures_assignIntl, setIntl_comp, hname,
      hcomp]
    by_cases hn : (getPkgNameFromJson jsonObj none).1 = eUaOk
    · exact ⟨fun _ => .inl ⟨hok, hn, hn, trivial⟩, fun _ => .inl ⟨hok, hn, hn, trivial⟩⟩
    · have herr := getString_err hn
      exact ⟨fun _ => .inr ⟨fun h => hn h.2, herr, rfl, rfl⟩,
        fun _ => .inr ⟨fun h => hn h.2, herr, rfl, rfl⟩⟩
  · intro hno
    simp only [Prog.pure_eq, ensures_pure, ensures_doIf, ensures_assignIntl, setIntl_comp, h₁]
    exact ⟨fun _ => .inr ⟨fun h => hno h.1, trivial, rfl, rfl⟩,
      fun _ => .inr ⟨fun h => hno h.1, trivial, rfl, rfl⟩⟩

/-- What the end of the function makes of a component after E_UA_ERR. -/
def afterFailure (c : UaComponentContext) : UaComponentContext :=
  { c with
    backupManifest := none
    updateManifest := none
    updateError := if isSet c.updatePkg.rollbackVersion then .terminalFailure else c.updateError }

theorem parseFailed_run :
    Ensures (envPlayer cfg env) t (parseFailed uacc) w fun _ w' =>
      w'.shared.comp uacc = afterFailure (w.shared.comp uacc) := by
  simp only [parseFailed, ensures_bind, ensures_readComp]
  refine ensures_assign_of fun w₁ h₁ => ensures_assign_of fun w₂ h₂ => ?_
  have hcomp : w₂.shared.comp uacc =
      { w.shared.comp uacc with backupManifest := none, updateManifest := none } := by
    rw [h₂, h₁]
    rfl
  simp only [ensures_doIf, ensures_assign, setComp_self, hcomp, afterFailure]
  by_cases hset : isSet (w.shared.comp uacc).updatePkg.rollbackVersion = true
  · rw [if_pos hset]
    exact ⟨fun _ => rfl, fun h => absurd hset h⟩
  · rw [if_neg hset]
    exact ⟨fun h => absurd h hset, fun _ => rfl⟩

variable (uacc jsonObj) (cacheDir backupDir : Option String)

/-- The result of the function: of a message without type, name or version nothing is used,
and otherwise the file has been searched for. -/
inductive Parsed (c : UaComponentContext) : Rc → UaComponentContext → Prop
  | unidentified (c') (hno : ¬HasIdentity jsonObj)
      (hrollback : c'.updatePkg.rollbackVersion = c.updatePkg.rollbackVersion)
      (herror : c'.updateError = c.updateError) :
      Parsed c eUaErr (afterFailure c')
  | failed (info) (hidentity : HasIdentity jsonObj)
      (hsearched : Searched env uacc jsonObj (identified jsonObj cacheDir backupDir c) eUaErr
        info) :
      Parsed c eUaErr
        (afterFailure { identified jsonObj cacheDir backupDir c with updateFileInfo := info })
  | searched (rc info) (hidentity : HasIdentity jsonObj) (hrc : rc ≠ eUaErr)
      (hsearched : Searched env uacc jsonObj (identified jsonObj cacheDir backupDir c) rc info) :
      Parsed c rc { identified jsonObj cacheDir backupDir c with updateFileInfo := info }

variable {uacc jsonObj cacheDir backupDir}

theorem updateParseJsonReadyUpdate_run :
    Ensures (envPlayer cfg env) t
      (updateParseJsonReadyUpdate uacc jsonObj cacheDir backupDir) w fun rc w' =>
      Parsed env uacc jsonObj cacheDir backupDir (w.shared.comp uacc) rc
        (w'.shared.comp uacc) := by
  rw [updateParseJsonReadyUpdate, ensures_bind]
  refine (parseIdentity_run env).mono ?_
  intro err w₁ h₁
  rw [ensures_bind]
  have hfinish : ∀ (w₂ : World) (rc : Rc),
      (rc = eUaErr → Parsed env uacc jsonObj cacheDir backupDir (w.shared.comp uacc) rc
        (afterFailure (w₂.shared.comp uacc))) →
      (rc ≠ eUaErr → Parsed env uacc jsonObj cacheDir backupDir (w.shared.comp uacc) rc
        (w₂.shared.comp uacc)) →
      Ensures (envPlayer cfg env) t (do doIf (rc = eUaErr) (parseFailed uacc); pure rc) w₂
        fun rc w' => Parsed env uacc jsonObj cacheDir backupDir (w.shared.comp uacc) rc
          (w'.shared.comp uacc) := by
    intro w₂ rc herr hok
    rw [ensures_bind, ensures_doIf]
    constructor
    · intro hrc
      refine (parseFailed_run env).mono ?_
      intro _ w₃ h₃
      rw [Prog.pure_eq, ensures_pure, h₃]
      exact herr hrc
    · intro hrc
      exact (ensures_pure ..).mpr (hok hrc)
  rcases h₁ with ⟨htype, hname, rfl, hcomp⟩ | ⟨hno, rfl, hrollback, herror⟩
  · rw [if_pos rfl]
    refine (parseVersions_run env cacheDir backupDir).mono ?_
    intro rc w₂ h₂
    simp only [hcomp] at h₂
    apply hfinish
    · rintro rfl
      rcases h₂ with ⟨hversion, info, hcomp₂, hsearched⟩ | ⟨hversion, _, hcomp₂⟩
      · rw [hcomp₂]
        exact .failed info ⟨htype, hname, hversion⟩ hsearched
      · exact .unidentified _ (fun h => hversion h.2.2) (by rw [hcomp₂]; rfl)
          (by rw [hcomp₂]; rfl)
    · intro hrc
      rcases h₂ with ⟨hversion, info, hcomp₂, hsearched⟩ | ⟨_, herr, _⟩
      · rw [hcomp₂]
        exact .searched rc info ⟨htype, hname, hversion⟩ hrc hsearched
      · exact absurd herr hrc
  · rw [if_neg (by decide), Prog.pure_eq, ensures_pure]
    apply hfinish
    · intro _
      exact .unidentified _ (fun h => hno ⟨h.1, h.2.1⟩) hrollback herror
    · intro h
      exact absurd rfl h

end Parse

end EsyncUa.ReadyUpdates
