import EsyncUa.BackupCleanup
import EsyncUa.Footprints
import EsyncUa.Rehearsals
import EsyncUa.SoleRuns

/-!
The programs of the agent on the files of the device. The calls that read and write manifests,
compute digests, link, copy and remove files work on the content of the files; how libc,
libzip and libxml end each call, and what the callbacks of the component and the
reconstruction of a delta answer and do to the files, is given from outside. One thread runs
alone here, and its run is computed.
-/
namespace EsyncUa.FileWorlds

open EsyncUa.JsonProperties EsyncUa.Components EsyncUa.Programs EsyncUa.Operations
open EsyncUa.Installation EsyncUa.Machines EsyncUa.Schedules EsyncUa.SoleRuns EsyncUa.FilePaths
open EsyncUa.Checksums EsyncUa.PackageDigests EsyncUa.PackageManifests EsyncUa.Rehearsals

/-- How calc_sha256_x ends on an archive that it can open. -/
inductive DigestCall
  | completes | failsBefore | failsAtEnd
  deriving DecidableEq

/-- How make_file_hard_link ends; where it fails it may have removed what was there. -/
inductive LinkCall
  | done
  | fails (removed : Bool)

/-- How copy_file ends once it could open the source. A failing close of the destination is only
logged, so the copy may be lost although success is reported. -/
inductive CopyCall (β : Type)
  | done
  | fails (left : Option β)
  | lostAtClose (left : Option β)

structure Outside (β : Type) where
  xml : Libxml β
  ssl : Openssl
  /-- The text of the SHA-256 of a content. -/
  sha256B64 : β → DigestB64
  /-- The files that calc_sha256_x finds in a content, if it is an archive. -/
  archive : β → Option (List (Bytes × Bytes))
  empty : β
  hashFails : Nat → Bool
  digestCall : Nat → DigestCall
  addCalls : Nat → AddCalls β
  readable : Nat → Bool
  linkCall : Nat → LinkCall
  /-- Whether the two paths of a copy are links to one file. -/
  oneFile : Nat → Bool
  copyCall : Nat → CopyCall β
  /-- The other calls, from the number of calls before them and the files at that moment. -/
  other : Nat → Files β → (o : ExtOp) → Option (o.Ans × Files β)

/-- A call of add_pkg_file_manifest and what it found. -/
structure AddRecord (β : Type) where
  xmlFile : String
  before : Option β
  calls : AddCalls β
  digest : Calculated
  pkgFile : PkgFile

/-- The shared state, the files, the number of calls so far, the manifest entries asked for,
and how many files have been linked, copied or removed. -/
structure FileWorld (β : Type) where
  shared : Shared
  files : Files β
  asked : Nat
  adds : List (AddRecord β)
  moves : Nat

variable {β : Type}

/-- The digest of what an archive holds. -/
def Outside.digestOf (out : Outside β) (content : β) : Option DigestB64 :=
  (out.archive content).map (contentsDigest out.ssl)

def calculated : Option DigestB64 → DigestCall → Calculated
  | some d, .completes => ⟨eUaOk, some d⟩
  | some d, .failsAtEnd => ⟨eUaErr, some d⟩
  | _, _ => ⟨eUaErr, none⟩

theorem calculated_ok {digest : Option DigestB64} {call : DigestCall}
    (h : (calculated digest call).err = eUaOk) :
    ∃ d, digest = some d ∧ call = .completes ∧ calculated digest call = ⟨eUaOk, some d⟩ := by
  cases digest with
  | none => exact absurd h eUaErr_ne_ok
  | some d =>
      cases call with
      | completes => exact ⟨d, rfl, rfl, rfl⟩
      | failsBefore => exact absurd h eUaErr_ne_ok
      | failsAtEnd => exact absurd h eUaErr_ne_ok

theorem hashEntries_err (ssl : Openssl) (rwBuffSize fuel : Nat) {entries : List ZipEntry}
    {err : Rc} {sha256List : List Digest} {hashed : Rc × List Digest}
    (herr : err = eUaOk ∨ err = eUaErr)
    (h : hashEntries ssl rwBuffSize fuel entries err sha256List = some hashed) :
    hashed.1 = eUaOk ∨ hashed.1 = eUaErr := by
  induction entries generalizing err sha256List with
  | nil =>
      cases h
      exact herr
  | cons sb entries ih =>
      unfold hashEntries at h
      split at h
      · cases h
        exact .inr rfl
      · split at h
        · exact ih herr h
        · split at h
          · exact ih herr h
          · split at h
            · cases h
              exact .inr rfl
            · split at h
              · cases h
              · apply ih _ h
                split
                · exact herr
                · exact .inr rfl

/-- Every result of calc_sha256_x on an archive is one of the three. -/
theorem calcSha256X_calculated (ssl : Openssl) {rwBuffSize fuel : Nat} {za : ZipArchive}
    (hfills : za.Fills) {result : Calculated}
    (h : PackageDigests.calcSha256X ssl rwBuffSize fuel (some za) = some result) :
    ∃ call, result = calculated (some (contentsDigest ssl za.files)) call := by
  rw [PackageDigests.calcSha256X, Option.map_eq_some_iff] at h
  obtain ⟨hashed, hhashed, rfl⟩ := h
  obtain ⟨err, list⟩ := hashed
  rcases hashEntries_err ssl rwBuffSize fuel (.inl rfl) hhashed with herr | herr
  · have herr : err = eUaOk := herr
    subst herr
    have hlist : ssl.base64 (combined ssl list) = contentsDigest ssl za.files := by
      rw [(hashEntries_ok ssl hfills hhashed).2, List.nil_append, ← combined_files,
        ZipArchive.files, List.map_map]
      rfl
    unfold finishDigest
    simp only [ne_eq, not_true_eq_false, if_false, hlist]
    cases za.base64Encode with
    | false => exact ⟨.failsBefore, by cases za.zipClose <;> rfl⟩
    | true =>
        cases za.zipClose with
        | false => exact ⟨.failsAtEnd, rfl⟩
        | true => exact ⟨.completes, rfl⟩
  · have herr : err = eUaErr := herr
    subst herr
    refine ⟨.failsBefore, ?_⟩
    unfold finishDigest
    simp only [if_pos eUaErr_ne_ok]
    cases za.zipClose <;> rfl

namespace FileWorld

def next (w : FileWorld β) : FileWorld β := { w with asked := w.asked + 1 }

/-- What a path leads to. -/
def content (w : FileWorld β) (path : Option String) : Option β :=
  path.bind fun path => w.files (resolve path)

def setFile (w : FileWorld β) (path : String) (content : Option β) : FileWorld β :=
  { w with files := write w.files (resolve path) content }

def moved (w : FileWorld β) : FileWorld β := { w with moves := w.moves + 1 }

end FileWorld

section Calls

variable (out : Outside β) (w : FileWorld β)

def calcSha256X (archive : Option String) : Calculated :=
  calculated ((w.content archive).bind out.digestOf) (out.digestCall w.asked)

def calculateSha256B64 (file : Option String) : Option DigestB64 :=
  if out.hashFails w.asked then none else (w.content file).map out.sha256B64

/-- verify_file_hash_b64: both texts fit into a digest buffer. -/
def verifyFileHashB64 (file : Option String) (sha256B64 : Sha256B64) : Rc :=
  if file.isNone then eUaErr
  else
    match calculateSha256B64 out w file with
    | none => eUaSys
    | some b64buff => if b64buff.val = sha256B64.val then eUaOk else eUaErr

def getManifest (xmlFile version : Option String) : ManifestReply :=
  match xmlFile, version with
  | some xmlFile, some version =>
      getPkgFileManifest out.xml (out.readable w.asked) (w.files (resolve xmlFile)) version
  | _, _ => .err

def addManifest (xmlFile : Option String) (pkgFile : PkgFile) : Rc × FileWorld β :=
  match xmlFile with
  | none => (eUaErr, w.next)
  | some xmlFile =>
      let digest := calcSha256X out w pkgFile.file
      let before := w.files (resolve xmlFile)
      let added := addPkgFileManifest out.xml (out.addCalls w.asked) digest before pkgFile
      (added.err,
        { w.next.setFile xmlFile added.xmlFile with
          adds := ⟨xmlFile, before, out.addCalls w.asked, digest, pkgFile⟩ :: w.adds })

/-- make_file_hard_link; what is at the new path is removed first. -/
def makeFileHardLink (src dst : String) : Rc × FileWorld β :=
  match out.linkCall w.asked with
  | .done =>
      let removed := w.setFile dst none
      match removed.files (resolve src) with
      | none => (eUaSys, removed.next.moved)
      | some content => (eUaOk, (removed.setFile dst (some content)).next.moved)
  | .fails removed => (eUaSys, (if removed then w.setFile dst none else w).next.moved)

/-- What a copy that did not get through leaves at its destination. -/
def leaveCopy (src dst : String) (left : Option β) : FileWorld β :=
  ((if out.oneFile w.asked then w.setFile src left else w).setFile dst left).next.moved

/-- copy_file; a file that is copied onto itself is truncated before it is read. -/
def copyFile (src dst : String) : Rc × FileWorld β :=
  match w.files (resolve src), out.copyCall w.asked with
  | none, _ => (eUaSys, w.next.moved)
  | some _, .fails left => (eUaSys, leaveCopy out w src dst left)
  | some _, .lostAtClose left => (eUaOk, leaveCopy out w src dst left)
  | some content, .done =>
      if out.oneFile w.asked ∨ resolve src = resolve dst then
        (eUaOk, ((w.setFile src (some out.empty)).setFile dst (some out.empty)).next.moved)
      else (eUaOk, (w.setFile dst (some content)).next.moved)

def onPaths (call : String → String → Rc × FileWorld β) (src dst : Option String) :
    Rc × FileWorld β :=
  match src, dst with
  | some src, some dst => call src dst
  | _, _ => (eUaSys, w.next)

/-- The answer to a call, and what it leaves. -/
def extStep : (o : ExtOp) → Option (o.Ans × FileWorld β)
  | .verifyFileHashB64 file sha256B64 => some (verifyFileHashB64 out w file sha256B64, w.next)
  | .calculateSha256B64 file =>
      some ((calculateSha256B64 out w file).map DigestB64.toSha256B64, w.next)
  | .calcSha256X archive =>
      some (if (calcSha256X out w archive).err = eUaOk then
          (calcSha256X out w archive).obuff.map DigestB64.toSha256B64 else none, w.next)
  | .sha256xcmp archive sha256B64 => some (sha256xcmp (calcSha256X out w archive) sha256B64, w.next)
  | .getPkgFileManifest xmlFile version => some (getManifest out w xmlFile version, w.next)
  | .addPkgFileManifest xmlFile pkgFile => some (addManifest out w xmlFile pkgFile)
  | .access path => some ((w.content path).isSome, w.next)
  | .unlink path => some ((), ((path.map fun path => w.setFile path none).getD w).next.moved)
  | .makeFileHardLink src dst => some (onPaths w (makeFileHardLink out w) src dst)
  | .copyFile src dst => some (onPaths w (copyFile out w) src dst)
  | .crash => none
  | o => (out.other w.asked w.files o).map fun reply => (reply.1, { w.next with files := reply.2 })

/-- Only calls are made by the programs that are run here. -/
def step : (o : Op) → Option (o.Ans × FileWorld β)
  | .ext o => extStep out w o
  | _ => none

end Calls

section Runs

variable (out : Outside β)

/-- The agent where the answers come from outside. -/
def fileAgent : Machine Tid Shared (FileWorld β) Op.Ans where
  mem := FileWorld.shared
  init := fun _ => True
  act := fun _ o b w w' => step out w o = some (b, w')
  fork := fun _ _ _ => none
  arrive := fun _ _ _ _ => False
  restart := fun _ _ => False

def filePlayer : Player (fileAgent out) where
  answer := fun _ w o => step out w o
  sound := fun _ _ _ _ _ h => h

variable {α γ : Type}

/-- What a program returns and leaves. -/
def run (p : UaProg α) (w : FileWorld β) : Option (α × FileWorld β) :=
  alone (filePlayer out) .bus p w

variable (w : FileWorld β)

@[simp] theorem run_pure (a : α) : run out (Prog.pure a) w = some (a, w) := rfl

@[simp] theorem run_bind (p : UaProg α) (f : α → UaProg γ) :
    run out (p >>= f) w = (run out p w).bind fun r => run out (f r.1) r.2 := by
  unfold run
  induction p generalizing w with
  | pure a => rfl
  | get k ih => exact ih _ w
  | call o k ih =>
      show alone (filePlayer out) .bus (Prog.call o fun b => k b >>= f) w = _
      rw [alone, alone, Option.bind_assoc]
      congr 1
      funext r
      split
      · exact ih r.1 r.2
      · rfl

@[simp] theorem run_readComp (uacc : UaccPtr) (f : UaComponentContext → α) :
    run out (readComp uacc f) w = some (f (w.shared.comp uacc), w) := rfl

@[simp] theorem run_readIntl (f : UaInternal → α) :
    run out (readIntl f) w = some (f w.shared.intl, w) := rfl

@[simp] theorem run_ext (o : ExtOp) :
    @run β out (no_index o.Ans) (ext o) w = extStep out w o := by
  show ((extStep out w o).bind fun r =>
    if (none : Option (Tid × UaProg Unit)).isNone then some (r.1, r.2) else none) = _
  simp

@[simp] theorem run_ite (c : Prop) [Decidable c] (p q : UaProg α) :
    run out (if c then p else q) w = if c then run out p w else run out q w := by
  split <;> rfl

@[simp] theorem run_doIf (c : Prop) [Decidable c] (p : UaProg Unit) :
    run out (doIf c p) w = if c then run out p w else some ((), w) := by
  rw [doIf, run_ite]
  rfl

@[simp] theorem run_ignoring (p : UaProg α) :
    run out (ignoring p) w = (run out p w).map fun r => ((), r.2) := by
  rw [ignoring, run_bind]
  cases run out p w <;> rfl

end Runs

section Frames

/-- The calls of the agent itself that write, link, copy or remove files. -/
def writes : ExtOp → Bool
  | .addPkgFileManifest _ _ => true
  | .makeFileHardLink _ _ => true
  | .copyFile _ _ => true
  | .unlink _ => true
  | _ => false

/-- Nothing outside changes the file at this path. -/
def Spares (out : Outside β) (p : Path) : Prop :=
  ∀ n files (o : ExtOp) reply, out.other n files o = some reply → reply.2 p = files p

/-- Every call outside returns. -/
def Answers (out : Outside β) : Prop :=
  ∀ n files (o : ExtOp), o ≠ .crash → (out.other n files o).isSome

variable {out : Outside β} {w w' : FileWorld β}

theorem makeFileHardLink_frame (src dst : String) :
    (makeFileHardLink out w src dst).2.shared = w.shared ∧
      (makeFileHardLink out w src dst).2.moves = w.moves + 1 := by
  unfold makeFileHardLink
  cases out.linkCall w.asked with
  | done =>
      simp only
      cases (w.setFile dst none).files (resolve src) <;> exact ⟨rfl, rfl⟩
  | fails removed => cases removed <;> exact ⟨rfl, rfl⟩

theorem leaveCopy_frame (src dst : String) (left : Option β) :
    (leaveCopy out w src dst left).shared = w.shared ∧
      (leaveCopy out w src dst left).moves = w.moves + 1 := by
  unfold leaveCopy
  split <;> exact ⟨rfl, rfl⟩

theorem copyFile_frame (src dst : String) :
    (copyFile out w src dst).2.shared = w.shared ∧
      (copyFile out w src dst).2.moves = w.moves + 1 := by
  unfold copyFile
  cases w.files (resolve src) with
  | none => exact ⟨rfl, rfl⟩
  | some content =>
      cases out.copyCall w.asked with
      | fails left => exact leaveCopy_frame src dst left
      | lostAtClose left => exact leaveCopy_frame src dst left
      | done =>
          simp only
          split <;> exact ⟨rfl, rfl⟩

theorem onPaths_frame {call : String → String → Rc × FileWorld β}
    (hcall : ∀ src dst, (call src dst).2.shared = w.shared ∧
      (call src dst).2.moves = w.moves + 1) (src dst : Option String) :
    (onPaths w call src dst).2.shared = w.shared ∧
      w.moves ≤ (onPaths w call src dst).2.moves := by
  cases src with
  | none => exact ⟨rfl, Nat.le_refl _⟩
  | some src =>
      cases dst with
      | none => exact ⟨rfl, Nat.le_refl _⟩
      | some dst => exact ⟨(hcall src dst).1, by simp [onPaths, (hcall src dst).2]⟩

/-- Nothing but the files changes, and those only by the calls for it or from outside. -/
structure Frame (out : Outside β) (w w' : FileWorld β) : Prop where
  adds : w'.adds = w.adds
  moves : w'.moves = w.moves
  files : ∀ p, Spares out p → w'.files p = w.files p

theorem Frame.refl (w : FileWorld β) : Frame out w w := ⟨rfl, rfl, fun _ _ => rfl⟩

theorem Frame.trans {w'' : FileWorld β} (h : Frame out w w') (h' : Frame out w' w'') :
    Frame out w w'' where
  adds := h'.adds.trans h.adds
  moves := h'.moves.trans h.moves
  files := fun p hp => (h'.files p hp).trans (h.files p hp)

theorem extStep_frame {o : ExtOp} {b : o.Ans} (h : extStep out w o = some (b, w')) :
    w'.shared = w.shared ∧ w.moves ≤ w'.moves ∧ (writes o = false → Frame out w w') := by
  have hnext : Frame out w w.next := ⟨rfl, rfl, fun _ _ => rfl⟩
  have hother : (out.other w.asked w.files o).map
      (fun reply => (reply.1, ({ w.next with files := reply.2 } : FileWorld β))) =
        some (b, w') →
      w'.shared = w.shared ∧ w.moves ≤ w'.moves ∧ (writes o = false → Frame out w w') := by
    intro hr
    obtain ⟨reply, hreply, heq⟩ := Option.map_eq_some_iff.mp hr
    cases heq
    exact ⟨rfl, Nat.le_refl _, fun _ => ⟨rfl, rfl, fun p hp => hp _ _ _ _ hreply⟩⟩
  cases o with
  | addPkgFileManifest xmlFile pkgFile =>
      have hw : w' = (addManifest out w xmlFile pkgFile).2 :=
        (congrArg Prod.snd (Option.some.inj h)).symm
      subst hw
      cases xmlFile <;> exact ⟨rfl, Nat.le_refl _, by simp [writes]⟩
  | makeFileHardLink src dst =>
      have hw : w' = (onPaths w (makeFileHardLink out w) src dst).2 :=
        (congrArg Prod.snd (Option.some.inj h)).symm
      subst hw
      have hframe := onPaths_frame (@makeFileHardLink_frame β out w) src dst
      exact ⟨hframe.1, hframe.2, by simp [writes]⟩
  | copyFile src dst =>
      have hw : w' = (onPaths w (copyFile out w) src dst).2 :=
        (congrArg Prod.snd (Option.some.inj h)).symm
      subst hw
      have hframe := onPaths_frame (@copyFile_frame β out w) src dst
      exact ⟨hframe.1, hframe.2, by simp [writes]⟩
  | unlink path =>
      cases h
      cases path <;> exact ⟨rfl, Nat.le_succ _, by simp [writes]⟩
  | crash => cases h
  | verifyFileHashB64 | calculateSha256B64 | calcSha256X | sha256xcmp | getPkgFileManifest
  | access =>
      cases h
      exact ⟨rfl, Nat.le_refl _, fun _ => hnext⟩
  | callback | uaSendMessage | randstring | rmdirp | parsePkgManifest | removeOldBackup
  | isDeltaPackage | isPreparedDeltaPackage | deltaReconstruct | getDeltaCapability
  | deltaUseExternalAlgo | freeMsg => exact hother h

def Harmless : Op → Prop
  | .ext e => writes e = false
  | _ => True

@[simp] theorem harmless_ext (e : ExtOp) : Harmless (.ext e) ↔ writes e = false := Iff.rfl

/-- A program that leaves the files alone. -/
abbrev KeepsFiles {α : Type} (p : UaProg α) : Prop := p.All Harmless

theorem run_shared {α : Type} {p : UaProg α} {a : α} (h : run out p w = some (a, w')) :
    w'.shared = w.shared := by
  induction p generalizing w with
  | pure b =>
      cases h
      rfl
  | get k ih => exact ih w.shared h
  | call o k ih =>
      obtain ⟨⟨b, w₁⟩, hstep, hrest⟩ := Option.bind_eq_some_iff.mp h
      cases o with
      | ext e => exact (ih b hrest).trans (extStep_frame hstep).1
      | _ => cases hstep

/-- The count of moves never goes back. -/
theorem run_moves {α : Type} {p : UaProg α} {a : α} (h : run out p w = some (a, w')) :
    w.moves ≤ w'.moves := by
  induction p generalizing w with
  | pure b =>
      cases h
      exact Nat.le_refl _
  | get k ih => exact ih w.shared h
  | call o k ih =>
      obtain ⟨⟨b, w₁⟩, hstep, hrest⟩ := Option.bind_eq_some_iff.mp h
      cases o with
      | ext e => exact Nat.le_trans (extStep_frame hstep).2.1 (ih b hrest)
      | _ => cases hstep

theorem run_frame {α : Type} {p : UaProg α} (hp : KeepsFiles p) {a : α}
    (h : run out p w = some (a, w')) : Frame out w w' := by
  induction p generalizing w with
  | pure b =>
      cases h
      exact .refl _
  | get k ih => exact ih w.shared (hp w.shared) h
  | call o k ih =>
      obtain ⟨⟨b, w₁⟩, hstep, hrest⟩ := Option.bind_eq_some_iff.mp h
      cases o with
      | ext e => exact ((extStep_frame hstep).2.2 hp.1).trans (ih b (hp.2 b) hrest)
      | _ => cases hstep

def Returning : Op → Prop
  | .ext e => e ≠ .crash
  | _ => False

@[simp] theorem returning_ext (e : ExtOp) : Returning (.ext e) ↔ e ≠ .crash := Iff.rfl

/-- A program of calls that return. -/
abbrev OnlyCalls {α : Type} (p : UaProg α) : Prop := p.All Returning

theorem extStep_returns (hout : Answers out) {o : ExtOp} (ho : o ≠ .crash) (w : FileWorld β) :
    ∃ r, extStep out w o = some r := by
  have hother : ∃ r, (out.other w.asked w.files o).map
      (fun reply => (reply.1, ({ w.next with files := reply.2 } : FileWorld β))) = some r := by
    obtain ⟨reply, hreply⟩ := Option.isSome_iff_exists.mp (hout w.asked w.files o ho)
    exact ⟨_, congrArg (Option.map _) hreply⟩
  cases o with
  | crash => exact absurd rfl ho
  | addPkgFileManifest | makeFileHardLink | copyFile | unlink | verifyFileHashB64
  | calculateSha256B64 | calcSha256X | sha256xcmp | getPkgFileManifest | access => exact ⟨_, rfl⟩
  | callback | uaSendMessage | randstring | rmdirp | parsePkgManifest | removeOldBackup
  | isDeltaPackage | isPreparedDeltaPackage | deltaReconstruct | getDeltaCapability
  | deltaUseExternalAlgo | freeMsg => exact hother

theorem run_returns (hout : Answers out) {α : Type} {p : UaProg α} (hp : OnlyCalls p)
    (w : FileWorld β) : ∃ r, run out p w = some r := by
  induction p generalizing w with
  | pure a => exact ⟨_, rfl⟩
  | get k ih => exact ih w.shared (hp w.shared) w
  | call o k ih =>
      cases o with
      | ext e =>
          obtain ⟨⟨b, w₁⟩, hstep⟩ := extStep_returns hout hp.1 w
          obtain ⟨r, hr⟩ := ih b (hp.2 b) w₁
          exact ⟨r, Option.bind_eq_some_iff.mpr ⟨(b, w₁), hstep, hr⟩⟩
      | _ => exact absurd hp.1 id

end Frames

section Samples

/-- Files that hold a document or the package of the examples. -/
def sampleFileXml : Libxml (Option Doc) :=
  ⟨fun content => content.bind sampleXml.xmlReadFile, some, id⟩

theorem sampleFileXml_documented : sampleFileXml.Documented where
  read_save := fun _ h => if_pos h
  read_text := by
    intro content doc h
    obtain ⟨doc', rfl, hread⟩ := Option.bind_eq_some_iff.mp h
    exact sampleXml_documented.read_text doc' doc hread
  nodeText_plain := fun _ _ => rfl

/-- Every call does what it is for. -/
def sampleOutside : Outside (Option Doc) where
  xml := sampleFileXml
  ssl := sampleSsl
  sha256B64 := fun _ => sampleBase64 (sampleSsl.sha256 [3])
  archive := fun content => if content.isNone then some PackageDigests.sampleFiles else none
  empty := some []
  hashFails := fun _ => false
  digestCall := fun _ => .completes
  addCalls := fun _ => ⟨true, true, none⟩
  readable := fun _ => true
  linkCall := fun _ => .done
  oneFile := fun _ => false
  copyCall := fun _ => .done
  other := fun _ files o => (usualAnswer "1" o).map fun b => (b, files)

/-- The disk is full when the manifest is to be written. -/
def fullDisk : Outside (Option Doc) :=
  { sampleOutside with addCalls := fun _ => ⟨true, true, some none⟩ }

/-- A component with both manifests. -/
def sampleComponent : UaComponentContext :=
  { ((sampleConfig false 1).started .empty .empty).comp 0 with
    updateManifest := some "/cache/manifest.xml"
    backupManifest := some "/data/backup/pkg/manifest_pkg.xml" }

def sampleShared : Shared :=
  let started := (sampleConfig false 1).started .empty .empty
  { started with
    intl := { started.intl with packageVerificationDisabled := false }
    comp := fun _ => sampleComponent }

/-- The package is installed, and has been copied to `copies`. -/
def sampleWorld (copies : List String) : FileWorld (Option Doc) where
  shared := sampleShared
  files := fun p => if ("/data/pkg.zip" :: copies).any fun path => resolve path = p
    then some none else none
  asked := 0
  adds := []
  moves := 0

end Samples

end EsyncUa.FileWorlds
