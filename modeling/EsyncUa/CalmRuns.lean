import EsyncUa.DeltaPrograms

/-!
What the operations of a reconstruction may change. A command that the shell reads as it is meant
writes its output and nothing else, so a run leaves a directory alone, but for one file, if no
other path that it writes at leads there.
-/
namespace EsyncUa.CalmRuns

open JsonProperties Checksums DiffManifests FilePaths LinkedFiles Programs Executions
open DeltaPrograms ShellWords
open Deltas (DeltaStg DeltaTool Dirs findTool patchdth)
open PatchCommands (ReadsPaths)

/-! What the shell and its commands are expected to do. -/

/-- The shell reads the line as one command with these files, or the line of a tool as its
template with each path as a part of one word. What follows the file that mksquashfs makes is an
option, or it would take that for what to make. -/
def Meant (c : Command) : Prop :=
  match c with
  | .mkfsTime squashFile => simpleCommand c.line = some ["unsquashfs", "-mkfs-time", squashFile]
  | .unsquash unsqCmd squashFile =>
      simpleCommand c.line = some ["unsquashfs", "-d", unsqCmd, squashFile]
  | .mksquash unsqCmd packed _ =>
      (simpleCommand c.line).map (List.take 3) = some ["mksquashfs", unsqCmd, packed] ∧
        ∀ word ∈ (simpleCommand c.line).bind (·[3]?), word.toList.head? = some '-'
  | .tool e => ReadsPaths Reader.start e.parts

instance : DecidablePred Meant
  | .mkfsTime _ | .unsquash _ _ => inferInstanceAs (Decidable (_ = _))
  | .mksquash _ _ _ => inferInstanceAs (Decidable (_ ∧ _))
  | .tool _ => inferInstanceAs (Decidable (ReadsPaths _ _))

/-- Only the file that a path leads to changes, and does not become a link. -/
def Writes (tree after : Tree) (path : String) : Prop :=
  ∀ q, after q ≠ tree q → place tree path = some q ∧ linkAt after q = none

/-- A command changes nothing but what it is for. -/
def Confined (tree after : Tree) : Command → Prop
  | .mkfsTime _ => after = tree
  | .unsquash unsqCmd _ => ∀ q, after q ≠ tree q → ∃ p, place tree unsqCmd = some p ∧ p <+: q
  | .mksquash _ packed _ => Writes tree after packed
  | .tool e => Writes tree after e.new

def UsesTools (stg : DeltaStg) : Command → Prop
  | .tool e => e.tool ∈ stg.patchTool ∨ e.tool ∈ stg.decompTool
  | _ => True

/-- The squashfs programs and the configured tools do what they are documented to do. -/
def Documented (w : Host) (stg : DeltaStg) : Prop :=
  ∀ n tree c, UsesTools stg c → Meant c →
    Confined tree (w.systems n tree c.line).2 c ∧ Confined tree (w.popens n tree c.line).2 c

/-! What a step may do to the new tree. -/

/-- A command writes nothing in the directory. -/
def Spares (dir : Path) (tree : Tree) : Command → Prop
  | .mkfsTime _ => True
  | .unsquash unsqCmd _ => Beside tree dir unsqCmd
  | .mksquash _ packed _ => Outside tree dir packed
  | .tool e => Outside tree dir e.new

instance (dir : Path) (tree : Tree) : DecidablePred (Spares dir tree)
  | .mkfsTime _ => inferInstanceAs (Decidable True)
  | .unsquash _ _ => inferInstanceAs (Decidable (Beside _ _ _))
  | .mksquash _ _ _ | .tool _ => inferInstanceAs (Decidable (Outside _ _ _))

/-- No path that an operation writes at leads into the directory. -/
def Away (dir : Path) (tree : Tree) : Call → Prop
  | .newdirp path | .rmdirp path | .unzip _ path => Beside tree dir path
  | .zip path _ | .copyFile _ path | .remove path => Outside tree dir path
  | .popen c | .system c => Spares dir tree c

instance (dir : Path) (tree : Tree) : DecidablePred (Away dir tree)
  | .newdirp _ | .rmdirp _ | .unzip _ _ => inferInstanceAs (Decidable (Beside _ _ _))
  | .zip _ _ | .copyFile _ _ | .remove _ => inferInstanceAs (Decidable (Outside _ _ _))
  | .popen c | .system c => inferInstanceAs (Decidable (Spares _ _ c))

/-- The operation is given this path to write at. -/
def WritesAt (own : String) : Call → Prop
  | .copyFile _ path | .remove path => path = own
  | .system (.tool e) => e.new = own
  | _ => False

instance (own : String) : DecidablePred (WritesAt own)
  | .copyFile _ _ | .remove _ | .system (.tool _) => inferInstanceAs (Decidable (_ = _))
  | .system (.mkfsTime _) | .system (.unsquash _ _) | .system (.mksquash _ _ _)
  | .newdirp _ | .rmdirp _ | .unzip _ _ | .zip _ _ | .popen _ =>
      inferInstanceAs (Decidable False)

def Understood : Call → Prop
  | .popen c | .system c => Meant c
  | _ => True

instance : DecidablePred Understood
  | .popen c | .system c => inferInstanceAs (Decidable (Meant c))
  | .newdirp _ | .rmdirp _ | .unzip _ _ | .zip _ _ | .copyFile _ _ | .remove _ =>
      inferInstanceAs (Decidable True)

/-- The shell reads the line of an operation as it is meant, and the operation writes at `own` or
nowhere in the directory. -/
def Clear (dir : Path) (own : String) (tree : Tree) (c : Call) : Prop :=
  Understood c ∧ (Away dir tree c ∨ WritesAt own c)

instance (dir : Path) (own : String) (tree : Tree) : DecidablePred (Clear dir own tree) :=
  fun _ => inferInstanceAs (Decidable (_ ∧ _))

def CallsTools (stg : DeltaStg) : Call → Prop
  | .popen c | .system c => UsesTools stg c
  | _ => True

section Steps

variable {w : Host} {stg : DeltaStg} {dir : Path} {own : String} {d : Disk}

theorem writes_store (tree : Tree) (path : String) (content : Option Bytes) :
    Writes tree (store tree path content) path := by
  intro q hchanged
  have hplace : place tree path = some q :=
    not_not.mp fun h => hchanged (store_other h content)
  refine ⟨hplace, ?_⟩
  rw [linkAt, store_self hplace]
  cases content <;> rfl

theorem Writes.outside {tree after : Tree} {path : String} (h : Writes tree after path)
    (hout : Outside tree dir path) {q : Path} (hq : dir <+: q) : after q = tree q := by
  by_contra hchanged
  exact hout.place_ne hq (h q hchanged).1

theorem spared {tree after : Tree} {c : Command} (hspares : Spares dir tree c)
    (hconfined : Confined tree after c) {q : Path} (hq : dir <+: q) : after q = tree q := by
  cases c with
  | mkfsTime squashFile => exact congrFun hconfined q
  | unsquash unsqCmd squashFile =>
      by_contra hchanged
      obtain ⟨p, hplace, hp⟩ := hconfined q hchanged
      exact hspares.not_below hplace hq hp
  | mksquash unsqCmd packed options => exact Writes.outside hconfined hspares hq
  | tool e => exact Writes.outside hconfined hspares hq

/-- An operation leaves a directory alone that none of its paths leads into. -/
theorem act_away (hdoc : Documented w stg) {c : Call} (hcalls : CallsTools stg c)
    (hunderstood : Understood c) (haway : Away dir d.tree c) {q : Path} (hq : dir <+: q) :
    (w.act d c).2.tree q = d.tree q := by
  cases c with
  | newdirp path => exact removeDir_beside haway hq
  | rmdirp path => exact removeDir_beside haway hq
  | unzip archive path =>
      simp only [Host.act, Host.unzip]
      cases hplace : place d.tree path with
      | none => rfl
      | some p =>
          have hunpacked : ∀ tree : Tree, unpack d.tree p tree q = d.tree q :=
            unpack_other (haway.not_below hplace hq)
          dsimp only
          split
          · exact hunpacked _
          · exact hunpacked _
  | zip archive path =>
      have hunlinked : unlink d.tree archive q = d.tree q := unlink_other (haway.spot_ne hq)
      simp only [Host.act, Host.zip]
      split
      · exact hunlinked
      · exact hunlinked
  | copyFile src dst =>
      simp only [Host.act, Host.copyFile]
      split
      · rfl
      · split
        · exact (writes_store _ _ _).outside haway hq
        · exact (writes_store _ _ _).outside haway hq
  | remove path => exact unlink_other (haway.spot_ne hq)
  | popen c => exact spared haway (hdoc _ _ c hcalls hunderstood).2 hq
  | system c => exact spared haway (hdoc _ _ c hcalls hunderstood).1 hq

/-- An operation changes nothing but what the path leads to that it is given. -/
theorem act_writesAt (hdoc : Documented w stg) {c : Call} (hcalls : CallsTools stg c)
    (hunderstood : Understood c) (hwrites : WritesAt own c) {q : Path}
    (hchanged : (w.act d c).2.tree q ≠ d.tree q) :
    q ∈ leads d.tree own ∧ linkAt (w.act d c).2.tree q = none := by
  have hwritten : ∀ {after : Tree}, Writes d.tree after own → after q ≠ d.tree q →
      q ∈ leads d.tree own ∧ linkAt after q = none :=
    fun h hne => ⟨mem_leads.mpr (.inl (h q hne).1), (h q hne).2⟩
  cases c with
  | copyFile src dst =>
      obtain rfl : dst = own := hwrites
      simp only [Host.act, Host.copyFile] at hchanged ⊢
      split at hchanged
      · exact absurd rfl hchanged
      · split at hchanged
        · exact hwritten (writes_store _ _ _) hchanged
        · exact hwritten (writes_store _ _ _) hchanged
  | remove path =>
      obtain rfl : path = own := hwrites
      have hspot : spot d.tree path = some q := not_not.mp fun h => hchanged (unlink_other h)
      exact ⟨mem_leads.mpr (.inr hspot), linkAt_of_none (unlink_self hspot)⟩
  | system c =>
      cases c with
      | tool e =>
          obtain rfl : e.new = own := hwrites
          exact hwritten (hdoc _ _ (.tool e) hcalls hunderstood).1 hchanged
      | mkfsTime squashFile => exact hwrites.elim
      | unsquash unsqCmd squashFile => exact hwrites.elim
      | mksquash unsqCmd packed options => exact hwrites.elim
  | newdirp path => exact hwrites.elim
  | rmdirp path => exact hwrites.elim
  | unzip archive path => exact hwrites.elim
  | zip archive path => exact hwrites.elim
  | popen c => exact hwrites.elim

end Steps

section Tools

variable {stg : DeltaStg} {sha256Hex : Bytes → String}

theorem patchdth_mem {format : String} {tool : DeltaTool}
    (h : patchdth stg format = .ok (some tool)) : tool ∈ stg.patchTool := by
  unfold patchdth at h
  split at h
  · cases h
  · cases hfound : findTool stg.patchTool format with
    | none => simp [hfound] at h
    | some tool' =>
        simp only [hfound, Except.ok.injEq, Option.some.injEq] at h
        exact h ▸ List.mem_of_find?_eq_some hfound

theorem calls_verifyFile (file : String) (sha256 : Sha256Hex) :
    (verifyFile sha256Hex file sha256).All (CallsTools stg) := by
  simp only [verifyFile, readFile, Prog.all_bind, Prog.all_read, true_and]
  intro found _
  cases found <;> simp

theorem calls_removeReadable (path : String) :
    (removeReadable path).All (CallsTools stg) := by
  simp [removeReadable, readFile, remove, CallsTools]

theorem calls_diffp (compression : String) (tool : Option DeltaTool) (diff : String) :
    (diffp stg compression tool diff).All (CallsTools stg) := by
  unfold diffp
  split
  · cases hfound : findTool stg.decompTool compression with
    | none => trivial
    | some decompdth =>
        have hmem := List.mem_of_find?_eq_some hfound
        simp [system, CallsTools, UsesTools, hmem]
  · trivial

theorem calls_deltaPatch (di : DiffInfo) (old new diff : String) :
    (deltaPatch stg di old new diff).All (CallsTools stg) := by
  unfold deltaPatch
  cases htool : patchdth stg (di.format.getD "") with
  | error err => trivial
  | ok tool =>
      refine (Prog.all_bind _ _ _).mpr ⟨calls_diffp _ _ _, fun found _ => ?_⟩
      cases found with
      | error err => trivial
      | ok file =>
          cases tool with
          | some tool => simp [system, CallsTools, UsesTools, patchdth_mem htool]
          | none => simp [copyFile, CallsTools]

theorem calls_applyType (di : DiffInfo) (oldFile newFile diffFile : String) :
    (applyType sha256Hex stg di oldFile newFile diffFile).All (CallsTools stg) := by
  have hcopy : ∀ src sha256, (verifiedCopy sha256Hex src newFile sha256).All (CallsTools stg) := by
    simp [verifiedCopy, calls_verifyFile, copyFile, CallsTools]
  unfold applyType
  cases di.type with
  | added => exact hcopy _ _
  | unchanged => exact hcopy _ _
  | changed => simp [verifiedPatch, calls_verifyFile, calls_deltaPatch]
  | removed => trivial

theorem calls_processNested (squashFile : String) (di : DiffInfo) (pkgDir : String)
    (repackaging : Bool) :
    (processNested sha256Hex stg squashFile di pkgDir repackaging).All (CallsTools stg) := by
  have hoptions : (squashOptions stg squashFile di pkgDir repackaging).All (CallsTools stg) := by
    simp [squashOptions, rmdirp, popen, CallsTools, UsesTools]
  have hfinish : ∀ unsqCmd packed,
      (finishImage sha256Hex unsqCmd squashFile packed di repackaging).All (CallsTools stg) := by
    simp [finishImage, imageStatus, replaceImage, calls_verifyFile, remove, copyFile, rmdirp,
      CallsTools]
  unfold processNested
  refine (Prog.all_ite _ _ _).mpr ⟨fun _ => ?_, fun _ => trivial⟩
  refine (Prog.all_bind _ _ _).mpr ⟨hoptions, fun options _ => ?_⟩
  cases options with
  | none => trivial
  | some options => simp [system, CallsTools, UsesTools, hfinish]

theorem calls_reconstructEntry (dirs : Dirs) (di : DiffInfo) :
    (reconstructEntry sha256Hex stg dirs di).All (CallsTools stg) := by
  simp [reconstructEntry, calls_processNested, calls_applyType, calls_removeReadable]

end Tools

/-- The new directory is at `dir` all through the run, whose operations write at `own` or nowhere
in it. -/
def Calm {α : Type} (w : Host) (dir : Path) (newPath own : String) (p : DeltaProg α) (d : Disk) :
    Prop :=
  w.handler.Along (fun d => place d.tree newPath = some dir)
    (fun d c => Clear dir own d.tree c) p d

instance {α : Type} (w : Host) (dir : Path) (newPath own : String) (p : DeltaProg α) (d : Disk) :
    Decidable (Calm w dir newPath own p d) :=
  inferInstanceAs (Decidable (w.handler.Along _ _ p d))

section Runs

variable {w : Host} {stg : DeltaStg} {dir : Path} {newPath name : String} {d : Disk} {α β : Type}

theorem leads_join {tree : Tree} (hplace : place tree newPath = some dir)
    (hunlinked : Unlinked tree dir) (hname : Plain name) {q : Path}
    (h : q ∈ leads tree (join newPath name)) : q = dir ++ components name := by
  rcases mem_leads.mp h with hfound | hfound
  · exact Option.some.inj (hfound.symm.trans (place_join hplace hunlinked hname))
  · exact Option.some.inj (hfound.symm.trans (spot_join hplace hunlinked hname))

theorem content_join {tree : Tree} (hplace : place tree newPath = some dir)
    (hunlinked : Unlinked tree dir) (hname : Plain name) :
    content tree (join newPath name) = fileAt tree (dir ++ components name) := by
  rw [content, place_join hplace hunlinked hname, Option.bind_some]

theorem Calm.bind {own : String} {p : DeltaProg α} {f : α → DeltaProg β}
    (h : Calm w dir newPath own (p >>= f) d) :
    Calm w dir newPath own p d ∧
      Calm w dir newPath own (f (w.handler.run p d).1) (w.handler.run p d).2 :=
  Handler.along_bind h

/-- A part of a run whose operations are not given the path leaves the directory as it was. -/
theorem Calm.untouched (hdoc : Documented w stg) {own : String} {p : DeltaProg α}
    (h : Calm w dir newPath own p d)
    (hall : p.All fun c => CallsTools stg c ∧ ¬ WritesAt own c) {q : Path} (hq : dir <+: q) :
    (w.handler.run p d).2.tree q = d.tree q := by
  refine Handler.Along.keeps (J := fun s => s.tree q = d.tree q) h hall ?_ rfl
  rintro s c - ⟨hunderstood, hclear⟩ ⟨hcalls, hnot⟩ hs
  exact (act_away hdoc hcalls hunderstood (hclear.resolve_right hnot) hq).trans hs

/-- A part of a run changes at most the file of its own in the directory. -/
theorem Calm.keeps (hdoc : Documented w stg) {p : DeltaProg α}
    (h : Calm w dir newPath (join newPath name) p d) (hcalls : p.All (CallsTools stg))
    (hname : Plain name) (hunlinked : Unlinked d.tree dir) :
    Unlinked (w.handler.run p d).2.tree dir ∧
      ∀ q, dir <+: q → q ≠ dir ++ components name →
        (w.handler.run p d).2.tree q = d.tree q := by
  refine Handler.Along.keeps (J := fun s => Unlinked s.tree dir ∧
    ∀ q, dir <+: q → q ≠ dir ++ components name → s.tree q = d.tree q) h hcalls ?_
    ⟨hunlinked, fun _ _ _ => rfl⟩
  rintro s c hplace ⟨hunderstood, hclear⟩ hcalls ⟨hs, hkept⟩
  rcases hclear with haway | hwrites
  · have hsame : ∀ q, dir <+: q → (w.act s c).2.tree q = s.tree q :=
      fun q hq => act_away hdoc hcalls hunderstood haway hq
    exact ⟨hs.congr hsame, fun q hq hne => (hsame q hq).trans (hkept q hq hne)⟩
  · have hchanged : ∀ q, (w.act s c).2.tree q ≠ s.tree q →
        q = dir ++ components name ∧ linkAt (w.act s c).2.tree q = none := by
      intro q hne
      obtain ⟨hleads, hlink⟩ := act_writesAt hdoc hcalls hunderstood hwrites hne
      exact ⟨leads_join hplace hs hname hleads, hlink⟩
    refine ⟨fun q hq => ?_, fun q hq hne => ?_⟩
    · by_cases hsame : (w.act s c).2.tree q = s.tree q
      · exact (linkAt_congr hsame).trans (hs q hq)
      · exact (hchanged q hsame).2
    · by_contra hdiffers
      exact hne (hchanged q fun hsame => hdiffers (hsame.trans (hkept q hq hne))).1

/-- A command that is not given the path leaves the directory as it was for what follows it. -/
theorem Calm.after_system (hdoc : Documented w stg) {own : String} {c : Command}
    {rest : Bool → DeltaProg α} (h : Calm w dir newPath own (system c >>= rest) d)
    (huses : UsesTools stg c) (hnot : ¬ WritesAt own (.system c))
    (hunlinked : Unlinked d.tree dir) :
    let after := w.system d c
    Calm w dir newPath own (rest after.1) after.2 ∧ Unlinked after.2.tree dir ∧
      ∀ q, dir <+: q → after.2.tree q = d.tree q := by
  obtain ⟨hcommand, hrest⟩ := h.bind
  have hsame : ∀ q, dir <+: q → (w.system d c).2.tree q = d.tree q :=
    fun q hq => Calm.untouched hdoc hcommand ⟨⟨huses, hnot⟩, fun _ => trivial⟩ hq
  exact ⟨hrest, hunlinked.congr hsame, hsame⟩

end Runs

end EsyncUa.CalmRuns
