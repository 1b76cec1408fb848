import EsyncUa.DeltaFrames

/-!
What an entry of a delta manifest yields when the tools depend on the contents they are given.
The result of an entry is computed from its two input files alone, and the code puts exactly
this result into the new tree, or fails when there is none.
-/
namespace EsyncUa.DeltaResults

open JsonProperties Components Checksums DiffManifests FilePaths Deltas DeltaFrames

/-- Tools as functions of the contents they read; nothing where they fail. -/
structure Tools where
  inflate : DeltaTool → Bytes → Option Bytes
  patch : DeltaTool → Bytes → Bytes → Option Bytes
  mkfsTime : Bytes → Option String
  unsquash : String → Bytes → Option (Files Bytes)
  mksquash : String → String → String → Files Bytes → Option Bytes

/-- No file stands where a directory above `p`, or `p` itself as one, is needed. -/
def Room (files : Files Bytes) (p : Path) : Prop :=
  ∀ q, q <+: p ∨ p <+: q → q ≠ p → files q = none

/-- A command succeeds with the expected result, and fails when there is none. -/
def Agrees {β : Type} (outcome : Bool × β) (expected : Option β) : Prop :=
  match expected with
  | some result => outcome = (true, result)
  | none => outcome.1 = false

/-- Copies fail only for want of room, and tools do what `t` says. -/
structure Settled (w : World) (t : Tools) : Prop where
  copy : ∀ n files src dst, w.answer n files (.copyFile src dst) = none ↔ Room files (resolve dst)
  inflate : ∀ n files tool diff diffp, Room files (resolve diffp) →
    Agrees (w.answer n files (.decompress tool diff diffp))
      (((files (resolve diff)).bind (t.inflate tool)).map some)
  patch : ∀ n files tool old new diff, Room files (resolve new) →
    Agrees (w.answer n files (.patch tool old new diff))
      (((files (resolve old)).bind fun o => (files (resolve diff)).bind (t.patch tool o)).map some)
  patchBlocked : ∀ n files tool old new diff, ¬ Room files (resolve new) →
    (w.answer n files (.patch tool old new diff)).1 = false
  mkfsTime : ∀ n files file,
    w.answer n files (.mkfsTime file) = (files (resolve file)).bind t.mkfsTime
  unsquash : ∀ n files dir file,
    Agrees (w.answer n files (.unsquash dir file)) ((files (resolve file)).bind (t.unsquash dir))
  mksquash : ∀ n files dir packed options,
    Agrees (w.answer n files (.mksquash dir packed options))
      ((t.mksquash dir packed options (treeAt files (resolve dir))).map some)
  /-- A directory is not replaced by its image. -/
  mksquashSelf : ∀ dir options tree, t.mksquash dir dir options tree = none

section Results

variable (w : World) (t : Tools) (stg : DeltaStg)

/-- The content, when it has the digest. -/
def checked (sha256 : Sha256Hex) (content : Option Bytes) : Option Bytes :=
  content.filter fun bytes => w.sha256Hex bytes = sha256.val

def optionsFor (di : DiffInfo) (repackaging : Bool) (bytes : Bytes) : Option String :=
  if repackaging then some (printed di.mkSquashFsOptions)
  else (t.mkfsTime bytes).map
    fun output => "-noI -noId -noD -noF -noX -noappend -mkfs-time " ++ output

/-- The image that is packed from a file. -/
def imageOf (pkgDir : String) (di : DiffInfo) (repackaging : Bool) (content : Option Bytes) :
    Option Bytes := do
  let bytes ← content
  let options ← optionsFor t di repackaging bytes
  let unsqCmd := joinAll (squashDir stg pkgDir) [if repackaging then "test1.bin" else "test.bin"]
  let str := replaceAll (printed (if repackaging then di.name else di.oldName)) '/' '%'
  let tree ← t.unsquash unsqCmd bytes
  t.mksquash unsqCmd (joinAll (squashDir stg pkgDir) [str]) options tree

/-- The diff the patch is made from. -/
def diffUsed (di : DiffInfo) (tool : Option DeltaTool) (diff : Option Bytes) : Option Bytes :=
  if di.compression.getD "" ≠ "none" ∧ ¬ tool.any DeltaTool.intl then
    (findTool stg.decompTool (di.compression.getD "")).bind fun dth => diff.bind (t.inflate dth)
  else diff

def patched (di : DiffInfo) (old diff : Option Bytes) : Option Bytes :=
  match patchdth stg (di.format.getD "") with
  | .error _ => none
  | .ok none => diffUsed t stg di none diff
  | .ok (some tool) => old.bind fun o => (diffUsed t stg di (some tool) diff).bind (t.patch tool o)

/-- What the type of an entry makes of its input files; a removed file makes none. -/
def typeResult (di : DiffInfo) (old diff : Option Bytes) : Option (Option Bytes) :=
  match di.type with
  | .added => (checked w di.sha256New diff).map some
  | .unchanged => (checked w di.sha256Old old).map some
  | .changed =>
      if di.nested then (patched t stg di old diff).map some
      else
        (checked w di.sha256New
          ((checked w di.sha256Old old).bind fun o => patched t stg di (some o) diff)).map some
  | .removed => some none

def entryResult (pkgDir : String) (di : DiffInfo) (old diff : Option Bytes) :
    Option (Option Bytes) :=
  if di.nested then
    (imageOf t stg pkgDir di false old).bind fun image =>
      (typeResult w t stg di (some image) diff).bind fun new =>
        (checked w di.sha256New (imageOf t stg pkgDir di true new)).map some
  else typeResult w t stg di old diff

end Results

/-- The code succeeds exactly when there is a result, and then leaves it. -/
def Gives (ok : Prop) (after : Option Bytes) (result : Option (Option Bytes)) : Prop :=
  (ok ↔ result.isSome) ∧ ∀ r, result = some r → after = r

theorem Gives.fails {ok : Prop} {after : Option Bytes} (h : ¬ ok) : Gives ok after none :=
  ⟨by simpa using h, fun _ hr => nomatch hr⟩

theorem Gives.succeeds {ok : Prop} {after r : Option Bytes} (h : ok) (hafter : after = r) :
    Gives ok after (some r) :=
  ⟨by simpa using h, fun _ hr => hafter.trans (Option.some.inj hr)⟩

section Operations

variable {α : Type} {w : World} {t : Tools} (stg : DeltaStg) (hset : Settled w t)

include hset

theorem copyFile_gives (src : String) {dst : String} {d : Disk}
    (hroom : Room d.files (resolve dst)) :
    Gives ((copyFile w src dst d).1 = eUaOk) ((copyFile w src dst d).2.files (resolve dst))
      ((d.files (resolve src)).map some) := by
  unfold copyFile fileAt
  rw [bind_run]
  dsimp only
  cases hsrc : d.files (resolve src) with
  | none => exact .fails eUaSys_ne_ok
  | some bytes =>
      dsimp only
      rw [bind_run]
      unfold ask
      dsimp only
      rw [(hset.copy _ _ _ _).mpr hroom]
      exact .succeeds rfl (write_self _ _ _)

theorem copyFile_blocked (src : String) {dst : String} {d : Disk}
    (hroom : ¬ Room d.files (resolve dst)) :
    (copyFile w src dst d).1 ≠ eUaOk := by
  unfold copyFile fileAt
  rw [bind_run]
  dsimp only
  cases d.files (resolve src) with
  | none => exact eUaSys_ne_ok
  | some bytes =>
      dsimp only
      rw [bind_run]
      unfold ask
      dsimp only
      cases hout : w.answer d.asked d.files (.copyFile src dst) with
      | none => exact absurd ((hset.copy _ _ _ _).mp hout) hroom
      | some left => exact eUaSys_ne_ok

omit hset in
/-- A command that agrees with what is expected of it. -/
theorem runTool_gives {o : Op} {result : o.Ans → Bool × Option Bytes} {output : String} {d : Disk}
    {expected : Option Bytes}
    (h : Agrees (result (w.answer d.asked d.files o)) (expected.map some)) :
    Gives ((runTool w o result output d).1 = true)
      ((runTool w o result output d).2.files (resolve output)) (expected.map some) := by
  unfold runTool ask
  simp only [bind_run, pure_run]
  cases expected with
  | none =>
      have hfailed : (result (w.answer d.asked d.files o)).1 = false := h
      exact .fails (by simp [hfailed])
  | some out =>
      have hdone : result (w.answer d.asked d.files o) = (true, some out) := h
      rw [hdone]
      exact .succeeds rfl (write_self _ _ _)

omit hset in
theorem verifyFile_iff (file : String) (sha256 : Sha256Hex) (d : Disk) :
    (verifyFile w file sha256 d).1 = eUaOk ↔
      (checked w sha256 (d.files (resolve file))).isSome := by
  rw [verifyFile_run]
  unfold checked
  cases d.files (resolve file) with
  | none => simpa using eUaSys_ne_ok
  | some bytes =>
      by_cases hsha : w.sha256Hex bytes = sha256.val
      · simp [hsha]
      · simp [hsha]

omit hset in
theorem patchdth_error {format : String} {err : Rc} (h : patchdth stg format = .error err) :
    err ≠ eUaOk := by
  unfold patchdth at h
  split at h
  · cases h
  · split at h
    · cases h
    · cases h
      decide

theorem verifiedCopy_gives {src dst : String} {sha256 : Sha256Hex} {d : Disk}
    (hroom : Room d.files (resolve dst)) :
    Gives ((verifiedCopy w src dst sha256 d).1 = false)
      ((verifiedCopy w src dst sha256 d).2.files (resolve dst))
      ((checked w sha256 (d.files (resolve src))).map some) := by
  have hverify := verifyFile_iff (w := w) src sha256 d
  have hcopy := copyFile_gives hset src hroom
  unfold verifiedCopy
  rw [bind_run, ite_run, verifyFile_disk]
  cases hchecked : checked w sha256 (d.files (resolve src)) with
  | none =>
      rw [if_pos (fun hok => by simpa [hchecked] using hverify.mp hok)]
      exact .fails (by simp)
  | some bytes =>
      have hsrc : d.files (resolve src) = some bytes := (Option.filter_eq_some_iff.mp hchecked).1
      rw [hsrc] at hcopy
      have hok : (copyFile w src dst d).1 = eUaOk := hcopy.1.mpr rfl
      rw [if_neg (not_not.mpr (hverify.mpr (by simp [hchecked]))), bind_run]
      exact .succeeds (by simp [hok]) (hcopy.2 _ rfl)

theorem verifiedCopy_blocked {src dst : String} {sha256 : Sha256Hex} {d : Disk}
    (hroom : ¬ Room d.files (resolve dst)) : (verifiedCopy w src dst sha256 d).1 = true := by
  have hcopy := copyFile_blocked hset src hroom
  unfold verifiedCopy
  rw [bind_run, ite_run, verifyFile_disk]
  split
  · rfl
  · rw [bind_run]
    simpa using hcopy

theorem decompress_gives (tool : DeltaTool) (diff : String) {diffp : String} {d : Disk}
    (hroom : Room d.files (resolve diffp)) :
    Gives ((decompress w tool diff diffp d).1 = true)
      ((decompress w tool diff diffp d).2.files (resolve diffp))
      (((d.files (resolve diff)).bind (t.inflate tool)).map some) :=
  @runTool_gives w (.decompress tool diff diffp) id diffp d _
    (hset.inflate _ _ _ _ _ hroom)

theorem patch_gives (tool : DeltaTool) (old diff : String) {new : String} {d : Disk}
    (hroom : Room d.files (resolve new)) :
    Gives ((patch w tool old new diff d).1 = true)
      ((patch w tool old new diff d).2.files (resolve new))
      (((d.files (resolve old)).bind fun o =>
        (d.files (resolve diff)).bind (t.patch tool o)).map some) :=
  @runTool_gives w (.patch tool old new diff) id new d _ (hset.patch _ _ _ _ _ _ hroom)

theorem patch_blocked (tool : DeltaTool) (old diff : String) {new : String} {d : Disk}
    (hroom : ¬ Room d.files (resolve new)) : (patch w tool old new diff d).1 = false :=
  hset.patchBlocked d.asked d.files tool old new diff hroom

omit hset in
theorem diffp_error {compression diff : String} {tool : Option DeltaTool} {d : Disk} {err : Rc}
    (h : (diffp w stg compression tool diff d).1 = .error err) : err ≠ eUaOk := by
  unfold diffp at h
  split at h
  · cases hfound : findTool stg.decompTool compression with
    | none =>
        rw [hfound] at h
        cases h
        decide
    | some decompdth =>
        rw [hfound] at h
        dsimp only at h
        rw [bind_run, ite_run] at h
        split at h
        · cases h
        · cases h
          decide
  · cases h

/-- The diff that is used, once the part of delta_patch before it is done. -/
theorem diffp_used (di : DiffInfo) (tool : Option DeltaTool) (diff : String) {d : Disk}
    (hroom : (inflater stg (di.compression.getD "") tool).isSome →
      Room d.files (resolve (diff ++ ".z"))) :
    match (diffp w stg (di.compression.getD "") tool diff d).1 with
    | .error err => err ≠ eUaOk ∧ diffUsed t stg di tool (d.files (resolve diff)) = none
    | .ok file => (diffp w stg (di.compression.getD "") tool diff d).2.files (resolve file) =
        diffUsed t stg di tool (d.files (resolve diff)) := by
  unfold diffp
  unfold diffUsed
  unfold inflater at hroom
  split at hroom
  · rename_i hinflate
    rw [if_pos hinflate, if_pos hinflate]
    cases hfound : findTool stg.decompTool (di.compression.getD "") with
    | none => exact ⟨eUaErr_ne_ok, rfl⟩
    | some decompdth =>
        have hgives := decompress_gives hset decompdth diff (hroom (by rw [hfound]; rfl))
        dsimp only
        rw [bind_run, ite_run]
        cases hexpected : (d.files (resolve diff)).bind (t.inflate decompdth) with
        | none =>
            rw [hexpected] at hgives
            rw [if_neg (fun hok => by simpa using hgives.1.mp hok)]
            exact ⟨eUaSys_ne_ok, hexpected⟩
        | some out =>
            rw [hexpected] at hgives
            rw [if_pos (hgives.1.mpr rfl)]
            exact (hgives.2 _ rfl).trans hexpected.symm
  · rename_i hplain
    rw [if_neg hplain, if_neg hplain]
    rfl

/-- Where the decompressed diff goes is apart from the other files of a patch. -/
structure SpareFile (old new diff : String) : Prop where
  old : resolve old ≠ resolve (diff ++ ".z")
  new : ∀ q, q <+: resolve new ∨ resolve new <+: q → q ≠ resolve (diff ++ ".z")

omit hset in
theorem SpareFile.room_iff {old new diff : String} (h : SpareFile old new diff) {m : DeltaM α}
    (hm : Touches m (· = resolve (diff ++ ".z"))) (d : Disk) :
    Room (m d).2.files (resolve new) ↔ Room d.files (resolve new) := by
  constructor
  · intro hroom q hq hne
    rw [← hm d q (h.new q hq)]
    exact hroom q hq hne
  · intro hroom q hq hne
    rw [hm d q (h.new q hq)]
    exact hroom q hq hne

omit hset in
theorem ite_sys_iff (done : Bool) : (if done then eUaOk else eUaSys) = eUaOk ↔ done = true := by
  cases done <;> decide

theorem deltaPatch_gives {di : DiffInfo} {old new diff : String} {d : Disk}
    (hspare : SpareFile old new diff) (hroom : Room d.files (resolve new))
    (hz : (inflaterOf stg di).isSome → Room d.files (resolve (diff ++ ".z"))) :
    Gives ((deltaPatch w stg di old new diff d).1 = eUaOk)
      ((deltaPatch w stg di old new diff d).2.files (resolve new))
      ((patched t stg di (d.files (resolve old)) (d.files (resolve diff))).map some) := by
  unfold deltaPatch patched
  unfold inflaterOf at hz
  cases htool : patchdth stg (di.format.getD "") with
  | error err =>
      have herr : err ≠ eUaOk := patchdth_error stg htool
      exact .fails herr
  | ok tool =>
      rw [htool] at hz
      have hused := diffp_used (d := d) stg hset di tool diff hz
      have htouches : Touches (diffp w stg (di.compression.getD "") tool diff)
          (· = resolve (diff ++ ".z")) := touches_diffp w stg _ _ fun _ => rfl
      have hold := htouches d _ hspare.old
      have hroom' := (hspare.room_iff htouches d).mpr hroom
      dsimp only
      rw [bind_run]
      generalize diffp w stg (di.compression.getD "") tool diff d = used at *
      cases hfound : used.1 with
      | error err =>
          rw [hfound] at hused
          obtain ⟨herr, hnone⟩ := hused
          cases tool with
          | none =>
              dsimp only
              rw [hnone]
              exact .fails herr
          | some tool =>
              dsimp only
              have hnothing : ((d.files (resolve old)).bind fun o =>
                  (none : Option Bytes).bind (t.patch tool o)) = none := by simp
              rw [hnone, hnothing]
              exact .fails herr
      | ok file =>
          rw [hfound] at hused
          dsimp only at hused ⊢
          cases tool with
          | none =>
              dsimp only
              rw [← hused]
              exact copyFile_gives hset file hroom'
          | some tool =>
              have hpatch := patch_gives hset tool old file hroom'
              rw [hused, hold] at hpatch
              dsimp only
              rw [bind_run, pure_run]
              refine ⟨?_, hpatch.2⟩
              exact (ite_sys_iff _).trans hpatch.1

theorem deltaPatch_blocked (di : DiffInfo) {old new diff : String} {d : Disk}
    (hspare : SpareFile old new diff) (hroom : ¬ Room d.files (resolve new)) :
    (deltaPatch w stg di old new diff d).1 ≠ eUaOk := by
  unfold deltaPatch
  cases htool : patchdth stg (di.format.getD "") with
  | error err => exact patchdth_error stg htool
  | ok tool =>
      have htouches : Touches (diffp w stg (di.compression.getD "") tool diff)
          (· = resolve (diff ++ ".z")) := touches_diffp w stg _ _ fun _ => rfl
      have hroom' := fun hlater => hroom ((hspare.room_iff htouches d).mp hlater)
      have herror := @diffp_error w stg (di.compression.getD "") diff tool d
      dsimp only
      rw [bind_run]
      generalize diffp w stg (di.compression.getD "") tool diff d = used at *
      cases hfound : used.1 with
      | error err => exact herror hfound
      | ok file =>
          cases tool with
          | none => exact copyFile_blocked hset file hroom'
          | some tool =>
              dsimp only
              rw [bind_run, pure_run]
              exact fun hok => absurd ((ite_sys_iff _).mp hok)
                (by rw [patch_blocked hset tool old file hroom']; decide)

theorem verifiedPatch_gives {di : DiffInfo} {old new diff : String} {d : Disk}
    (hspare : SpareFile old new diff) (hroom : Room d.files (resolve new))
    (hz : (inflaterOf stg di).isSome → Room d.files (resolve (diff ++ ".z"))) :
    Gives ((verifiedPatch w stg di old new diff d).1 = false)
      ((verifiedPatch w stg di old new diff d).2.files (resolve new))
      ((checked w di.sha256New ((checked w di.sha256Old (d.files (resolve old))).bind
        fun o => patched t stg di (some o) (d.files (resolve diff)))).map some) := by
  have hpatch := deltaPatch_gives stg hset hspare hroom hz
  have hverify := verifyFile_iff (w := w) old di.sha256Old d
  unfold verifiedPatch
  rw [bind_run, ite_run, verifyFile_disk]
  cases hchecked : checked w di.sha256Old (d.files (resolve old)) with
  | none =>
      rw [if_pos (fun hok => by simpa [hchecked] using hverify.mp hok)]
      exact .fails (by simp)
  | some bytes =>
      have hold : d.files (resolve old) = some bytes := (Option.filter_eq_some_iff.mp hchecked).1
      rw [hold] at hpatch
      rw [if_neg (not_not.mpr (hverify.mpr (by simp [hchecked]))), bind_run, ite_run,
        Option.bind_some]
      generalize deltaPatch w stg di old new diff d = after at *
      cases hresult : patched t stg di (some bytes) (d.files (resolve diff)) with
      | none =>
          rw [hresult] at hpatch
          rw [if_pos (fun hok => by simpa using hpatch.1.mp hok)]
          exact .fails (by simp)
      | some result =>
          rw [hresult] at hpatch
          rw [if_neg (not_not.mpr (hpatch.1.mpr rfl)), bind_run, pure_run, verifyFile_disk]
          have hnew : after.2.files (resolve new) = some result := hpatch.2 _ rfl
          have hcheck := verifyFile_iff (w := w) new di.sha256New after.2
          rw [hnew] at hcheck
          cases hsha : checked w di.sha256New (some result) with
          | none =>
              rw [hsha] at hcheck
              exact .fails (by simpa using hcheck)
          | some result' =>
              rw [hsha] at hcheck
              have hsame : some result = some result' := (Option.filter_eq_some_iff.mp hsha).1
              exact .succeeds (by simpa using hcheck) (hnew.trans hsame)

theorem verifiedPatch_blocked {di : DiffInfo} {old new diff : String} {d : Disk}
    (hspare : SpareFile old new diff) (hroom : ¬ Room d.files (resolve new)) :
    (verifiedPatch w stg di old new diff d).1 = true := by
  have hpatch := deltaPatch_blocked stg hset di hspare hroom
  unfold verifiedPatch
  rw [bind_run, ite_run, verifyFile_disk]
  split
  · rfl
  · rw [bind_run, ite_run, if_pos hpatch]
    rfl

/-- An entry's type makes of the input files what `typeResult` says. -/
theorem applyType_gives {di : DiffInfo} {old new diff : String} {d : Disk}
    (hspare : SpareFile old new diff) (hbefore : d.files (resolve new) = none)
    (hroom : di.type ≠ .removed → Room d.files (resolve new))
    (hz : di.type = .changed → (inflaterOf stg di).isSome → Room d.files (resolve (diff ++ ".z"))) :
    Gives ((applyType w stg di old new diff d).1 = false)
      ((applyType w stg di old new diff d).2.files (resolve new))
      (typeResult w t stg di (d.files (resolve old)) (d.files (resolve diff))) := by
  unfold applyType typeResult
  cases htype : di.type with
  | added => exact verifiedCopy_gives hset (hroom (by simp [htype]))
  | unchanged => exact verifiedCopy_gives hset (hroom (by simp [htype]))
  | removed => exact .succeeds rfl hbefore
  | changed =>
      have hroom' := hroom (by simp [htype])
      dsimp only
      split
      · have hpatch := deltaPatch_gives stg hset hspare hroom' (hz htype)
        rw [bind_run]
        exact ⟨by simpa using hpatch.1, hpatch.2⟩
      · exact verifiedPatch_gives stg hset hspare hroom' (hz htype)

theorem applyType_blocked {di : DiffInfo} {old new diff : String} {d : Disk}
    (hspare : SpareFile old new diff) (htype : di.type ≠ .removed)
    (hroom : ¬ Room d.files (resolve new)) :
    (applyType w stg di old new diff d).1 = true := by
  unfold applyType
  cases hcase : di.type with
  | added => exact verifiedCopy_blocked hset hroom
  | unchanged => exact verifiedCopy_blocked hset hroom
  | removed => exact absurd hcase htype
  | changed =>
      dsimp only
      split
      · rw [bind_run]
        simpa using deltaPatch_blocked stg hset di hspare hroom
      · exact verifiedPatch_blocked stg hset hspare hroom

theorem mksquash_gives (dir packed options : String) (d : Disk) :
    Gives ((mksquash w dir packed options d).1 = true)
      ((mksquash w dir packed options d).2.files (resolve packed))
      ((t.mksquash dir packed options (treeAt d.files (resolve dir))).map some) :=
  @runTool_gives w (.mksquash dir packed options) id packed d _ (hset.mksquash _ _ _ _ _)

theorem unsquash_gives (dir file : String) (d : Disk) :
    ((unsquash w dir file d).1 = true ↔
      ((d.files (resolve file)).bind (t.unsquash dir)).isSome) ∧
    ∀ tree, (d.files (resolve file)).bind (t.unsquash dir) = some tree →
      treeAt (unsquash w dir file d).2.files (resolve dir) = tree := by
  have hagrees := hset.unsquash d.asked d.files dir file
  unfold unsquash ask
  simp only [bind_run, pure_run]
  cases hexpected : (d.files (resolve file)).bind (t.unsquash dir) with
  | none =>
      rw [hexpected] at hagrees
      have hfailed : (w.answer d.asked d.files (.unsquash dir file)).1 = false := hagrees
      exact ⟨by simp [hfailed], fun tree htree => nomatch htree⟩
  | some expected =>
      rw [hexpected] at hagrees
      have hdone : w.answer d.asked d.files (.unsquash dir file) = (true, expected) := hagrees
      refine ⟨by simp [hdone], fun tree htree => ?_⟩
      rw [hdone, ← Option.some.inj htree]
      funext q
      change replaceTree d.files (resolve dir) expected (resolve dir ++ q) = expected q
      unfold replaceTree
      rw [if_pos (List.prefix_append _ _), List.drop_left]

theorem squashOptions_run {squashFile pkgDir : String} (di : DiffInfo) (repackaging : Bool)
    {d : Disk} (hout : ¬ resolve (squashDir stg pkgDir) <+: resolve squashFile) :
    (squashOptions w stg squashFile di pkgDir repackaging d).1 =
      if repackaging then some (printed di.mkSquashFsOptions)
      else (d.files (resolve squashFile)).bind (optionsFor t di false) := by
  unfold squashOptions
  split
  · rfl
  · have hkept : (rmdirp (squashDir stg pkgDir) d).2.files (resolve squashFile) =
        d.files (resolve squashFile) := removeTree_other hout
    rw [bind_run, bind_run, pure_run]
    unfold ask
    dsimp only
    rw [hset.mkfsTime, hkept]
    cases d.files (resolve squashFile) <;> rfl

omit hset in
theorem imageOf_some (pkgDir : String) (di : DiffInfo) (repackaging : Bool) (bytes : Bytes) :
    imageOf t stg pkgDir di repackaging (some bytes) =
      (optionsFor t di repackaging bytes).bind fun options =>
        (t.unsquash (joinAll (squashDir stg pkgDir)
          [if repackaging then "test1.bin" else "test.bin"]) bytes).bind fun tree =>
          t.mksquash (joinAll (squashDir stg pkgDir)
            [if repackaging then "test1.bin" else "test.bin"])
            (joinAll (squashDir stg pkgDir)
              [replaceAll (printed (if repackaging then di.name else di.oldName)) '/' '%'])
            options tree := rfl

/-- The packed image, on a disk that has changed only where images are unpacked. -/
theorem processSquashfsImage_image {squashFile pkgDir : String} {di : DiffInfo}
    (repackaging : Bool) {d : Disk} (hdi : PlainEntry di)
    (hout : ¬ resolve (squashDir stg pkgDir) <+: resolve squashFile) :
    let unsqCmd := joinAll (squashDir stg pkgDir) [if repackaging then "test1.bin" else "test.bin"]
    let packed := joinAll (squashDir stg pkgDir)
      [replaceAll (printed (if repackaging then di.name else di.oldName)) '/' '%']
    match imageOf t stg pkgDir di repackaging (d.files (resolve squashFile)) with
    | none => (processSquashfsImage w stg squashFile di pkgDir repackaging d).1 ≠ eUaOk
    | some image => unsqCmd ≠ packed ∧ ∃ d' : Disk,
        (∀ q, ¬ resolve (squashDir stg pkgDir) <+: q → d'.files q = d.files q) ∧
        d'.files (resolve packed) = some image ∧
        processSquashfsImage w stg squashFile di pkgDir repackaging d =
          (do let status ← finishImage w squashFile packed di repackaging
              rmdirp unsqCmd
              pure status : DeltaM Rc) d' := by
  intro unsqCmd packed
  have hunsq : Plain (if repackaging then "test1.bin" else "test.bin") := by
    cases repackaging <;> decide
  have hoptions := squashOptions_run (d := d) stg hset di repackaging hout
  have hkeptOptions : ∀ q, ¬ resolve (squashDir stg pkgDir) <+: q →
      (squashOptions w stg squashFile di pkgDir repackaging d).2.files q = d.files q :=
    fun q hq => (Touches.ite (.pure _) ((touches_rmdirp fun _ h => h).bind fun _ =>
      (touches_ask w _).bind fun _ => .pure _)) d q hq
  unfold processSquashfsImage
  rw [bind_run]
  generalize squashOptions w stg squashFile di pkgDir repackaging d = prepared at *
  have hcontent := hkeptOptions _ hout
  have hunsquash := unsquash_gives hset unsqCmd squashFile prepared.2
  have hunsquashKept := touches_unsquash w (R := (resolve (squashDir stg pkgDir) <+: ·))
    squashFile (fun q => below_joinAll hunsq) prepared.2
  rw [hcontent] at hunsquash
  cases hfile : d.files (resolve squashFile) with
  | none =>
      rw [hfile] at hoptions hunsquash
      change (_ : Rc × Disk).1 ≠ eUaOk
      cases hprepared : prepared.1 with
      | none => exact (by decide : (-1 : Rc) ≠ eUaOk)
      | some options =>
          dsimp only
          rw [bind_run, ite_run, if_neg (fun hdone => by simpa using hunsquash.1.mp hdone)]
          exact eUaSys_ne_ok
  | some bytes =>
      have hprepared : prepared.1 = optionsFor t di repackaging bytes := by
        rw [hoptions, hfile]
        cases repackaging <;> rfl
      rw [hfile] at hunsquash
      rw [imageOf_some, hprepared]
      cases optionsFor t di repackaging bytes with
      | none => exact (by decide : (-1 : Rc) ≠ eUaOk)
      | some options =>
          rw [Option.bind_some] at hunsquash ⊢
          cases htree : t.unsquash unsqCmd bytes with
          | none =>
              rw [htree] at hunsquash
              change (_ : Rc × Disk).1 ≠ eUaOk
              dsimp only
              rw [bind_run, ite_run, if_neg (fun hdone => by simpa using hunsquash.1.mp hdone)]
              exact eUaSys_ne_ok
          | some tree =>
              rw [htree] at hunsquash
              have hmksquash := mksquash_gives hset unsqCmd packed options
                (unsquash w unsqCmd squashFile prepared.2).2
              rw [hunsquash.2 tree rfl] at hmksquash
              have hmksquashKept : Touches (mksquash w unsqCmd packed options)
                  (resolve (squashDir stg pkgDir) <+: ·) :=
                touches_runTool w
                  (below_joinAll (hdi.plain_printed repackaging) (List.prefix_refl _))
              rw [Option.bind_some]
              cases himage : t.mksquash unsqCmd packed options tree with
              | none =>
                  rw [himage] at hmksquash
                  change (_ : Rc × Disk).1 ≠ eUaOk
                  dsimp only
                  rw [bind_run, ite_run, if_pos (hunsquash.1.mpr rfl), bind_run, ite_run,
                    if_neg (fun hdone => by simpa using hmksquash.1.mp hdone)]
                  exact eUaSys_ne_ok
              | some image =>
                  rw [himage] at hmksquash
                  refine ⟨?_, (mksquash w unsqCmd packed options
                    (unsquash w unsqCmd squashFile prepared.2).2).2, fun q hq => ?_,
                    hmksquash.2 _ rfl, ?_⟩
                  · intro hself
                    rw [← hself, hset.mksquashSelf] at himage
                    cases himage
                  · rw [hmksquashKept _ q hq, hunsquashKept q hq, hkeptOptions q hq]
                  · dsimp only
                    rw [bind_run, ite_run, if_pos (hunsquash.1.mpr rfl), bind_run, ite_run,
                      if_pos (hmksquash.1.mpr rfl)]

omit hset in
/-- The packed image lies beside the directory it is made from. -/
theorem packed_beside {pkgDir part name : String} (hpart : components part = [part.toList])
    (hplain : Plain part) (hname : Plain (replaceAll name '/' '%'))
    (hne : joinAll (squashDir stg pkgDir) [part] ≠
      joinAll (squashDir stg pkgDir) [replaceAll name '/' '%']) :
    ¬ resolve (joinAll (squashDir stg pkgDir) [part]) <+:
      resolve (joinAll (squashDir stg pkgDir) [replaceAll name '/' '%']) := by
  rw [resolve_joinAll_one hplain, resolve_joinAll_one hname, hpart, components_replaceAll]
  intro hbelow
  have hsame := hbelow.eq_of_length (by simp)
  apply hne
  rw [String.toList_inj.mp (List.singleton_inj.mp (List.append_cancel_left hsame))]

/-- Unpacking an image leaves the packed image of the old file. -/
theorem unpackImage_gives {squashFile pkgDir : String} {di : DiffInfo} {d : Disk}
    (hdi : PlainEntry di) (hout : ¬ resolve (squashDir stg pkgDir) <+: resolve squashFile) :
    Gives ((processSquashfsImage w stg squashFile di pkgDir false d).1 = eUaOk)
      ((processSquashfsImage w stg squashFile di pkgDir false d).2.files
        (resolve (joinAll (squashDir stg pkgDir) [replaceAll (printed di.oldName) '/' '%'])))
      ((imageOf t stg pkgDir di false (d.files (resolve squashFile))).map some) := by
  have himage := processSquashfsImage_image (w := w) (t := t) (d := d) stg hset
    false hdi hout
  dsimp only at himage
  cases hfound : imageOf t stg pkgDir di false (d.files (resolve squashFile)) with
  | none =>
      rw [hfound] at himage
      exact .fails himage
  | some image =>
      rw [hfound] at himage
      obtain ⟨hne, d', _, hpacked, hrun⟩ := himage
      simp only [Bool.false_eq_true, if_false] at hne hpacked hrun
      have hplain : Plain (replaceAll (printed di.oldName) '/' '%') := hdi.plain_printed false
      have hbeside := packed_beside stg (by decide) (by decide) hplain hne
      rw [hrun]
      unfold finishImage
      simp only [Bool.false_eq_true, if_false, bind_run, pure_run]
      refine .succeeds trivial ?_
      rw [rmdirp_other _ hbeside]
      exact hpacked

theorem replaceImage_gives {squashFile packed : String} (di : DiffInfo) {d : Disk} {image : Bytes}
    (hthere : (d.files (resolve squashFile)).isSome) (hne : resolve packed ≠ resolve squashFile)
    (hpacked : d.files (resolve packed) = some image) (hroom : Room d.files (resolve squashFile)) :
    Gives ((replaceImage w squashFile packed di d).1 = eUaOk)
      ((replaceImage w squashFile packed di d).2.files (resolve squashFile))
      ((checked w di.sha256New (some image)).map some) := by
  have hremoved : (removeFile squashFile d).1 = eUaOk := by
    unfold removeFile fileAt
    rw [bind_run, bind_run, pure_run]
    exact if_pos hthere
  have hkept : ∀ q, q ≠ resolve squashFile → (removeFile squashFile d).2.files q = d.files q :=
    fun q hq => touches_removeFile (R := (· = resolve squashFile)) rfl d q hq
  have hroom' : Room (removeFile squashFile d).2.files (resolve squashFile) := by
    intro q hq hother
    rw [hkept q hother]
    exact hroom q hq hother
  have hcopy := copyFile_gives hset packed hroom'
  rw [hkept _ hne, hpacked] at hcopy
  unfold replaceImage
  simp only [bind_run, pure_run, verifyFile_disk]
  rw [hremoved]
  generalize copyFile w packed squashFile (removeFile squashFile d).2 = copied at *
  have hcopied : copied.2.files (resolve squashFile) = some image := hcopy.2 _ rfl
  have hverify := verifyFile_iff (w := w) squashFile di.sha256New copied.2
  rw [hcopied] at hverify
  cases hsha : checked w di.sha256New (some image) with
  | none =>
      rw [hsha] at hverify
      rw [if_pos (fun hok => by simpa using hverify.mp hok)]
      exact .fails eUaErr_ne_ok
  | some result =>
      rw [hsha] at hverify
      have hsame : some image = some result := (Option.filter_eq_some_iff.mp hsha).1
      rw [if_neg (not_not.mpr (hverify.mpr rfl))]
      exact .succeeds (by decide) (hcopied.trans hsame)

/-- Repacking leaves the new image in the place of the file. -/
theorem repackImage_gives {newFile pkgDir : String} {di : DiffInfo} {d : Disk}
    (hdi : PlainEntry di) (hout : ¬ resolve (squashDir stg pkgDir) <+: resolve newFile)
    (happart : ∀ q, q <+: resolve newFile ∨ resolve newFile <+: q →
      ¬ resolve (squashDir stg pkgDir) <+: q)
    (hroom : Room d.files (resolve newFile)) :
    Gives ((processSquashfsImage w stg newFile di pkgDir true d).1 = eUaOk)
      ((processSquashfsImage w stg newFile di pkgDir true d).2.files (resolve newFile))
      ((checked w di.sha256New (imageOf t stg pkgDir di true (d.files (resolve newFile)))).map
        some) := by
  have himage := processSquashfsImage_image (w := w) (t := t) (d := d) stg hset
    true hdi hout
  dsimp only at himage
  cases hfound : imageOf t stg pkgDir di true (d.files (resolve newFile)) with
  | none =>
      rw [hfound] at himage
      exact .fails himage
  | some image =>
      rw [hfound] at himage
      obtain ⟨hne, d', hkept, hpacked, hrun⟩ := himage
      have hthere : (d.files (resolve newFile)).isSome := by
        cases hfile : d.files (resolve newFile) with
        | none =>
            rw [hfile] at hfound
            cases hfound
        | some bytes => rfl
      have hroom' : Room d'.files (resolve newFile) := by
        intro q hq hother
        rw [hkept q (happart q hq)]
        exact hroom q hq hother
      have hpackedBelow : resolve (squashDir stg pkgDir) <+:
          resolve (joinAll (squashDir stg pkgDir) [replaceAll (printed di.name) '/' '%']) := by
        have hplain : Plain (replaceAll (printed di.name) '/' '%') := hdi.plain_printed true
        rw [resolve_joinAll_one hplain]
        exact List.prefix_append _ _
      have hapart : resolve (joinAll (squashDir stg pkgDir)
          [replaceAll (printed di.name) '/' '%']) ≠ resolve newFile := by
        intro hsame
        rw [hsame] at hpackedBelow
        exact hout hpackedBelow
      have hthere' : (d'.files (resolve newFile)).isSome := by
        rw [hkept _ hout]
        exact hthere
      have hreplaced := replaceImage_gives hset di hthere' hapart hpacked hroom'
      have hout' :
          ¬ resolve (joinAll (squashDir stg pkgDir) ["test1.bin"]) <+: resolve newFile := by
        rw [resolve_joinAll_one (by decide)]
        exact fun hbelow => hout (List.IsPrefix.trans (List.prefix_append _ _) hbelow)
      rw [hrun]
      unfold finishImage
      simp only [if_true, bind_run, pure_run]
      refine ⟨hreplaced.1, fun r hr => ?_⟩
      rw [rmdirp_other _ hout']
      exact hreplaced.2 r hr

/-- The decompressed diff stays where it was put. -/
theorem deltaPatch_inflated {di : DiffInfo} {old new diff : String} {d : Disk} {dth : DeltaTool}
    (hspare : SpareFile old new diff) (hinflater : inflaterOf stg di = some dth)
    (hz : Room d.files (resolve (diff ++ ".z")))
    (h : (deltaPatch w stg di old new diff d).1 = eUaOk) :
    (deltaPatch w stg di old new diff d).2.files (resolve (diff ++ ".z")) =
      (d.files (resolve diff)).bind (t.inflate dth) := by
  have hne : ¬ resolve (diff ++ ".z") = resolve new := fun hsame =>
    hspare.new _ (.inl (List.prefix_refl _)) hsame.symm
  unfold deltaPatch at h ⊢
  unfold inflaterOf at hinflater
  cases htool : patchdth stg (di.format.getD "") with
  | error err =>
      rw [htool] at hinflater
      cases hinflater
  | ok tool =>
      rw [htool] at hinflater h
      dsimp only at hinflater h ⊢
      have hread : (diffp w stg (di.compression.getD "") tool diff d).1 = .ok (diff ++ ".z") →
          (diffp w stg (di.compression.getD "") tool diff d).2.files (resolve (diff ++ ".z")) =
            (d.files (resolve diff)).bind (t.inflate dth) := by
        have hused := diffp_used (d := d) stg hset di tool diff fun _ => hz
        intro hok
        rw [hok] at hused
        refine hused.trans ?_
        unfold diffUsed
        unfold inflater at hinflater
        split at hinflater
        · rename_i hinflate
          rw [if_pos hinflate, hinflater, Option.bind_some]
        · cases hinflater
      have hfile : ∀ file, (diffp w stg (di.compression.getD "") tool diff d).1 = .ok file →
          file = diff ++ ".z" := by
        unfold inflater at hinflater
        unfold diffp
        split at hinflater
        · rename_i hinflate
          rw [if_pos hinflate, hinflater]
          dsimp only
          rw [bind_run, ite_run]
          intro file
          split
          · intro heq
            cases heq
            rfl
          · intro heq
            cases heq
        · cases hinflater
      have herror := @diffp_error w stg (di.compression.getD "") diff tool d
      rw [bind_run] at h ⊢
      generalize diffp w stg (di.compression.getD "") tool diff d = used at *
      cases hfound : used.1 with
      | error err =>
          rw [hfound] at h
          exact absurd h (herror hfound)
      | ok file =>
          rw [hfile file hfound] at hfound
          rw [← hread hfound]
          cases tool with
          | none => exact touches_copyFile (R := (· = resolve new)) w rfl used.2 _ hne
          | some tool =>
              exact touches_runTool (R := (· = resolve new)) w rfl used.2 _ hne

theorem applyType_inflated {di : DiffInfo} {old new diff : String} {d : Disk} {dth : DeltaTool}
    (hspare : SpareFile old new diff) (htype : di.type = .changed)
    (hinflater : inflaterOf stg di = some dth) (hz : Room d.files (resolve (diff ++ ".z")))
    (h : (applyType w stg di old new diff d).1 = false) :
    (applyType w stg di old new diff d).2.files (resolve (diff ++ ".z")) =
      (d.files (resolve diff)).bind (t.inflate dth) := by
  have hpatch := deltaPatch_inflated stg hset hspare hinflater hz
  unfold applyType at h ⊢
  rw [htype] at h ⊢
  dsimp only at h ⊢
  split at h
  · rename_i hnested
    rw [if_pos hnested]
    rw [bind_run] at h ⊢
    exact hpatch (by simpa using h)
  · rename_i hnested
    rw [if_neg hnested]
    unfold verifiedPatch at h ⊢
    rw [bind_run, ite_run, verifyFile_disk] at h ⊢
    split at h
    · cases h
    rename_i hold
    rw [if_neg hold]
    rw [bind_run, ite_run] at h ⊢
    split at h
    · cases h
    rename_i hpatched
    rw [if_neg hpatched, bind_run, pure_run, verifyFile_disk]
    exact hpatch (not_not.mp hpatched)

end Operations

section Entries

variable {w : World} {t : Tools} {stg : DeltaStg} {dirs : Dirs} {di : DiffInfo}

theorem diffz_ne (hdi : PlainEntry di) :
    resolve (diffFileOf dirs di ++ ".z") ≠ resolve (diffFileOf dirs di) := by
  obtain ⟨name, hname, hplain⟩ := hdi.name
  unfold diffFileOf
  rw [hname, joinParts_one, join_append, resolve_join_plain (plain_append_z hplain),
    resolve_join_plain hplain]
  intro hsame
  have hz : name ++ ".z" = name := components_injective (List.append_cancel_left hsame)
  have hlength := congrArg String.length hz
  rw [String.length_append] at hlength
  have : ".z".length = 2 := by decide
  omega

theorem spareFile_of_entry (hdirs : DirsApart stg dirs) (hdi : PlainEntry di) :
    SpareFile (oldFileOf stg dirs di) (joinParts dirs.newPath [di.name]) (diffFileOf dirs di) := by
  have hz := hdi.diffz_below dirs.diffPath
  constructor
  · intro hsame
    change resolve dirs.diffPath <+: resolve (diffFileOf dirs di ++ ".z") at hz
    rw [← hsame] at hz
    unfold oldFileOf at hz
    split at hz
    · exact hdirs.diffArt _ hz (hdi.packed_below stg dirs.pkgDir)
    · exact hdirs.oldDiff _ (hdi.oldFile_below dirs.oldPath) hz
  · intro q hq hsame
    subst hsame
    exact hdirs.diffNew.symm.in_line (hdi.file_below dirs.newPath) hq hz

/-- Room for a new file depends on the new tree and the directories above it only. -/
theorem room_newFile_iff (hdirs : DirsApart stg dirs) (hdi : PlainEntry di) {α : Type}
    {m : DeltaM α} (hm : Touches m (fun q => WorkPath stg dirs q ∨ q = newFileOf dirs di))
    (d : Disk) : Room (m d).2.files (newFileOf dirs di) ↔ Room d.files (newFileOf dirs di) := by
  have hbelow := hdi.file_below dirs.newPath
  have hsame : ∀ q, q <+: newFileOf dirs di ∨ newFileOf dirs di <+: q → q ≠ newFileOf dirs di →
      (m d).2.files q = d.files q := by
    intro q hq hne
    apply hm
    rintro ((hold | hdiff | hart) | hown)
    · exact hdirs.oldNew.symm.in_line hbelow hq hold
    · exact hdirs.diffNew.symm.in_line hbelow hq hdiff
    · exact hdirs.newArt.in_line hbelow hq hart
    · exact hne hown
  constructor
  · intro hroom q hq hne
    rw [← hsame q hq hne]
    exact hroom q hq hne
  · intro hroom q hq hne
    rw [hsame q hq hne]
    exact hroom q hq hne

/-- Unpacking an image leaves the delta package and the new tree as they are. -/
theorem unpack_keeps (hdirs : DirsApart stg dirs) (hdi : PlainEntry di) (d : Disk) :
    let after := (processNested w stg (originalOf dirs di) di dirs.pkgDir false d).2
    after.files (newFileOf dirs di) = d.files (newFileOf dirs di) ∧
    after.files (resolve (diffFileOf dirs di)) = d.files (resolve (diffFileOf dirs di)) ∧
    (Room after.files (newFileOf dirs di) ↔ Room d.files (newFileOf dirs di)) ∧
    (Room d.files (resolve (diffFileOf dirs di ++ ".z")) →
      Room after.files (resolve (diffFileOf dirs di ++ ".z"))) := by
  have hkept : Touches (processNested w stg (originalOf dirs di) di dirs.pkgDir false)
      (resolve (squashDir stg dirs.pkgDir) <+: ·) :=
    touches_processNested w stg _ _ hdi (fun _ hq => hq) fun h => absurd h Bool.false_ne_true
  refine ⟨hkept d _ (hdirs.newArt _ (hdi.file_below dirs.newPath)),
    hkept d _ (hdirs.diffArt _ (hdi.file_below dirs.diffPath)),
    room_newFile_iff hdirs hdi (hkept.mono fun q hq => .inl (.inr (.inr hq))) d, ?_⟩
  intro hspace q hq hne
  rw [hkept d q (hdirs.diffArt.in_line (hdi.diffz_below dirs.diffPath) hq)]
  exact hspace q hq hne

/-- Removing the inputs leaves the new tree as it is. -/
theorem clear_keeps (hdirs : DirsApart stg dirs) (hdi : PlainEntry di) (d : Disk) :
    let after := (removeFile (diffFileOf dirs di) (removeFile (oldFileOf stg dirs di) d).2).2
    after.files (newFileOf dirs di) = d.files (newFileOf dirs di) ∧
    (Room after.files (newFileOf dirs di) ↔ Room d.files (newFileOf dirs di)) := by
  have hold : Touches (removeFile (oldFileOf stg dirs di)) (WorkPath stg dirs) :=
    touches_removeFile (hdi.oldFileOf_work stg dirs)
  have hdiff : Touches (removeFile (diffFileOf dirs di)) (WorkPath stg dirs) :=
    touches_removeFile (.inr (.inl (hdi.file_below dirs.diffPath)))
  have hnew := newFileOf_not_work stg hdirs hdi
  refine ⟨(hdiff _ _ hnew).trans (hold _ _ hnew), ?_⟩
  exact (room_newFile_iff hdirs hdi (hdiff.mono fun _ hq => .inl hq) _).trans
    (room_newFile_iff hdirs hdi (hold.mono fun _ hq => .inl hq) _)

/-- The old file an entry works on, after an image has been unpacked. -/
theorem processNested_gives (hset : Settled w t) (hdirs : DirsApart stg dirs) (hdi : PlainEntry di)
    (d : Disk) :
    Gives ((processNested w stg (originalOf dirs di) di dirs.pkgDir false d).1 = eUaOk)
      ((processNested w stg (originalOf dirs di) di dirs.pkgDir false d).2.files
        (resolve (oldFileOf stg dirs di)))
      (if di.nested then (imageOf t stg dirs.pkgDir di false
          (d.files (resolve (originalOf dirs di)))).map some
        else some (d.files (resolve (originalOf dirs di)))) := by
  unfold processNested oldFileOf
  split
  · have himage := unpackImage_gives (w := w) (t := t) (d := d) stg hset hdi
      (hdirs.oldArt _ (hdi.oldFile_below dirs.oldPath))
    have hpath : resolve (joinAll (squashDir stg dirs.pkgDir)
          [replaceAll (printed di.oldName) '/' '%']) = resolve (joinAll stg.cacheDir
        ["art", dirs.pkgDir, replaceAll (printed di.oldName) '/' '%']) := by
      unfold squashDir
      simp only [resolve_joinAll, List.foldl_cons, List.foldl_nil]
    rw [hpath] at himage
    exact himage
  · exact .succeeds rfl rfl

theorem ite_err_iff (c : Prop) [Decidable c] : (if c then eUaErr else eUaOk) = eUaOk ↔ ¬ c := by
  split
  · rename_i hc
    exact ⟨fun h => absurd h (by decide), fun h => absurd hc h⟩
  · rename_i hc
    exact ⟨fun _ => hc, fun _ => rfl⟩

/-- The code leaves the result of the entry as it follows from its two input files. -/
theorem reconstructEntry_gives (hset : Settled w t) (hdirs : DirsApart stg dirs)
    (hdi : PlainEntry di) {d : Disk} (hbefore : d.files (newFileOf dirs di) = none)
    (hroom : ¬ (di.type = .removed ∧ di.nested = false) → Room d.files (newFileOf dirs di))
    (hz : di.type = .changed → (inflaterOf stg di).isSome →
      Room d.files (resolve (diffFileOf dirs di ++ ".z"))) :
    Gives ((reconstructEntry w stg dirs di d).1 = eUaOk)
      ((reconstructEntry w stg dirs di d).2.files (newFileOf dirs di))
      (entryResult w t stg dirs.pkgDir di (d.files (resolve (originalOf dirs di)))
        (d.files (resolve (diffFileOf dirs di)))) := by
  obtain ⟨hnew, hdiff, hroomUnpacked, hzUnpacked⟩ := unpack_keeps (w := w) hdirs hdi d
  have hunpack := processNested_gives hset hdirs hdi d
  rw [reconstructEntry_run]
  dsimp only
  generalize processNested w stg (originalOf dirs di) di dirs.pkgDir false d = unpacked at *
  have happly : (di.type ≠ .removed → Room unpacked.2.files (newFileOf dirs di)) →
      Gives ((applyType w stg di (oldFileOf stg dirs di) (joinParts dirs.newPath [di.name])
          (diffFileOf dirs di) unpacked.2).1 = false)
        ((applyType w stg di (oldFileOf stg dirs di) (joinParts dirs.newPath [di.name])
          (diffFileOf dirs di) unpacked.2).2.files (newFileOf dirs di))
        (typeResult w t stg di (unpacked.2.files (resolve (oldFileOf stg dirs di)))
          (unpacked.2.files (resolve (diffFileOf dirs di)))) :=
    fun hspace => applyType_gives stg hset (spareFile_of_entry hdirs hdi) (hnew.trans hbefore)
      hspace fun htype hinflate => hzUnpacked (hz htype hinflate)
  have happlyTouches : Touches (applyType w stg di (oldFileOf stg dirs di)
      (joinParts dirs.newPath [di.name]) (diffFileOf dirs di))
      (fun q => WorkPath stg dirs q ∨ q = newFileOf dirs di) :=
    touches_applyType w stg di (.inr rfl)
      fun _ _ => .inl (.inr (.inl (hdi.diffz_below dirs.diffPath)))
  have hroomApplied := room_newFile_iff hdirs hdi happlyTouches unpacked.2
  rw [hdiff] at happly
  generalize applyType w stg di (oldFileOf stg dirs di) (joinParts dirs.newPath [di.name])
    (diffFileOf dirs di) unpacked.2 = applied at *
  obtain ⟨hcleared, hroomCleared⟩ := clear_keeps hdirs hdi applied.2
  generalize removeFile (diffFileOf dirs di) (removeFile (oldFileOf stg dirs di) applied.2).2 =
    cleared at *
  have hspace : di.type ≠ .removed → Room unpacked.2.files (newFileOf dirs di) :=
    fun htype => hroomUnpacked.mpr (hroom fun hboth => htype hboth.1)
  have happlied := happly hspace
  unfold entryResult
  cases hnested : di.nested with
  | false =>
      rw [hnested, if_neg Bool.false_ne_true] at hunpack
      have hunpacked : unpacked.1 = eUaOk := hunpack.1.mpr rfl
      rw [hunpack.2 _ rfl] at happlied
      rw [processNested_plain w stg hnested, pure_run, if_neg Bool.false_ne_true]
      refine ⟨?_, fun r hr => hcleared.trans (happlied.2 r hr)⟩
      rw [ite_err_iff, ← happlied.1]
      simp [hunpacked]
  | true =>
      rw [hnested, if_pos rfl] at hunpack
      rw [if_pos rfl]
      cases himage :
          imageOf t stg dirs.pkgDir di false (d.files (resolve (originalOf dirs di))) with
      | none =>
          rw [himage] at hunpack
          refine .fails fun hok => ?_
          exact (ite_err_iff _).mp hok (.inl fun hunpacked => by simpa using hunpack.1.mp hunpacked)
      | some image =>
          rw [himage] at hunpack
          have hunpacked : unpacked.1 = eUaOk := hunpack.1.mpr rfl
          rw [hunpack.2 _ rfl] at happlied
          rw [Option.bind_some]
          cases hresult : typeResult w t stg di (some image)
              (d.files (resolve (diffFileOf dirs di))) with
          | none =>
              rw [hresult] at happlied
              refine .fails fun hok => ?_
              have hdone : ¬ applied.1 = true := fun hfailed =>
                (ite_err_iff _).mp hok (.inr (.inl hfailed))
              simpa using happlied.1.mp (by simpa using hdone)
          | some new =>
              rw [hresult] at happlied
              have hdone : applied.1 = false := happlied.1.mpr rfl
              have hnewFile : cleared.2.files (newFileOf dirs di) = new :=
                hcleared.trans (happlied.2 _ rfl)
              have hroom' : Room cleared.2.files (newFileOf dirs di) :=
                hroomCleared.mpr (hroomApplied.mpr (hroomUnpacked.mpr
                  (hroom fun hboth => absurd hboth.2 (by simp [hnested]))))
              have hrepack := repackImage_gives stg hset hdi
                (hdirs.newArt _ (hdi.file_below dirs.newPath))
                (fun q hq => hdirs.newArt.in_line (hdi.file_below dirs.newPath) hq) hroom'
              change Gives _ _ ((checked w di.sha256New (imageOf t stg dirs.pkgDir di true
                (cleared.2.files (newFileOf dirs di)))).map some) at hrepack
              rw [hnewFile] at hrepack
              rw [processNested_nested w stg hnested, Option.bind_some]
              refine ⟨?_, hrepack.2⟩
              rw [ite_err_iff, ← hrepack.1]
              simp [hunpacked, hdone]

/-- The inputs of an entry that succeeds are gone, apart from an image's old file. -/
theorem reconstructEntry_clears (hdirs : DirsApart stg dirs) (hdi : PlainEntry di) (d : Disk) :
    (reconstructEntry w stg dirs di d).2.files (resolve (diffFileOf dirs di)) = none ∧
    (di.nested = false →
      (reconstructEntry w stg dirs di d).2.files (resolve (originalOf dirs di)) = none) := by
  have hpack : Touches (processNested w stg (joinParts dirs.newPath [di.name]) di dirs.pkgDir true)
      (fun q => resolve (squashDir stg dirs.pkgDir) <+: q ∨ resolve dirs.newPath <+: q) :=
    touches_processNested w stg _ _ hdi (fun _ hq => .inl hq)
      fun _ => .inr (hdi.file_below dirs.newPath)
  have hdiffBelow : resolve dirs.diffPath <+: resolve (diffFileOf dirs di) :=
    hdi.file_below dirs.diffPath
  have holdBelow : resolve dirs.oldPath <+: resolve (originalOf dirs di) :=
    hdi.oldFile_below dirs.oldPath
  have hremoved : ∀ (path : String) (d : Disk),
      (removeFile path d).2.files (resolve path) = none := fun path d => write_self _ _ _
  rw [reconstructEntry_run]
  dsimp only
  constructor
  · rw [hpack]
    · exact hremoved _ _
    · rintro (hart | hnew)
      · exact hdirs.diffArt _ hdiffBelow hart
      · exact hdirs.diffNew _ hdiffBelow hnew
  · intro hnested
    have hsame : oldFileOf stg dirs di = originalOf dirs di := if_neg (by simp [hnested])
    have hkept : Touches (removeFile (diffFileOf dirs di)) (resolve dirs.diffPath <+: ·) :=
      touches_removeFile hdiffBelow
    rw [hpack, hkept, hsame]
    · exact hremoved _ _
    · exact hdirs.oldDiff _ holdBelow
    · rintro (hart | hnew)
      · exact hdirs.oldArt _ holdBelow hart
      · exact hdirs.oldNew _ holdBelow hnew

/-- The decompressed diff of an entry that succeeds is left in the delta package. -/
theorem reconstructEntry_inflates (hset : Settled w t) (hdirs : DirsApart stg dirs)
    (hdi : PlainEntry di) {d : Disk} {dth : DeltaTool} (htype : di.type = .changed)
    (hinflater : inflaterOf stg di = some dth)
    (hz : Room d.files (resolve (diffFileOf dirs di ++ ".z")))
    (h : (reconstructEntry w stg dirs di d).1 = eUaOk) :
    (reconstructEntry w stg dirs di d).2.files (resolve (diffFileOf dirs di ++ ".z")) =
      (d.files (resolve (diffFileOf dirs di))).bind (t.inflate dth) := by
  have hspare := spareFile_of_entry hdirs hdi
  have hzBelow : resolve dirs.diffPath <+: resolve (diffFileOf dirs di ++ ".z") :=
    hdi.diffz_below dirs.diffPath
  obtain ⟨_, hdiff, _, hzUnpacked⟩ := unpack_keeps (w := w) hdirs hdi d
  have hpack : Touches (processNested w stg (joinParts dirs.newPath [di.name]) di dirs.pkgDir true)
      (fun q => resolve (squashDir stg dirs.pkgDir) <+: q ∨ resolve dirs.newPath <+: q) :=
    touches_processNested w stg _ _ hdi (fun _ hq => .inl hq)
      fun _ => .inr (hdi.file_below dirs.newPath)
  have hold : Touches (removeFile (oldFileOf stg dirs di))
      (· = resolve (oldFileOf stg dirs di)) := touches_removeFile rfl
  have hremoved : Touches (removeFile (diffFileOf dirs di)) (· = resolve (diffFileOf dirs di)) :=
    touches_removeFile rfl
  rw [reconstructEntry_run] at h ⊢
  dsimp only at h ⊢
  have happlied : (applyType w stg di (oldFileOf stg dirs di) (joinParts dirs.newPath [di.name])
      (diffFileOf dirs di)
      (processNested w stg (originalOf dirs di) di dirs.pkgDir false d).2).1 = false := by
    have hfine := (ite_err_iff _).mp h
    simp only [not_or, Bool.not_eq_true] at hfine
    exact hfine.2.1
  rw [hpack, hremoved _ _ (diffz_ne hdi), hold _ _ hspare.old.symm]
  · rw [applyType_inflated stg hset hspare htype hinflater (hzUnpacked hz) happlied, hdiff]
  · rintro (hart | hnew)
    · exact hdirs.diffArt _ hzBelow hart
    · exact hdirs.diffNew _ hzBelow hnew

/-- An entry fails when there is no room for its file. -/
theorem reconstructEntry_blocked (hset : Settled w t) (hdirs : DirsApart stg dirs)
    (hdi : PlainEntry di) {d : Disk} (htype : di.type ≠ .removed)
    (hroom : ¬ Room d.files (newFileOf dirs di)) :
    (reconstructEntry w stg dirs di d).1 ≠ eUaOk := by
  obtain ⟨_, _, hroomUnpacked, _⟩ := unpack_keeps (w := w) hdirs hdi d
  rw [reconstructEntry_run]
  intro hok
  apply (ite_err_iff _).mp hok
  exact .inr (.inl (applyType_blocked stg hset (spareFile_of_entry hdirs hdi) htype
    fun hspace => hroom (hroomUnpacked.mp hspace)))

/-- An entry fails when the old file it needs is gone. -/
theorem reconstructEntry_without_old (hset : Settled w t) (hdirs : DirsApart stg dirs)
    (hdi : PlainEntry di) {d : Disk}
    (hneeds : di.nested = true ∨ di.type = .unchanged ∨ di.type = .changed)
    (hold : d.files (resolve (originalOf dirs di)) = none) :
    (reconstructEntry w stg dirs di d).1 ≠ eUaOk := by
  have hunpack := processNested_gives hset hdirs hdi d
  rw [reconstructEntry_run]
  intro hok
  apply (ite_err_iff _).mp hok
  cases hnested : di.nested with
  | true =>
      rw [hnested, if_pos rfl, hold] at hunpack
      exact .inl fun hunpacked => by simpa [imageOf] using hunpack.1.mp hunpacked
  | false =>
      have hverify := verifyFile_iff (w := w) (originalOf dirs di) di.sha256Old d
      rw [hold] at hverify
      have hmissing : ¬ (verifyFile w (originalOf dirs di) di.sha256Old d).1 = eUaOk :=
        fun hfound => by simpa [checked] using hverify.mp hfound
      have hsame : oldFileOf stg dirs di = originalOf dirs di := if_neg (by simp [hnested])
      rw [processNested_plain w stg hnested, pure_run, hsame]
      simp only [hnested, Bool.false_eq_true, false_or] at hneeds
      refine .inr (.inl ?_)
      unfold applyType
      rcases hneeds with htype | htype
      · rw [htype]
        dsimp only
        unfold verifiedCopy
        rw [bind_run, ite_run, if_pos hmissing]
        rfl
      · rw [htype]
        dsimp only
        rw [if_neg (by simp [hnested])]
        unfold verifiedPatch
        rw [bind_run, ite_run, if_pos hmissing]
        rfl

end Entries

end EsyncUa.DeltaResults
