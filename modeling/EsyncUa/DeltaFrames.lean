import EsyncUa.Deltas

/-!
Which files the parts of a reconstruction write.
Every path a part writes is either below the directory of the old package, of the delta
package or of unpacked images, or it is the entry's own file in the new tree.
-/
namespace EsyncUa.DeltaFrames

open JsonProperties Components Checksums DiffManifests FilePaths Deltas

variable {α β : Type}

@[simp] theorem bind_run (m : DeltaM α) (f : α → DeltaM β) (d : Disk) :
    (m >>= f) d = f (m d).1 (m d).2 := rfl

@[simp] theorem pure_run (a : α) (d : Disk) : (pure a : DeltaM α) d = (a, d) := rfl

theorem ite_run (c : Prop) [Decidable c] (m m' : DeltaM α) (d : Disk) :
    (if c then m else m') d = if c then m d else m' d := by
  split <;> rfl

/-- Only files at paths in `R` change. -/
def Touches (m : DeltaM α) (R : Path → Prop) : Prop :=
  ∀ d q, ¬ R q → (m d).2.files q = d.files q

section Touches

variable {R S : Path → Prop}

theorem Touches.mono {m : DeltaM α} (h : Touches m R) (hsub : ∀ q, R q → S q) : Touches m S :=
  fun d q hq => h d q fun hr => hq (hsub q hr)

theorem Touches.pure (a : α) : Touches (pure a : DeltaM α) R := fun _ _ _ => rfl

theorem Touches.bind {m : DeltaM α} {f : α → DeltaM β} (hm : Touches m R)
    (hf : ∀ a, Touches (f a) R) : Touches (m >>= f) R := by
  intro d q hq
  rw [bind_run, hf _ _ q hq]
  exact hm d q hq

theorem Touches.ite {c : Prop} [Decidable c] {m m' : DeltaM α} (hm : Touches m R)
    (hm' : Touches m' R) : Touches (if c then m else m') R := by
  split
  · exact hm
  · exact hm'

theorem touches_fileAt (path : String) : Touches (fileAt path) R := fun _ _ _ => rfl

theorem touches_setFiles {f : Files Bytes → Files Bytes}
    (h : ∀ files q, ¬ R q → f files q = files q) : Touches (setFiles f) R :=
  fun d q hq => h d.files q hq

variable (w : World) (stg : DeltaStg)

theorem touches_ask (o : Op) : Touches (ask w o) R := fun _ _ _ => rfl

theorem touches_write {p : Path} (content : Option Bytes) (hp : R p) :
    Touches (setFiles fun files => write files p content) R :=
  touches_setFiles fun _ q hq => write_other (fun h : q = p => hq (h ▸ hp)) _

theorem touches_removeFile {path : String} (hpath : R (resolve path)) :
    Touches (removeFile path) R :=
  (touches_fileAt _).bind fun _ => (touches_write _ hpath).bind fun _ => .pure _

theorem touches_rmdirp {path : String} (hpath : ∀ q, resolve path <+: q → R q) :
    Touches (rmdirp path) R :=
  touches_setFiles fun _ q hq => removeTree_other fun h => hq (hpath q h)

theorem rmdirp_other {path : String} {q : Path} (d : Disk) (h : ¬ resolve path <+: q) :
    (rmdirp path d).2.files q = d.files q := removeTree_other h

theorem touches_copyFile {src dst : String} (hdst : R (resolve dst)) :
    Touches (copyFile w src dst) R := by
  refine (touches_fileAt _).bind fun found => ?_
  cases found with
  | none => exact .pure _
  | some bytes =>
      refine (touches_ask w _).bind fun outcome => ?_
      cases outcome with
      | none => exact (touches_write _ hdst).bind fun _ => .pure _
      | some left => exact (touches_write _ hdst).bind fun _ => .pure _

theorem touches_runTool {o : Op} {result : o.Ans → Bool × Option Bytes} {output : String}
    (hout : R (resolve output)) : Touches (runTool w o result output) R :=
  (touches_ask w _).bind fun _ => (touches_write _ hout).bind fun _ => .pure _

theorem touches_unsquash {unsqCmd : String} (squashFile : String)
    (hdir : ∀ q, resolve unsqCmd <+: q → R q) :
    Touches (unsquash w unsqCmd squashFile) R :=
  (touches_ask w _).bind fun _ =>
    (touches_setFiles fun _ q hq => replaceTree_other (fun h => hq (hdir q h)) _).bind
      fun _ => .pure _

theorem verifyFile_run (file : String) (sha256 : Sha256Hex) (d : Disk) :
    verifyFile w file sha256 d =
      (match d.files (resolve file) with
        | none => eUaSys
        | some bytes => if w.sha256Hex bytes = sha256.val then eUaOk else eUaErr, d) := by
  unfold verifyFile
  rw [bind_run]
  unfold fileAt
  dsimp only
  cases d.files (resolve file) <;> rfl

theorem verifyFile_disk (file : String) (sha256 : Sha256Hex) (d : Disk) :
    (verifyFile w file sha256 d).2 = d := by rw [verifyFile_run]

theorem touches_verifyFile (file : String) (sha256 : Sha256Hex) :
    Touches (verifyFile w file sha256) R := by
  intro d q _
  rw [verifyFile_disk]

/-- The tool that decompresses the diff before the patch tool gets it. -/
def inflater (compression : String) (tool : Option DeltaTool) : Option DeltaTool :=
  if compression ≠ "none" ∧ ¬ tool.any DeltaTool.intl then findTool stg.decompTool compression
  else none

def inflaterOf (di : DiffInfo) : Option DeltaTool :=
  match patchdth stg (di.format.getD "") with
  | .ok tool => inflater stg (di.compression.getD "") tool
  | .error _ => none

theorem touches_diffp (compression : String) (tool : Option DeltaTool) {diff : String}
    (hz : (inflater stg compression tool).isSome → R (resolve (diff ++ ".z"))) :
    Touches (diffp w stg compression tool diff) R := by
  unfold diffp
  unfold inflater at hz
  split at hz
  · rename_i hinflate
    rw [if_pos hinflate]
    cases hfound : findTool stg.decompTool compression with
    | none => exact .pure _
    | some decompdth =>
        have hwritten := hz (by rw [hfound]; rfl)
        exact (touches_runTool w hwritten).bind fun _ => .ite (.pure _) (.pure _)
  · rename_i hplain
    rw [if_neg hplain]
    exact .pure _

theorem touches_deltaPatch (di : DiffInfo) (old : String) {new diff : String}
    (hnew : R (resolve new)) (hz : (inflaterOf stg di).isSome → R (resolve (diff ++ ".z"))) :
    Touches (deltaPatch w stg di old new diff) R := by
  unfold deltaPatch
  unfold inflaterOf at hz
  cases htool : patchdth stg (di.format.getD "") with
  | error err => exact .pure _
  | ok tool =>
      rw [htool] at hz
      refine (touches_diffp w stg _ _ hz).bind fun found => ?_
      cases found with
      | error err => exact .pure _
      | ok file =>
          cases tool with
          | some tool => exact (touches_runTool w hnew).bind fun _ => .pure _
          | none => exact touches_copyFile w hnew

theorem touches_verifiedCopy (src : String) {dst : String} (sha256 : Sha256Hex)
    (hdst : R (resolve dst)) : Touches (verifiedCopy w src dst sha256) R :=
  (touches_verifyFile w _ _).bind fun _ =>
    .ite (.pure _) ((touches_copyFile w hdst).bind fun _ => .pure _)

theorem touches_applyType (di : DiffInfo) {oldFile newFile diffFile : String}
    (hnew : R (resolve newFile))
    (hz : di.type = .changed → (inflaterOf stg di).isSome → R (resolve (diffFile ++ ".z"))) :
    Touches (applyType w stg di oldFile newFile diffFile) R := by
  unfold applyType
  cases htype : di.type with
  | added => exact touches_verifiedCopy w _ _ hnew
  | unchanged => exact touches_verifiedCopy w _ _ hnew
  | changed =>
      have hpatch := touches_deltaPatch w stg di oldFile hnew (hz htype)
      refine .ite (hpatch.bind fun _ => .pure _) ?_
      refine (touches_verifyFile w _ _).bind fun _ => .ite (.pure _) ?_
      refine hpatch.bind fun _ => .ite (.pure _) ?_
      exact (touches_verifyFile w _ _).bind fun _ => .pure _
  | removed => exact .pure _

end Touches

section Directories

/-- No path lies below both. -/
def Apart (p p' : Path) : Prop := ∀ q, p <+: q → ¬ p' <+: q

theorem Apart.symm {p p' : Path} (h : Apart p p') : Apart p' p :=
  fun q hq hq' => h q hq' hq

/-- A path in line with one below the first is not below the second. -/
theorem Apart.in_line {p p' file q : Path} (h : Apart p p') (hfile : p <+: file)
    (hq : q <+: file ∨ file <+: q) : ¬ p' <+: q := by
  intro hbelow
  rcases hq with hq | hq
  · exact h file hfile (hbelow.trans hq)
  · exact h q (hfile.trans hq) hbelow

theorem apart_of_ne {parent s t : Path} {c c' : Component} (h : c ≠ c') :
    Apart (parent ++ c :: s) (parent ++ c' :: t) := by
  intro q hq hq'
  have hc : parent ++ [c] <+: q := List.IsPrefix.trans ⟨s, by simp⟩ hq
  exact disjoint_of_ne h hc (List.IsPrefix.trans ⟨t, by simp⟩ hq')

theorem joinParts_one (path part : String) :
    joinParts path [some part] = FilePaths.join path part := by
  unfold joinParts joinParts FilePaths.join
  cases hlast : path.toList.getLast? with
  | none => simp
  | some c =>
      by_cases hc : c = '/'
      · simp [hc]
      · simp [hc]

theorem joinAll_nil (path : String) : joinAll path [] = path := rfl

theorem joinAll_cons (path part : String) (parts : List String) :
    joinAll path (part :: parts) = joinAll (FilePaths.join path part) parts := by
  rw [← joinParts_one]
  rfl

theorem resolve_joinAll (path : String) (parts : List String) :
    resolve (joinAll path parts) = parts.foldl resolveFrom (resolve path) := by
  induction parts generalizing path with
  | nil => rfl
  | cons part parts ih => rw [joinAll_cons, ih, resolve_join, List.foldl_cons]

theorem resolve_joinAll_one {path part : String} (h : Plain part) :
    resolve (joinAll path [part]) = resolve path ++ components part := by
  rw [resolve_joinAll]
  exact resolveFrom_plain h _

theorem below_joinAll {path part : String} (h : Plain part) {q : Path}
    (hq : resolve (joinAll path [part]) <+: q) : resolve path <+: q := by
  rw [resolve_joinAll_one h] at hq
  exact List.IsPrefix.trans (List.prefix_append _ _) hq

/-- The directories of a reconstruction hold no path in common. -/
structure DirsApart (stg : DeltaStg) (dirs : Dirs) : Prop where
  oldDiff : Apart (resolve dirs.oldPath) (resolve dirs.diffPath)
  oldNew : Apart (resolve dirs.oldPath) (resolve dirs.newPath)
  diffNew : Apart (resolve dirs.diffPath) (resolve dirs.newPath)
  oldArt : Apart (resolve dirs.oldPath) (resolve (squashDir stg dirs.pkgDir))
  diffArt : Apart (resolve dirs.diffPath) (resolve (squashDir stg dirs.pkgDir))
  newArt : Apart (resolve dirs.newPath) (resolve (squashDir stg dirs.pkgDir))

theorem dirsOf_apart (stg : DeltaStg) {diffPkgFile : String}
    (h : ['.', '.'] ∉ components (pkgDirOf diffPkgFile)) :
    DirsApart stg (dirsOf stg diffPkgFile) := by
  have hdelta : ∀ part : String, Plain part →
      resolve (joinAll stg.cacheDir ["delta", pkgDirOf diffPkgFile, part]) =
        resolve stg.cacheDir ++ "delta".toList ::
          (resolveFrom [] (pkgDirOf diffPkgFile) ++ components part) := by
    intro part hpart
    rw [resolve_joinAll, List.foldl_cons, List.foldl_cons, List.foldl_cons, List.foldl_nil,
      resolveFrom_plain hpart, resolveFrom_within h, resolveFrom_plain (s := "delta") (by decide)]
    simp [show components "delta" = ["delta".toList] by decide]
  have hart : resolve (squashDir stg (pkgDirOf diffPkgFile)) =
      resolve stg.cacheDir ++ "art".toList :: resolveFrom [] (pkgDirOf diffPkgFile) := by
    unfold squashDir
    rw [resolve_joinAll, List.foldl_cons, List.foldl_cons, List.foldl_nil,
      resolveFrom_within h, resolveFrom_plain (s := "art") (by decide)]
    simp [show components "art" = ["art".toList] by decide]
  have hold := hdelta "old" (by decide)
  have hdiff := hdelta "diff" (by decide)
  have hnew := hdelta "new" (by decide)
  rw [show components "old" = ["old".toList] by decide] at hold
  rw [show components "diff" = ["diff".toList] by decide] at hdiff
  rw [show components "new" = ["new".toList] by decide] at hnew
  have hsame : ∀ {c c' : Component}, c ≠ c' →
      Apart (resolve stg.cacheDir ++ "delta".toList ::
          (resolveFrom [] (pkgDirOf diffPkgFile) ++ [c]))
        (resolve stg.cacheDir ++ "delta".toList ::
          (resolveFrom [] (pkgDirOf diffPkgFile) ++ [c'])) := by
    intro c c' hne
    have happ : Apart ((resolve stg.cacheDir ++ "delta".toList ::
          resolveFrom [] (pkgDirOf diffPkgFile)) ++ c :: [])
        ((resolve stg.cacheDir ++ "delta".toList :: resolveFrom [] (pkgDirOf diffPkgFile)) ++
          c' :: []) := apart_of_ne hne
    simpa using happ
  have hother : ∀ (s t : Path), Apart (resolve stg.cacheDir ++ "delta".toList :: s)
      (resolve stg.cacheDir ++ "art".toList :: t) := fun s t => apart_of_ne (by decide)
  constructor <;> dsimp only [dirsOf]
  · rw [hold, hdiff]
    exact hsame (by decide)
  · rw [hold, hnew]
    exact hsame (by decide)
  · rw [hdiff, hnew]
    exact hsame (by decide)
  · rw [hold, hart]
    exact hother _ _
  · rw [hdiff, hart]
    exact hother _ _
  · rw [hnew, hart]
    exact hother _ _

end Directories

section Entries

theorem plain_append_z {name : String} (h : Plain name) : Plain (name ++ ".z") := by
  obtain ⟨front, last, hname, hz⟩ := components_append_text name (t := ".z") (by decide)
  intro c hc
  rw [hz] at hc
  rcases List.mem_append.mp hc with hfront | hlast
  · exact h c (by rw [hname]; exact List.mem_append_left _ hfront)
  · have hne : last ≠ [] := (h last (by simp [hname])).1
    obtain ⟨x, xs, hx⟩ := List.exists_cons_of_ne_nil hne
    rw [List.mem_singleton] at hlast
    subst hlast
    subst hx
    have hdots : ".z".toList = ['.', 'z'] := by decide
    rw [hdots]
    refine ⟨by simp, by simp, ?_⟩
    cases xs <;> simp

theorem components_replaceAll (name : String) :
    components (replaceAll name '/' '%') = [(replaceAll name '/' '%').toList] := by
  have hnone : ∀ c ∈ (replaceAll name '/' '%').toList, (c == '/') = false := by
    intro c hc
    unfold replaceAll at hc
    rw [String.toList_ofList, List.mem_map] at hc
    obtain ⟨c', _, hc'⟩ := hc
    split at hc'
    · subst hc'
      decide
    · rename_i hne
      subst hc'
      simpa using hne
  exact List.splitOnP_eq_singleton hnone

/-- With its slashes replaced a plain name is one plain component. -/
theorem plain_replaceAll {name : String} (h : Plain name) : Plain (replaceAll name '/' '%') := by
  have hone := components_replaceAll name
  have hback : ∀ l : List Char, '%' ∉ l →
      (replaceAll name '/' '%').toList = l → components name = components (String.ofList l) := by
    intro l hl heq
    suffices hlist : name.toList = l by
      rw [← hlist, String.ofList_toList]
    unfold replaceAll at heq
    rw [String.toList_ofList] at heq
    subst heq
    have hid : ∀ c ∈ name.toList, (if c = '/' then '%' else c) = c := by
      intro c hc
      split
      · rename_i hslash
        exact absurd (List.mem_map.mpr ⟨c, hc, by simp [hslash]⟩) hl
      · rfl
    exact ((List.map_congr_left hid).trans (List.map_id' _)).symm
  intro c hc
  rw [hone, List.mem_singleton] at hc
  subst hc
  refine ⟨fun hnil => ?_, fun hdot => ?_, fun hdots => ?_⟩
  · have heq := hback [] (by decide) hnil
    exact (h [] (by rw [heq]; decide)).1 rfl
  · have heq := hback ['.'] (by decide) hdot
    exact (h ['.'] (by rw [heq]; decide)).2.1 rfl
  · have heq := hback ['.', '.'] (by decide) hdots
    exact (h ['.', '.'] (by rw [heq]; decide)).2.2 rfl

/-- An entry whose names are plain. -/
structure PlainEntry (di : DiffInfo) : Prop where
  name : ∃ name, di.name = some name ∧ Plain name
  oldName : ∀ oldName, di.oldName = some oldName → Plain oldName

theorem plainEntry_iff (di : DiffInfo) :
    (di.name.any (fun name => decide (Plain name)) = true ∧
      di.oldName.all (fun oldName => decide (Plain oldName)) = true) ↔ PlainEntry di := by
  constructor
  · rintro ⟨hname, hold⟩
    refine ⟨?_, fun oldName heq => by simpa [heq] using hold⟩
    cases hfound : di.name with
    | none => simp [hfound] at hname
    | some name => exact ⟨name, rfl, by simpa [hfound] using hname⟩
  · rintro ⟨⟨name, hname, hplain⟩, hold⟩
    refine ⟨by simp [hname, hplain], ?_⟩
    cases hfound : di.oldName with
    | none => rfl
    | some oldName => simpa using hold oldName hfound

instance (di : DiffInfo) : Decidable (PlainEntry di) := decidable_of_iff _ (plainEntry_iff di)

theorem PlainEntry.plain_printed {di : DiffInfo} (h : PlainEntry di) (repackaging : Bool) :
    Plain (replaceAll (printed (if repackaging then di.name else di.oldName)) '/' '%') := by
  cases repackaging with
  | true =>
      obtain ⟨name, hname, hplain⟩ := h.name
      simpa [printed, hname] using plain_replaceAll hplain
  | false =>
      cases hold : di.oldName with
      | none => simpa [printed, hold] using (by decide : Plain (replaceAll "(null)" '/' '%'))
      | some oldName => simpa [printed, hold] using plain_replaceAll (h.oldName _ hold)

variable (w : World) (stg : DeltaStg)

theorem touches_processSquashfsImage {R : Path → Prop} (squashFile : String) {pkgDir : String}
    {di : DiffInfo} (repackaging : Bool) (hdi : PlainEntry di)
    (hart : ∀ q, resolve (squashDir stg pkgDir) <+: q → R q)
    (hfile : repackaging = true → R (resolve squashFile)) :
    Touches (processSquashfsImage w stg squashFile di pkgDir repackaging) R := by
  have hbelow : ∀ {part : String}, Plain part → ∀ q,
      resolve (joinAll (squashDir stg pkgDir) [part]) <+: q → R q := by
    intro part hpart q hq
    exact hart q (below_joinAll hpart hq)
  have hunsq : Plain (if repackaging then "test1.bin" else "test.bin") := by
    cases repackaging <;> decide
  unfold processSquashfsImage
  refine Touches.bind ?_ fun options => ?_
  · exact .ite (.pure _)
      ((touches_rmdirp hart).bind fun _ => (touches_ask w _).bind fun _ => .pure _)
  cases options with
  | none => exact .pure _
  | some options =>
      refine (touches_unsquash w _ (hbelow hunsq)).bind fun unpacked => .ite ?_ (.pure _)
      refine (touches_runTool w (hbelow (hdi.plain_printed _) _ (List.prefix_refl _))).bind
        fun packed => .ite ?_ (.pure _)
      refine Touches.bind ?_ fun status =>
        (touches_rmdirp (hbelow hunsq)).bind fun _ => .pure _
      unfold finishImage
      cases repackaging with
      | false => exact .pure _
      | true =>
          refine (touches_removeFile (hfile rfl)).bind fun _ => ?_
          refine (touches_copyFile w (hfile rfl)).bind fun _ => ?_
          exact (touches_verifyFile w _ _).bind fun _ => .pure _

/-- The file of an entry below a directory. -/
theorem PlainEntry.resolve_file {di : DiffInfo} (h : PlainEntry di) (path : String) :
    ∃ name, di.name = some name ∧ Plain name ∧
      resolve (joinParts path [di.name]) = resolve path ++ components name := by
  obtain ⟨name, hname, hplain⟩ := h.name
  refine ⟨name, hname, hplain, ?_⟩
  rw [hname, joinParts_one, resolve_join_plain hplain]

theorem PlainEntry.file_below {di : DiffInfo} (h : PlainEntry di) (path : String) :
    resolve path <+: resolve (joinParts path [di.name]) := by
  obtain ⟨name, _, _, hfile⟩ := h.resolve_file path
  exact hfile ▸ List.prefix_append _ _

theorem PlainEntry.oldFile_below {di : DiffInfo} (h : PlainEntry di) (path : String) :
    resolve path <+:
      resolve (joinParts path [if di.oldName.isSome then di.oldName else di.name]) := by
  cases hold : di.oldName with
  | none => simpa using h.file_below path
  | some oldName =>
      rw [Option.isSome_some, if_pos rfl, joinParts_one, resolve_join_plain (h.oldName _ hold)]
      exact List.prefix_append _ _

theorem PlainEntry.packed_below {di : DiffInfo} (h : PlainEntry di) (pkgDir : String) :
    resolve (squashDir stg pkgDir) <+: resolve (joinAll stg.cacheDir
      ["art", pkgDir, replaceAll (printed di.oldName) '/' '%']) := by
  have hplain := h.plain_printed false
  unfold squashDir
  rw [if_neg Bool.false_ne_true] at hplain
  rw [resolve_joinAll, resolve_joinAll]
  simp only [List.foldl_cons, List.foldl_nil]
  rw [resolveFrom_plain hplain]
  exact List.prefix_append _ _

/-- What an entry may write besides its own file in the new tree. -/
def WorkPath (dirs : Dirs) (q : Path) : Prop :=
  resolve dirs.oldPath <+: q ∨ resolve dirs.diffPath <+: q ∨
    resolve (squashDir stg dirs.pkgDir) <+: q

def newFileOf (dirs : Dirs) (di : DiffInfo) : Path := resolve (joinParts dirs.newPath [di.name])

theorem processNested_plain {di : DiffInfo} (h : di.nested = false) (squashFile pkgDir : String)
    (repackaging : Bool) :
    processNested w stg squashFile di pkgDir repackaging = pure eUaOk := by
  unfold processNested
  exact if_neg (by simp [h])

theorem processNested_nested {di : DiffInfo} (h : di.nested = true) (squashFile pkgDir : String)
    (repackaging : Bool) : processNested w stg squashFile di pkgDir repackaging =
      processSquashfsImage w stg squashFile di pkgDir repackaging := if_pos h

theorem touches_processNested {R : Path → Prop} (squashFile : String) {pkgDir : String}
    {di : DiffInfo} (repackaging : Bool) (hdi : PlainEntry di)
    (hart : ∀ q, resolve (squashDir stg pkgDir) <+: q → R q)
    (hfile : repackaging = true → R (resolve squashFile)) :
    Touches (processNested w stg squashFile di pkgDir repackaging) R :=
  .ite (touches_processSquashfsImage w stg _ _ hdi hart hfile) (.pure _)

/-- The file an entry takes as the old one. -/
def oldFileOf (dirs : Dirs) (di : DiffInfo) : String :=
  if di.nested then
    joinAll stg.cacheDir ["art", dirs.pkgDir, replaceAll (printed di.oldName) '/' '%']
  else joinParts dirs.oldPath [if di.oldName.isSome then di.oldName else di.name]

theorem PlainEntry.oldFileOf_work {di : DiffInfo} (h : PlainEntry di) (dirs : Dirs) :
    WorkPath stg dirs (resolve (oldFileOf stg dirs di)) := by
  unfold oldFileOf
  split
  · exact .inr (.inr (h.packed_below stg dirs.pkgDir))
  · exact .inl (h.oldFile_below dirs.oldPath)

theorem PlainEntry.diffz_below {di : DiffInfo} (h : PlainEntry di) (path : String) :
    resolve path <+: resolve (joinParts path [di.name] ++ ".z") := by
  obtain ⟨name, hname, hplain⟩ := h.name
  rw [hname, joinParts_one, join_append, resolve_join_plain (plain_append_z hplain)]
  exact List.prefix_append _ _

/-- The old file in the unpacked old package. -/
def originalOf (dirs : Dirs) (di : DiffInfo) : String :=
  joinParts dirs.oldPath [if di.oldName.isSome then di.oldName else di.name]

def diffFileOf (dirs : Dirs) (di : DiffInfo) : String := joinParts dirs.diffPath [di.name]

/-- The parts of an entry, one after the other. -/
theorem reconstructEntry_run (dirs : Dirs) (di : DiffInfo) (d : Disk) :
    reconstructEntry w stg dirs di d =
      let newFile := joinParts dirs.newPath [di.name]
      let unpacked := processNested w stg (originalOf dirs di) di dirs.pkgDir false d
      let applied :=
        applyType w stg di (oldFileOf stg dirs di) newFile (diffFileOf dirs di) unpacked.2
      let cleared :=
        removeFile (diffFileOf dirs di) (removeFile (oldFileOf stg dirs di) applied.2).2
      let packed := processNested w stg newFile di dirs.pkgDir true cleared.2
      (if unpacked.1 ≠ eUaOk ∨ applied.1 ∨ packed.1 ≠ eUaOk then eUaErr else eUaOk, packed.2) :=
  rfl

/-- What an entry may write: its files, and the images it unpacks. -/
def EntryPath (dirs : Dirs) (di : DiffInfo) (q : Path) : Prop :=
  q = resolve (oldFileOf stg dirs di) ∨ q = resolve (diffFileOf dirs di) ∨
  (di.type = .changed ∧ (inflaterOf stg di).isSome ∧ q = resolve (diffFileOf dirs di ++ ".z")) ∨
  resolve (squashDir stg dirs.pkgDir) <+: q ∨ q = newFileOf dirs di

theorem touches_entryPath (dirs : Dirs) {di : DiffInfo} (hdi : PlainEntry di) :
    Touches (reconstructEntry w stg dirs di) (EntryPath stg dirs di) := by
  have hart : ∀ q, resolve (squashDir stg dirs.pkgDir) <+: q → EntryPath stg dirs di q :=
    fun q hq => .inr (.inr (.inr (.inl hq)))
  have hnew : EntryPath stg dirs di (newFileOf dirs di) := .inr (.inr (.inr (.inr rfl)))
  have hunpack : Touches (processNested w stg (originalOf dirs di) di dirs.pkgDir false)
      (EntryPath stg dirs di) :=
    touches_processNested w stg _ _ hdi hart fun h => absurd h Bool.false_ne_true
  refine hunpack.bind fun _ => ?_
  refine Touches.bind ?_ fun _ => ?_
  · exact touches_applyType w stg di hnew
      fun htype hinflate => .inr (.inr (.inl ⟨htype, hinflate, rfl⟩))
  refine (touches_removeFile (.inl rfl)).bind fun _ => ?_
  refine (touches_removeFile (.inr (.inl rfl))).bind fun _ => ?_
  exact (touches_processNested w stg _ _ hdi hart (fun _ => hnew)).bind fun _ => .pure _

theorem touches_reconstructEntry (dirs : Dirs) {di : DiffInfo} (hdi : PlainEntry di) :
    Touches (reconstructEntry w stg dirs di)
      (fun q => WorkPath stg dirs q ∨ q = newFileOf dirs di) := by
  refine (touches_entryPath w stg dirs hdi).mono fun q hq => ?_
  rcases hq with hold | hdiff | ⟨_, _, hz⟩ | hart | hnew
  · exact .inl (hold ▸ hdi.oldFileOf_work stg dirs)
  · exact .inl (.inr (.inl (hdiff ▸ hdi.file_below dirs.diffPath)))
  · exact .inl (.inr (.inl (hz ▸ hdi.diffz_below dirs.diffPath)))
  · exact .inl (.inr (.inr hart))
  · exact .inr hnew

theorem newFileOf_injective {dirs : Dirs} {di di' : DiffInfo} (hdi : PlainEntry di)
    (hdi' : PlainEntry di') (h : newFileOf dirs di = newFileOf dirs di') : di.name = di'.name := by
  obtain ⟨name, hname, _, hfile⟩ := hdi.resolve_file dirs.newPath
  obtain ⟨name', hname', _, hfile'⟩ := hdi'.resolve_file dirs.newPath
  have hsame : components name = components name' :=
    List.append_cancel_left (hfile.symm.trans (h.trans hfile'))
  rw [hname, hname', components_injective hsame]

/-- An entry's own file is none of those that entries may write besides. -/
theorem newFileOf_not_work {dirs : Dirs} {di : DiffInfo} (hdirs : DirsApart stg dirs)
    (hdi : PlainEntry di) : ¬ WorkPath stg dirs (newFileOf dirs di) := by
  have hbelow := hdi.file_below dirs.newPath
  rintro (hold | hdiff | hart)
  · exact hdirs.oldNew _ hold hbelow
  · exact hdirs.diffNew _ hdiff hbelow
  · exact hdirs.newArt _ hbelow hart

theorem touches_reconstructEntries (dirs : Dirs) {diList : List DiffInfo}
    (hplain : ∀ di ∈ diList, PlainEntry di) :
    Touches (reconstructEntries w stg dirs diList)
      (fun q => WorkPath stg dirs q ∨ ∃ di ∈ diList, q = newFileOf dirs di) := by
  induction diList with
  | nil => exact .pure _
  | cons di diList ih =>
      have hfirst := touches_reconstructEntry w stg dirs (hplain di List.mem_cons_self)
      have hrest := ih fun di' hdi' => hplain di' (List.mem_cons_of_mem _ hdi')
      refine (hfirst.mono ?_).bind fun err => .ite (.pure _) (hrest.mono ?_)
      · rintro q (hwork | hown)
        · exact .inl hwork
        · exact .inr ⟨di, List.mem_cons_self, hown⟩
      · rintro q (hwork | ⟨di', hmem, hown⟩)
        · exact .inl hwork
        · exact .inr ⟨di', List.mem_cons_of_mem _ hmem, hown⟩

end Entries

end EsyncUa.DeltaFrames
