import EsyncUa.DeltaIntegrity
import EsyncUa.DeltaResults
import Mathlib.Data.List.Nodup
import Mathlib.Data.List.Perm.Subperm

/-!
Orders of the entries of a delta manifest.
An entry removes its old file and its diff, and a decompressed diff may take the place of
another entry's. Where no entry loses what it needs, every order of the entries leaves the
same new tree; where one does, some order fails or leaves another tree.
-/
namespace EsyncUa.DeltaOrder

open JsonProperties Components Checksums DiffManifests FilePaths Deltas DeltaFrames DeltaResults

variable (w : World) (t : Tools) (stg : DeltaStg) (dirs : Dirs)

def originalPath (di : DiffInfo) : Path := resolve (originalOf dirs di)

def diffPathOf (di : DiffInfo) : Path := resolve (diffFileOf dirs di)

/-- Where the diff of an entry is decompressed to. -/
def diffzPathOf (di : DiffInfo) : Path := resolve (diffFileOf dirs di ++ ".z")

/-- The result of an entry on unpacked packages. -/
def resultOn (files : Files Bytes) (di : DiffInfo) : Option (Option Bytes) :=
  entryResult w t stg dirs.pkgDir di (files (originalPath dirs di)) (files (diffPathOf dirs di))

def NeedsOld (di : DiffInfo) : Prop :=
  di.nested = true ∨ di.type = .unchanged ∨ di.type = .changed

/-- Unpacked packages with an empty new tree, in which each entry is valid on its own. -/
structure Unpacked (files : Files Bytes) (diList : List DiffInfo) : Prop where
  plain : ∀ di ∈ diList, PlainEntry di
  distinct : (diList.map DiffInfo.name).Nodup
  newTree : ∀ q, resolve dirs.newPath <+: q ∨ q <+: resolve dirs.newPath → files q = none
  valid : ∀ di ∈ diList, di.type ≠ .removed → (resultOn w t stg dirs files di).isSome
  diffRoom : ∀ di ∈ diList, di.type = .changed → (inflaterOf stg di).isSome →
    Room files (diffzPathOf dirs di)

/-- Every order of the entries succeeds, and all of them leave one new tree. -/
def OrderFree (files : Files Bytes) (diList : List DiffInfo) : Prop :=
  ∃ tree, ∀ order : List DiffInfo, order.Perm diList → ∀ d : Disk, d.files = files →
    (reconstructEntries w stg dirs order d).1 = eUaOk ∧
      treeAt (reconstructEntries w stg dirs order d).2.files (resolve dirs.newPath) = tree

/-- What the diff of an entry may hold when it is its turn. -/
inductive DiffSeen (files : Files Bytes) (diList : List DiffInfo) : DiffInfo → Option Bytes → Prop
  | unpacked (di : DiffInfo) : DiffSeen files diList di (files (diffPathOf dirs di))
  | inflated (e f : DiffInfo) (dth : DeltaTool) (content : Option Bytes) (he : e ∈ diList)
      (htype : e.type = .changed) (hinflater : inflaterOf stg e = some dth)
      (hseen : DiffSeen files diList e content) (hpath : diffPathOf dirs f = diffzPathOf dirs e) :
      DiffSeen files diList f (content.bind (t.inflate dth))

/-- No entry takes away or replaces what another one needs. -/
structure NoClash (files : Files Bytes) (diList : List DiffInfo) : Prop where
  removed : ∀ di ∈ diList, di.type = .removed → di.nested = false
  old : ∀ e ∈ diList, ∀ f ∈ diList, e ≠ f → e.nested = false → NeedsOld f →
    originalPath dirs e ≠ originalPath dirs f
  diff : ∀ f ∈ diList, ∀ content, DiffSeen t stg dirs files diList f content →
    entryResult w t stg dirs.pkgDir f (files (originalPath dirs f)) content =
      resultOn w t stg dirs files f
  new : ∀ e ∈ diList, ∀ f ∈ diList, e ≠ f → e.type ≠ .removed → f.type ≠ .removed →
    ¬ newFileOf dirs e <+: newFileOf dirs f

section Results

variable {w t stg dirs}

/-- An entry that does not need its old file has the same result whatever that is. -/
theorem entryResult_of_not_needsOld {di : DiffInfo} (h : ¬ NeedsOld di)
    (old old' diff : Option Bytes) :
    entryResult w t stg dirs.pkgDir di old diff = entryResult w t stg dirs.pkgDir di old' diff := by
  simp only [NeedsOld, not_or, Bool.not_eq_true] at h
  obtain ⟨hnested, hunchanged, hchanged⟩ := h
  unfold entryResult typeResult
  rw [hnested]
  cases htype : di.type with
  | added => rfl
  | removed => rfl
  | changed => exact absurd htype hchanged
  | unchanged => exact absurd htype hunchanged

/-- Only an entry that is not removed makes a file, and every such entry does. -/
theorem entryResult_some_isSome {di : DiffInfo} {old diff r : Option Bytes}
    (htype : di.type ≠ .removed)
    (h : entryResult w t stg dirs.pkgDir di old diff = some r) : r.isSome := by
  have hmap : ∀ {x : Option Bytes}, x.map some = some r → r.isSome := by
    intro x hx
    obtain ⟨bytes, _, heq⟩ := Option.map_eq_some_iff.mp hx
    rw [← heq]
    rfl
  unfold entryResult at h
  cases hnested : di.nested with
  | true =>
      rw [hnested, if_pos rfl] at h
      obtain ⟨image, _, h⟩ := Option.bind_eq_some_iff.mp h
      obtain ⟨new, _, h⟩ := Option.bind_eq_some_iff.mp h
      exact hmap h
  | false =>
      rw [hnested, if_neg Bool.false_ne_true] at h
      unfold typeResult at h
      cases hcase : di.type with
      | added =>
          rw [hcase] at h
          exact hmap h
      | unchanged =>
          rw [hcase] at h
          exact hmap h
      | changed =>
          rw [hcase] at h
          dsimp only at h
          rw [hnested, if_neg Bool.false_ne_true] at h
          exact hmap h
      | removed => exact absurd hcase htype

theorem entryResult_removed {di : DiffInfo} (htype : di.type = .removed) (old diff : Option Bytes) :
    entryResult w t stg dirs.pkgDir di old diff = if di.nested then none else some none := by
  unfold entryResult typeResult
  rw [htype]
  cases hnested : di.nested with
  | false => rfl
  | true =>
      simp only [if_true]
      cases imageOf t stg dirs.pkgDir di false old with
      | none => rfl
      | some image => rfl

/-- A changed file that is decompressed needs its diff. -/
theorem entryResult_without_diff {di : DiffInfo} {dth : DeltaTool} (htype : di.type = .changed)
    (hinflater : inflaterOf stg di = some dth) (old : Option Bytes) :
    entryResult w t stg dirs.pkgDir di old none = none := by
  have hpatched : ∀ o, patched t stg di o none = none := by
    intro o
    unfold inflaterOf at hinflater
    unfold patched
    cases htool : patchdth stg (di.format.getD "") with
    | error err => rfl
    | ok tool =>
        rw [htool] at hinflater
        have hused : diffUsed t stg di tool none = none := by
          unfold inflater at hinflater
          unfold diffUsed
          dsimp only at hinflater
          split at hinflater
          · rename_i hinflate
            rw [if_pos hinflate, hinflater]
            rfl
          · cases hinflater
        cases tool with
        | none => exact hused
        | some tool =>
            dsimp only
            rw [hused]
            cases o <;> rfl
  unfold entryResult typeResult
  rw [htype]
  cases hnested : di.nested with
  | false => simp [hpatched, checked]
  | true =>
      simp only [if_true, hpatched]
      cases imageOf t stg dirs.pkgDir di false old with
      | none => rfl
      | some image => rfl

end Results

section Paths

variable {w t stg dirs} {e f : DiffInfo} {q : Path}

theorem diffPath_below (hf : PlainEntry f) : resolve dirs.diffPath <+: diffPathOf dirs f :=
  hf.file_below dirs.diffPath

theorem diffzPath_below (hf : PlainEntry f) : resolve dirs.diffPath <+: diffzPathOf dirs f :=
  hf.diffz_below dirs.diffPath

theorem originalPath_below (hf : PlainEntry f) : resolve dirs.oldPath <+: originalPath dirs f :=
  hf.oldFile_below dirs.oldPath

theorem diffPathOf_injective (he : PlainEntry e) (hf : PlainEntry f)
    (h : diffPathOf dirs e = diffPathOf dirs f) : e.name = f.name := by
  obtain ⟨name, hname, _, hfile⟩ := he.resolve_file dirs.diffPath
  obtain ⟨name', hname', _, hfile'⟩ := hf.resolve_file dirs.diffPath
  have hsame : components name = components name' :=
    List.append_cancel_left (hfile.symm.trans (h.trans hfile'))
  rw [hname, hname', components_injective hsame]

theorem entryPath_old (hdirs : DirsApart stg dirs) (hf : PlainEntry f)
    (hq : resolve dirs.oldPath <+: q) (h : EntryPath stg dirs f q) :
    f.nested = false ∧ q = originalPath dirs f := by
  rcases h with hold | hdiff | ⟨_, _, hz⟩ | hart | hnew
  · unfold oldFileOf at hold
    split at hold
    · exact absurd (hold ▸ hf.packed_below stg dirs.pkgDir) (hdirs.oldArt q hq)
    · rename_i hnested
      exact ⟨by simpa using hnested, hold⟩
  · exact absurd (hdiff ▸ diffPath_below hf) (hdirs.oldDiff q hq)
  · exact absurd (hz ▸ diffzPath_below hf) (hdirs.oldDiff q hq)
  · exact absurd hart (hdirs.oldArt q hq)
  · exact absurd (hnew ▸ hf.file_below dirs.newPath) (hdirs.oldNew q hq)

/-- Away from the old package, the images and the new tree an entry writes its diffs only. -/
theorem entryPath_diff (hf : PlainEntry f) (hold : ¬ resolve dirs.oldPath <+: q)
    (hart : ¬ resolve (squashDir stg dirs.pkgDir) <+: q) (hnew : ¬ resolve dirs.newPath <+: q)
    (h : EntryPath stg dirs f q) :
    q = diffPathOf dirs f ∨
      (f.type = .changed ∧ (inflaterOf stg f).isSome ∧ q = diffzPathOf dirs f) := by
  rcases h with hq | hdiff | hz | hart' | hq
  · exfalso
    rcases hq ▸ hf.oldFileOf_work stg dirs with hwork | hwork | hwork
    · exact hold hwork
    · unfold oldFileOf at hq
      split at hq
      · exact hart (hq ▸ hf.packed_below stg dirs.pkgDir)
      · exact hold (hq ▸ hf.oldFile_below dirs.oldPath)
    · exact hart hwork
  · exact .inl hdiff
  · exact .inr hz
  · exact absurd hart' hart
  · exact absurd (hq ▸ hf.file_below dirs.newPath) hnew

/-- In line with a new file an entry writes only its own new file. -/
theorem entryPath_new (hdirs : DirsApart stg dirs) (he : PlainEntry e) (hf : PlainEntry f)
    (hq : q <+: newFileOf dirs e ∨ newFileOf dirs e <+: q) (h : EntryPath stg dirs f q) :
    q = newFileOf dirs f := by
  have hbelow := he.file_below dirs.newPath
  have hold := hdirs.oldNew.symm.in_line hbelow hq
  have hdiff := hdirs.diffNew.symm.in_line hbelow hq
  have hart := hdirs.newArt.in_line hbelow hq
  rcases h with hq' | hq' | ⟨_, _, hq'⟩ | hq' | hq'
  · exfalso
    rcases hq' ▸ hf.oldFileOf_work stg dirs with hwork | hwork | hwork
    · exact hold hwork
    · exact hdiff hwork
    · exact hart hwork
  · exact absurd (hq' ▸ diffPath_below hf) hdiff
  · exact absurd (hq' ▸ diffzPath_below hf) hdiff
  · exact absurd hq' hart
  · exact hq'

/-- A decompressed diff in line with another one would stand above that other entry's diff. -/
theorem diffPath_of_diffz_in_line (hf : PlainEntry f)
    (hne : diffzPathOf dirs e ≠ diffzPathOf dirs f)
    (h : diffzPathOf dirs e <+: diffzPathOf dirs f) :
    diffzPathOf dirs e <+: diffPathOf dirs f ∧ diffPathOf dirs f ≠ diffzPathOf dirs e := by
  obtain ⟨name, hname, hplain⟩ := hf.name
  have hz : diffzPathOf dirs f = resolve dirs.diffPath ++ components (name ++ ".z") := by
    unfold diffzPathOf diffFileOf
    rw [hname, joinParts_one, join_append, resolve_join_plain (plain_append_z hplain)]
  have hdiff : diffPathOf dirs f = resolve dirs.diffPath ++ components name := by
    unfold diffPathOf diffFileOf
    rw [hname, joinParts_one, resolve_join_plain hplain]
  obtain ⟨front, last, hcomps, hcompsz⟩ := components_append_text name (t := ".z") (by decide)
  rw [hz, hcompsz, ← List.append_assoc] at h
  rw [hz, hcompsz, ← List.append_assoc] at hne
  have hfront : diffzPathOf dirs e <+: resolve dirs.diffPath ++ front := by
    rcases List.prefix_concat_iff.mp h with hwhole | hpart
    · exact absurd hwhole hne
    · exact hpart
  have hlonger : resolve dirs.diffPath ++ front <+: diffPathOf dirs f := by
    rw [hdiff, hcomps, ← List.append_assoc]
    exact List.prefix_append _ _
  refine ⟨hfront.trans hlonger, fun hsame => ?_⟩
  have hlength := hfront.length_le
  rw [← hsame, hdiff, hcomps] at hlength
  simp only [List.length_append, List.length_singleton] at hlength
  omega

end Paths

section Runs

variable {w t stg dirs} {files : Files Bytes} {diList rest : List DiffInfo} {f : DiffInfo}
  {d : Disk}

/-- No entry takes away an old file or the place of a new file that another one needs. -/
structure FilesApart (dirs : Dirs) (diList : List DiffInfo) : Prop where
  old : ∀ e ∈ diList, ∀ f ∈ diList, e ≠ f → e.nested = false → NeedsOld f →
    originalPath dirs e ≠ originalPath dirs f
  new : ∀ e ∈ diList, ∀ f ∈ diList, e ≠ f → e.type ≠ .removed → f.type ≠ .removed →
    ¬ newFileOf dirs e <+: newFileOf dirs f

/-- What the entries still to come find on disk. -/
structure Ready (t : Tools) (stg : DeltaStg) (dirs : Dirs) (files : Files Bytes)
    (diList rest : List DiffInfo) (d : Disk) : Prop where
  old : ∀ f ∈ rest, NeedsOld f → d.files (originalPath dirs f) = files (originalPath dirs f)
  diff : ∀ f ∈ rest, DiffSeen t stg dirs files diList f (d.files (diffPathOf dirs f))
  new : ∀ f ∈ rest, d.files (newFileOf dirs f) = none
  newRoom : ∀ f ∈ rest, f.type ≠ .removed → Room d.files (newFileOf dirs f)
  diffRoom : ∀ f ∈ rest, f.type = .changed → (inflaterOf stg f).isSome →
    Room d.files (diffzPathOf dirs f)

theorem Unpacked.eq_of_name (hunp : Unpacked w t stg dirs files diList) {e f : DiffInfo}
    (he : e ∈ diList) (hf : f ∈ diList) (h : e.name = f.name) : e = f :=
  List.inj_on_of_nodup_map hunp.distinct he hf h

/-- In the unpacked packages there is room for every new file. -/
theorem Unpacked.newRoom (hunp : Unpacked w t stg dirs files diList) (f : DiffInfo)
    (hf : f ∈ diList) : Room files (newFileOf dirs f) := by
  intro q hq _
  have hbelow := (hunp.plain f hf).file_below dirs.newPath
  apply hunp.newTree
  rcases hq with hq | hq
  · rcases List.prefix_or_prefix_of_prefix hbelow hq with habove | hinside
    · exact .inl habove
    · exact .inr hinside
  · exact .inl (hbelow.trans hq)

theorem Unpacked.ready (hunp : Unpacked w t stg dirs files diList) (hd : d.files = files) :
    Ready t stg dirs files diList diList d where
  old := fun f _ _ => by rw [hd]
  diff := fun f _ => hd ▸ .unpacked f
  new := fun f hf => hd ▸ hunp.newTree _ (.inl ((hunp.plain f hf).file_below dirs.newPath))
  newRoom := fun f hf _ => hd ▸ hunp.newRoom f hf
  diffRoom := fun f hf htype hinflater => hd ▸ hunp.diffRoom f hf htype hinflater

theorem Ready.of_subset {part : List DiffInfo} (h : Ready t stg dirs files diList rest d)
    (hsub : ∀ g ∈ part, g ∈ rest) : Ready t stg dirs files diList part d where
  old := fun f hf => h.old f (hsub f hf)
  diff := fun f hf => h.diff f (hsub f hf)
  new := fun f hf => h.new f (hsub f hf)
  newRoom := fun f hf => h.newRoom f (hsub f hf)
  diffRoom := fun f hf => h.diffRoom f (hsub f hf)

/-- The code's result for the next entry. -/
theorem Ready.gives (hset : Settled w t) (hdirs : DirsApart stg dirs)
    (hunp : Unpacked w t stg dirs files diList) (hf : f ∈ diList)
    (h : Ready t stg dirs files diList (f :: rest) d)
    (hremoved : f.type = .removed → f.nested = false) :
    Gives ((reconstructEntry w stg dirs f d).1 = eUaOk)
      ((reconstructEntry w stg dirs f d).2.files (newFileOf dirs f))
      (entryResult w t stg dirs.pkgDir f (files (originalPath dirs f))
        (d.files (diffPathOf dirs f))) := by
  have hmem : f ∈ f :: rest := List.mem_cons_self
  have hgives := reconstructEntry_gives hset hdirs (hunp.plain f hf) (h.new f hmem)
    (fun hno => h.newRoom f hmem fun htype => hno ⟨htype, hremoved htype⟩)
    (h.diffRoom f hmem)
  by_cases hneeds : NeedsOld f
  · have hold := h.old f hmem hneeds
    change d.files (resolve (originalOf dirs f)) = _ at hold
    rw [hold] at hgives
    exact hgives
  · rw [entryResult_of_not_needsOld hneeds _ (files (originalPath dirs f))] at hgives
    exact hgives

/-- An entry that succeeds leaves what the entries after it need. -/
theorem Ready.step (hset : Settled w t) (hdirs : DirsApart stg dirs)
    (hunp : Unpacked w t stg dirs files diList) (hfiles : FilesApart dirs diList)
    (hsub : ∀ g ∈ f :: rest, g ∈ diList) (hnodup : (f :: rest).Nodup)
    (h : Ready t stg dirs files diList (f :: rest) d)
    (hremoved : f.type = .removed → f.nested = false)
    (hok : (reconstructEntry w stg dirs f d).1 = eUaOk) :
    Ready t stg dirs files diList rest (reconstructEntry w stg dirs f d).2 := by
  have hmem : f ∈ f :: rest := List.mem_cons_self
  have hfL := hsub f hmem
  have hplain : ∀ g ∈ f :: rest, PlainEntry g := fun g hg => hunp.plain g (hsub g hg)
  have hne : ∀ g ∈ rest, f ≠ g := fun g hg heq => (List.nodup_cons.mp hnodup).1 (heq ▸ hg)
  have hkept := touches_entryPath w stg dirs (hplain f hmem) d
  obtain ⟨hdiffGone, _⟩ := reconstructEntry_clears (w := w) hdirs (hplain f hmem) d
  constructor
  · intro g hg hneeds
    have hrest := List.mem_cons_of_mem f hg
    rw [hkept, h.old g hrest hneeds]
    intro hpath
    obtain ⟨hnested, hsame⟩ :=
      entryPath_old hdirs (hplain f hmem) (originalPath_below (hplain g hrest)) hpath
    exact hfiles.old f hfL g (hsub g hrest) (hne g hg) hnested hneeds hsame.symm
  · intro g hg
    have hrest := List.mem_cons_of_mem f hg
    by_cases hpath : EntryPath stg dirs f (diffPathOf dirs g)
    · have hbelow : resolve dirs.diffPath <+: diffPathOf dirs g := diffPath_below (hplain g hrest)
      rcases entryPath_diff (hplain f hmem) (hdirs.oldDiff.symm _ hbelow) (hdirs.diffArt _ hbelow)
        (hdirs.diffNew _ hbelow) hpath with hown | ⟨htype, hinflater, hz⟩
      · exfalso
        apply hne g hg
        exact (hunp.eq_of_name (hsub g hrest) hfL
          (diffPathOf_injective (hplain g hrest) (hplain f hmem) hown)).symm
      · obtain ⟨dth, hdth⟩ := Option.isSome_iff_exists.mp hinflater
        have hinflated := reconstructEntry_inflates hset hdirs (hplain f hmem) htype hdth
          (h.diffRoom f hmem htype hinflater) hok
        rw [hz]
        change DiffSeen t stg dirs files diList g
          ((reconstructEntry w stg dirs f d).2.files (resolve (diffFileOf dirs f ++ ".z")))
        rw [hinflated]
        exact .inflated f g dth _ hfL htype hdth (h.diff f hmem) hz
    · rw [hkept _ hpath]
      exact h.diff g hrest
  · intro g hg
    have hrest := List.mem_cons_of_mem f hg
    rw [hkept, h.new g hrest]
    intro hpath
    have hsame := entryPath_new hdirs (hplain g hrest) (hplain f hmem)
      (.inl (List.prefix_refl _)) hpath
    exact hne g hg (hunp.eq_of_name hfL (hsub g hrest)
      (newFileOf_injective (hplain f hmem) (hplain g hrest) hsame.symm))
  · intro g hg htype q hq hother
    have hrest := List.mem_cons_of_mem f hg
    by_cases hpath : EntryPath stg dirs f q
    · have hown := entryPath_new hdirs (hplain g hrest) (hplain f hmem) hq hpath
      subst hown
      by_cases hcase : f.type = .removed
      · -- a removed entry has made no file
        have hgives := h.gives hset hdirs hunp hfL hremoved
        rw [entryResult_removed hcase, hremoved hcase, if_neg Bool.false_ne_true] at hgives
        exact hgives.2 _ rfl
      · rcases hq with hq | hq
        · exact absurd hq (hfiles.new f hfL g (hsub g hrest) (hne g hg) hcase htype)
        · exact absurd hq (hfiles.new g (hsub g hrest) f hfL (hne g hg).symm htype hcase)
    · rw [hkept q hpath]
      exact h.newRoom g hrest htype q hq hother
  · intro g hg htype hinflater q hq hother
    have hrest := List.mem_cons_of_mem f hg
    by_cases hpath : EntryPath stg dirs f q
    · have hbelow : resolve dirs.diffPath <+: diffzPathOf dirs g := diffzPath_below (hplain g hrest)
      rcases entryPath_diff (hplain f hmem) (hdirs.oldDiff.symm.in_line hbelow hq)
        (hdirs.diffArt.in_line hbelow hq) (hdirs.diffNew.in_line hbelow hq) hpath with
        hown | ⟨hftype, hfinflater, hz⟩
      · rw [hown]
        exact hdiffGone
      · -- one of the two would stand above the other's diff, which is there at the start
        subst hz
        have hthere : ∀ e ∈ diList, e.type = .changed → (inflaterOf stg e).isSome →
            files (diffPathOf dirs e) ≠ none := by
          intro e he hetype heinflater hnone
          obtain ⟨dth, hdth⟩ := Option.isSome_iff_exists.mp heinflater
          have hvalid := hunp.valid e he (by simp [hetype])
          unfold resultOn at hvalid
          rw [hnone, entryResult_without_diff hetype hdth] at hvalid
          cases hvalid
        rcases hq with hq | hq
        · obtain ⟨habove, hdiffer⟩ := diffPath_of_diffz_in_line (hplain g hrest) hother hq
          exact absurd (hunp.diffRoom f hfL hftype hfinflater _ (.inr habove) hdiffer)
            (hthere g (hsub g hrest) htype hinflater)
        · obtain ⟨habove, hdiffer⟩ := diffPath_of_diffz_in_line (hplain f hmem) hother.symm hq
          exact absurd (hunp.diffRoom g (hsub g hrest) htype hinflater _ (.inr habove) hdiffer)
            (hthere f hfL hftype hfinflater)
    · rw [hkept q hpath]
      exact h.diffRoom g hrest htype hinflater q hq hother

theorem NoClash.filesApart (h : NoClash w t stg dirs files diList) : FilesApart dirs diList :=
  ⟨h.old, h.new⟩

/-- The file of an entry that is done stays as it is. -/
theorem Unpacked.keeps_new (hdirs : DirsApart stg dirs)
    (hunp : Unpacked w t stg dirs files diList) (hf : f ∈ diList)
    (hsub : ∀ g ∈ rest, g ∈ diList) (hnew : f ∉ rest) (d : Disk) :
    (reconstructEntries w stg dirs rest d).2.files (newFileOf dirs f) =
      d.files (newFileOf dirs f) := by
  apply touches_reconstructEntries w stg dirs fun g hg => hunp.plain g (hsub g hg)
  rintro (hwork | ⟨g, hg, hsame⟩)
  · exact newFileOf_not_work stg hdirs (hunp.plain f hf) hwork
  · have heq := hunp.eq_of_name hf (hsub g hg)
      (newFileOf_injective (hunp.plain f hf) (hunp.plain g (hsub g hg)) hsame)
    exact hnew (heq ▸ hg)

/-- Without a clash every entry succeeds with its own result, whatever went before. -/
theorem NoClash.result_of_ready (hclash : NoClash w t stg dirs files diList)
    (hunp : Unpacked w t stg dirs files diList) (hf : f ∈ diList)
    (h : Ready t stg dirs files diList (f :: rest) d) :
    ∃ r, resultOn w t stg dirs files f = some r ∧
      entryResult w t stg dirs.pkgDir f (files (originalPath dirs f))
        (d.files (diffPathOf dirs f)) = some r := by
  have hsame := hclash.diff f hf _ (h.diff f List.mem_cons_self)
  rw [hsame]
  by_cases htype : f.type = .removed
  · refine ⟨none, ?_, ?_⟩ <;>
    · unfold resultOn
      rw [entryResult_removed htype, hclash.removed f hf htype, if_neg Bool.false_ne_true]
  · obtain ⟨r, hr⟩ := Option.isSome_iff_exists.mp (hunp.valid f hf htype)
    exact ⟨r, hr, hr⟩

theorem reconstructEntries_nil (d : Disk) : reconstructEntries w stg dirs [] d = (eUaOk, d) := rfl

theorem reconstructEntries_cons (f : DiffInfo) (rest : List DiffInfo) (d : Disk)
    (h : (reconstructEntry w stg dirs f d).1 = eUaOk) :
    reconstructEntries w stg dirs (f :: rest) d =
      reconstructEntries w stg dirs rest (reconstructEntry w stg dirs f d).2 := by
  rw [reconstructEntries, bind_run, ite_run, if_neg (not_not.mpr h)]

theorem reconstructEntries_fails (f : DiffInfo) (rest : List DiffInfo) (d : Disk)
    (h : (reconstructEntry w stg dirs f d).1 ≠ eUaOk) :
    (reconstructEntries w stg dirs (f :: rest) d).1 ≠ eUaOk := by
  rw [reconstructEntries, bind_run, ite_run, if_pos h]
  exact h

/-- The induction over the entries still to come. -/
theorem NoClash.run (hset : Settled w t) (hdirs : DirsApart stg dirs)
    (hunp : Unpacked w t stg dirs files diList) (hclash : NoClash w t stg dirs files diList)
    (hsub : ∀ g ∈ rest, g ∈ diList) (hnodup : rest.Nodup)
    (h : Ready t stg dirs files diList rest d) :
    (reconstructEntries w stg dirs rest d).1 = eUaOk ∧
    ∀ g ∈ rest, resultOn w t stg dirs files g =
      some ((reconstructEntries w stg dirs rest d).2.files (newFileOf dirs g)) := by
  induction rest generalizing d with
  | nil => exact ⟨rfl, fun g hg => nomatch hg⟩
  | cons f rest ih =>
      have hfL := hsub f List.mem_cons_self
      have hremoved := hclash.removed f hfL
      have hsubRest : ∀ g ∈ rest, g ∈ diList := fun g hg => hsub g (List.mem_cons_of_mem f hg)
      obtain ⟨r, hresult, hyields⟩ := hclash.result_of_ready hunp hfL h
      have hgives := h.gives hset hdirs hunp hfL hremoved
      rw [hyields] at hgives
      have hok : (reconstructEntry w stg dirs f d).1 = eUaOk := hgives.1.mpr rfl
      have hstep := h.step hset hdirs hunp hclash.filesApart hsub hnodup hremoved hok
      obtain ⟨hrun, hfiles⟩ := ih hsubRest (List.nodup_cons.mp hnodup).2 hstep
      rw [reconstructEntries_cons f rest d hok]
      refine ⟨hrun, fun g hg => ?_⟩
      rcases List.mem_cons.mp hg with hown | hg
      · subst hown
        rw [hunp.keeps_new hdirs hfL hsubRest (List.nodup_cons.mp hnodup).1, hresult,
          hgives.2 r rfl]
      · exact hfiles g hg

theorem NoClash.orderFree (hset : Settled w t) (hdirs : DirsApart stg dirs)
    (hunp : Unpacked w t stg dirs files diList) (hclash : NoClash w t stg dirs files diList) :
    OrderFree w stg dirs files diList := by
  have hnodup : diList.Nodup := List.Nodup.of_map _ hunp.distinct
  have hall : ∀ order : List DiffInfo, order.Perm diList → ∀ d : Disk, d.files = files →
      (reconstructEntries w stg dirs order d).1 = eUaOk ∧
      ∀ g ∈ diList, resultOn w t stg dirs files g =
        some ((reconstructEntries w stg dirs order d).2.files (newFileOf dirs g)) := by
    intro order hperm d hd
    have hready := (hunp.ready hd).of_subset fun g hg => hperm.mem_iff.mp hg
    obtain ⟨hok, hfiles⟩ := NoClash.run hset hdirs hunp hclash (fun g hg => hperm.mem_iff.mp hg)
      (hperm.nodup_iff.mpr hnodup) hready
    exact ⟨hok, fun g hg => hfiles g (hperm.mem_iff.mpr hg)⟩
  refine ⟨treeAt (reconstructEntries w stg dirs diList ⟨files, 0, none⟩).2.files
    (resolve dirs.newPath), fun order hperm d hd => ⟨(hall order hperm d hd).1, ?_⟩⟩
  funext q
  unfold treeAt
  have hfirst := (hall diList (List.Perm.refl _) ⟨files, 0, none⟩ rfl).2
  have hsecond := (hall order hperm d hd).2
  by_cases hown : ∃ g ∈ diList, resolve dirs.newPath ++ q = newFileOf dirs g
  · obtain ⟨g, hg, hpath⟩ := hown
    rw [hpath]
    exact Option.some.inj ((hsecond g hg).symm.trans (hfirst g hg))
  · have hwork : ¬ WorkPath stg dirs (resolve dirs.newPath ++ q) := by
      have hbelow : resolve dirs.newPath <+: resolve dirs.newPath ++ q := List.prefix_append _ _
      rintro (hwork | hwork | hwork)
      · exact hdirs.oldNew _ hwork hbelow
      · exact hdirs.diffNew _ hwork hbelow
      · exact hdirs.newArt _ hbelow hwork
    have hkept : ∀ order' : List DiffInfo, order'.Perm diList → ∀ d' : Disk,
        (reconstructEntries w stg dirs order' d').2.files (resolve dirs.newPath ++ q) =
          d'.files (resolve dirs.newPath ++ q) := by
      intro order' hperm' d'
      apply touches_reconstructEntries w stg dirs fun g hg => hunp.plain g (hperm'.mem_iff.mp hg)
      rintro (h | ⟨g, hg, hpath⟩)
      · exact hwork h
      · exact hown ⟨g, hperm'.mem_iff.mp hg, hpath⟩
    rw [hkept order hperm d, hkept diList (List.Perm.refl _), hd]

theorem reconstructEntries_append (first : List DiffInfo) (d : Disk)
    (h : (reconstructEntries w stg dirs (first ++ rest) d).1 = eUaOk) :
    (reconstructEntries w stg dirs first d).1 = eUaOk ∧
      reconstructEntries w stg dirs (first ++ rest) d =
        reconstructEntries w stg dirs rest (reconstructEntries w stg dirs first d).2 := by
  induction first generalizing d with
  | nil => exact ⟨rfl, rfl⟩
  | cons f first ih =>
      rw [List.cons_append] at h ⊢
      have hok : (reconstructEntry w stg dirs f d).1 = eUaOk := by
        by_contra hfail
        exact reconstructEntries_fails f _ d hfail h
      rw [reconstructEntries_cons f _ d hok] at h ⊢
      rw [reconstructEntries_cons f _ d hok]
      exact ih _ h

/-- The first entries of an order, whichever they are, succeed. -/
theorem OrderFree.starts (h : OrderFree w stg dirs files diList)
    {first : List DiffInfo} (hsub : ∀ g ∈ first, g ∈ diList) (hnodup : first.Nodup)
    (d : Disk) (hd : d.files = files) :
    ∃ rest, (first ++ rest).Perm diList ∧ (reconstructEntries w stg dirs first d).1 = eUaOk := by
  obtain ⟨front, hperm, hsublist⟩ := List.subperm_of_subset hnodup hsub
  obtain ⟨rest, hrest⟩ := hsublist.exists_perm_append
  have horder : (first ++ rest).Perm diList := (hperm.symm.append_right rest).trans hrest.symm
  obtain ⟨tree, htree⟩ := h
  exact ⟨rest, horder, (reconstructEntries_append first d (htree _ horder d hd).1).1⟩

/-- Two entries in a row. -/
theorem OrderFree.pair (h : OrderFree w stg dirs files diList) {e f : DiffInfo} (he : e ∈ diList)
    (hf : f ∈ diList) (hne : e ≠ f) (d : Disk) (hd : d.files = files) :
    (reconstructEntry w stg dirs e d).1 = eUaOk ∧
      (reconstructEntry w stg dirs f (reconstructEntry w stg dirs e d).2).1 = eUaOk := by
  have hsub : ∀ g ∈ [e, f], g ∈ diList := by
    intro g hg
    rcases List.mem_pair.mp hg with heq | heq
    · exact heq ▸ he
    · exact heq ▸ hf
  obtain ⟨_, _, hok⟩ := h.starts hsub (by simp [hne]) d hd
  have hfirst : (reconstructEntry w stg dirs e d).1 = eUaOk := by
    by_contra hfail
    exact reconstructEntries_fails e _ d hfail hok
  rw [reconstructEntries_cons e _ d hfirst] at hok
  refine ⟨hfirst, ?_⟩
  by_contra hfail
  exact reconstructEntries_fails f _ _ hfail hok

theorem Ready.run (hset : Settled w t) (hdirs : DirsApart stg dirs)
    (hunp : Unpacked w t stg dirs files diList) (hfiles : FilesApart dirs diList)
    (hremoved : ∀ g ∈ diList, g.type = .removed → g.nested = false) {first : List DiffInfo}
    (hsub : ∀ g ∈ first ++ rest, g ∈ diList) (hnodup : (first ++ rest).Nodup)
    (h : Ready t stg dirs files diList (first ++ rest) d)
    (hok : (reconstructEntries w stg dirs first d).1 = eUaOk) :
    Ready t stg dirs files diList rest (reconstructEntries w stg dirs first d).2 := by
  induction first generalizing d with
  | nil => exact h
  | cons f first ih =>
      have hfirst : (reconstructEntry w stg dirs f d).1 = eUaOk := by
        by_contra hfail
        exact reconstructEntries_fails f _ d hfail hok
      rw [reconstructEntries_cons f _ d hfirst] at hok ⊢
      exact ih (fun g hg => hsub g (List.mem_cons_of_mem f hg)) (List.nodup_cons.mp hnodup).2
        (h.step hset hdirs hunp hfiles hsub hnodup (hremoved f (hsub f List.mem_cons_self)) hfirst)
        hok

section Necessary

variable (hset : Settled w t) (hdirs : DirsApart stg dirs)
  (hunp : Unpacked w t stg dirs files diList) (h : OrderFree w stg dirs files diList)

include hset hdirs hunp h

theorem OrderFree.removed (hf : f ∈ diList) (htype : f.type = .removed) : f.nested = false := by
  have hready : Ready t stg dirs files diList diList ⟨files, 0, none⟩ := hunp.ready rfl
  obtain ⟨_, _, hok⟩ := h.starts (fun g hg => List.mem_singleton.mp hg ▸ hf)
    (List.nodup_singleton f) ⟨files, 0, none⟩ rfl
  have hfirst : (reconstructEntry w stg dirs f ⟨files, 0, none⟩).1 = eUaOk := by
    by_contra hfail
    exact reconstructEntries_fails f _ _ hfail hok
  have hgives := reconstructEntry_gives hset hdirs (hunp.plain f hf) (hready.new f hf)
    (fun _ => hunp.newRoom f hf) (hready.diffRoom f hf)
  have hsome := hgives.1.mp hfirst
  rw [entryResult_removed htype] at hsome
  cases hnested : f.nested with
  | false => rfl
  | true => simp [hnested] at hsome

theorem OrderFree.filesApart : FilesApart dirs diList := by
  constructor
  · intro e he f hf hne hnested hneeds hsame
    obtain ⟨_, hsecond⟩ := h.pair he hf hne ⟨files, 0, none⟩ rfl
    have hgone := (reconstructEntry_clears (w := w) hdirs (hunp.plain e he) ⟨files, 0, none⟩).2
      hnested
    change Disk.files _ (originalPath dirs e) = none at hgone
    rw [hsame] at hgone
    exact reconstructEntry_without_old hset hdirs (hunp.plain f hf) hneeds hgone hsecond
  · intro e he f hf hne hetype hftype habove
    obtain ⟨hfirst, hsecond⟩ := h.pair he hf hne ⟨files, 0, none⟩ rfl
    have hready : Ready t stg dirs files diList diList ⟨files, 0, none⟩ := hunp.ready rfl
    have hgives := reconstructEntry_gives hset hdirs (hunp.plain e he) (hready.new e he)
      (fun _ => hunp.newRoom e he) (hready.diffRoom e he)
    obtain ⟨r, hr⟩ := Option.isSome_iff_exists.mp (hgives.1.mp hfirst)
    have hmade := entryResult_some_isSome hetype hr
    rw [← hgives.2 r hr] at hmade
    refine reconstructEntry_blocked hset hdirs (hunp.plain f hf) hftype (fun hroom => ?_) hsecond
    have hdiffer : newFileOf dirs e ≠ newFileOf dirs f := fun hsame =>
      hne (hunp.eq_of_name he hf (newFileOf_injective (hunp.plain e he) (hunp.plain f hf) hsame))
    rw [hroom _ (.inl habove) hdiffer] at hmade
    cases hmade

/-- Each content a diff may hold is there after some of the other entries. -/
theorem OrderFree.seen {content : Option Bytes} (hf : f ∈ diList)
    (hseen : DiffSeen t stg dirs files diList f content) :
    ∃ first : List DiffInfo, (∀ g ∈ first, g ∈ diList ∧
        (g.name.getD "").length < (f.name.getD "").length) ∧ first.Nodup ∧
      (reconstructEntries w stg dirs first ⟨files, 0, none⟩).2.files (diffPathOf dirs f) =
        content := by
  induction hseen with
  | unpacked di =>
      refine ⟨[], fun g hg => absurd hg List.not_mem_nil, List.nodup_nil, ?_⟩
      rw [reconstructEntries_nil]
  | inflated e f dth content he htype hinflater hseen hpath ih =>
      obtain ⟨first, hfirst, hnodup, hcontent⟩ := ih he
      have hlonger : (e.name.getD "").length < (f.name.getD "").length := by
        obtain ⟨name, hname, hplain⟩ := (hunp.plain e he).name
        obtain ⟨name', hname', hplain'⟩ := (hunp.plain f hf).name
        unfold diffPathOf diffzPathOf diffFileOf at hpath
        rw [hname, hname', joinParts_one, joinParts_one, join_append, resolve_join_plain hplain',
          resolve_join_plain (plain_append_z hplain)] at hpath
        have hsame : name' = name ++ ".z" := components_injective (List.append_cancel_left hpath)
        have hz : ".z".length = 2 := by decide
        rw [hname, hname', Option.getD_some, Option.getD_some, hsame, String.length_append]
        omega
      have hnew : e ∉ first := fun hmem => Nat.lt_irrefl _ (hfirst e hmem).2
      have hnodup' : (first ++ [e]).Nodup :=
        List.nodup_append.mpr ⟨hnodup, List.nodup_singleton e, fun a ha b hb heq =>
          hnew (List.mem_singleton.mp hb ▸ heq ▸ ha)⟩
      have hsub : ∀ g ∈ first ++ [e], g ∈ diList := by
        intro g hg
        rcases List.mem_append.mp hg with hg | hg
        · exact (hfirst g hg).1
        · exact List.mem_singleton.mp hg ▸ he
      obtain ⟨_, _, hok⟩ := h.starts hsub hnodup' ⟨files, 0, none⟩ rfl
      obtain ⟨hrun, hsplit⟩ := reconstructEntries_append first _ hok
      have hstart : Ready t stg dirs files diList diList ⟨files, 0, none⟩ := hunp.ready rfl
      have hready := Ready.run hset hdirs hunp (h.filesApart hset hdirs hunp)
        (fun g hg htype => h.removed hset hdirs hunp hg htype) hsub hnodup'
        (hstart.of_subset hsub) hrun
      rw [hsplit] at hok
      have hdone : (reconstructEntry w stg dirs e
          (reconstructEntries w stg dirs first ⟨files, 0, none⟩).2).1 = eUaOk := by
        by_contra hfail
        exact reconstructEntries_fails e _ _ hfail hok
      have hmem : e ∈ [e] := List.mem_singleton_self e
      refine ⟨first ++ [e], fun g hg => ?_, hnodup', ?_⟩
      · rcases List.mem_append.mp hg with hg | hg
        · exact ⟨(hfirst g hg).1, (hfirst g hg).2.trans hlonger⟩
        · rw [List.mem_singleton.mp hg]
          exact ⟨he, hlonger⟩
      · have hinflated := reconstructEntry_inflates hset hdirs (hunp.plain e he) htype hinflater
          (hready.diffRoom e hmem htype (by rw [hinflater]; rfl)) hdone
        unfold diffPathOf at hcontent
        rw [hcontent] at hinflated
        rw [hsplit, reconstructEntries_cons e _ _ hdone, reconstructEntries_nil, hpath, ← hinflated]
        rfl

omit hset in
/-- The new file of an entry is the same whether it comes first or after some others. -/
theorem OrderFree.same_new {first : List DiffInfo} (hf : f ∈ diList)
    (hsub : ∀ g ∈ first ++ [f], g ∈ diList) (hnodup : (first ++ [f]).Nodup) :
    (reconstructEntries w stg dirs (first ++ [f]) ⟨files, 0, none⟩).2.files (newFileOf dirs f) =
      (reconstructEntries w stg dirs [f] ⟨files, 0, none⟩).2.files (newFileOf dirs f) := by
  obtain ⟨name, hname, _, hfile⟩ := (hunp.plain f hf).resolve_file dirs.newPath
  have htreeAt : ∀ first' : List DiffInfo, (∀ g ∈ first' ++ [f], g ∈ diList) →
      (first' ++ [f]).Nodup → ∀ tree : Files Bytes,
      (∀ order : List DiffInfo, order.Perm diList → ∀ d : Disk, d.files = files →
        (reconstructEntries w stg dirs order d).1 = eUaOk ∧
          treeAt (reconstructEntries w stg dirs order d).2.files (resolve dirs.newPath) = tree) →
      (reconstructEntries w stg dirs (first' ++ [f]) ⟨files, 0, none⟩).2.files (newFileOf dirs f) =
        tree (components name) := by
    intro first' hsub' hnodup' tree htree
    obtain ⟨rest', hperm, _⟩ := h.starts hsub' hnodup' ⟨files, 0, none⟩ rfl
    obtain ⟨hok, hsame⟩ := htree _ hperm ⟨files, 0, none⟩ rfl
    have hnew : f ∉ rest' := by
      have hall : (first' ++ [f] ++ rest').Nodup :=
        hperm.nodup_iff.mpr (List.Nodup.of_map _ hunp.distinct)
      intro hmem
      have hapart := (List.nodup_append.mp hall).2.2 f (by simp) f hmem
      exact hapart rfl
    have hrest : ∀ g ∈ rest', g ∈ diList := fun g hg =>
      hperm.mem_iff.mp (List.mem_append_right _ hg)
    obtain ⟨_, hsplit⟩ := reconstructEntries_append (first' ++ [f]) _ hok
    rw [← hsame]
    unfold treeAt
    rw [hsplit, ← hfile]
    exact (hunp.keeps_new hdirs hf hrest hnew _).symm
  obtain ⟨tree, htree⟩ := h
  have hsingle : ∀ g ∈ [] ++ [f], g ∈ diList := fun g hg => List.mem_singleton.mp hg ▸ hf
  rw [htreeAt first hsub hnodup tree htree]
  exact (htreeAt [] hsingle (List.nodup_singleton f) tree htree).symm

theorem OrderFree.noClash : NoClash w t stg dirs files diList := by
  have hfiles := h.filesApart hset hdirs hunp
  have hremoved : ∀ g ∈ diList, g.type = .removed → g.nested = false :=
    fun g hg htype => h.removed hset hdirs hunp hg htype
  refine ⟨hremoved, hfiles.old, fun f hf content hseen => ?_, hfiles.new⟩
  obtain ⟨first, hfirst, hnodup, hcontent⟩ := h.seen hset hdirs hunp hf hseen
  have hnew : f ∉ first := fun hmem => Nat.lt_irrefl _ (hfirst f hmem).2
  have hnodup' : (first ++ [f]).Nodup :=
    List.nodup_append.mpr ⟨hnodup, List.nodup_singleton f, fun a ha b hb heq =>
      hnew (List.mem_singleton.mp hb ▸ heq ▸ ha)⟩
  have hsub : ∀ g ∈ first ++ [f], g ∈ diList := by
    intro g hg
    rcases List.mem_append.mp hg with hg | hg
    · exact (hfirst g hg).1
    · exact List.mem_singleton.mp hg ▸ hf
  have hsame := h.same_new hdirs hunp hf hsub hnodup'
  have hstart : Ready t stg dirs files diList diList ⟨files, 0, none⟩ := hunp.ready rfl
  have hdone : ∀ (d : Disk), (reconstructEntries w stg dirs [f] d).1 = eUaOk →
      (reconstructEntry w stg dirs f d).1 = eUaOk ∧ reconstructEntries w stg dirs [f] d =
        reconstructEntries w stg dirs [] (reconstructEntry w stg dirs f d).2 := by
    intro d hok
    have hentry : (reconstructEntry w stg dirs f d).1 = eUaOk := by
      by_contra hfail
      exact reconstructEntries_fails f _ _ hfail hok
    exact ⟨hentry, reconstructEntries_cons f _ _ hentry⟩
  -- the entry on its own
  obtain ⟨_, _, halone⟩ := h.starts (fun g hg => List.mem_singleton.mp hg ▸ hf)
    (List.nodup_singleton f) ⟨files, 0, none⟩ rfl
  obtain ⟨hentry, hrun⟩ := hdone _ halone
  have hsingle : Ready t stg dirs files diList [f] ⟨files, 0, none⟩ :=
    hstart.of_subset fun g hg => List.mem_singleton.mp hg ▸ hf
  have hgives := hsingle.gives hset hdirs hunp hf (hremoved f hf)
  obtain ⟨r, hr⟩ := Option.isSome_iff_exists.mp (hgives.1.mp hentry)
  -- the entry after those that lead to the content
  obtain ⟨_, _, hlater⟩ := h.starts hsub hnodup' ⟨files, 0, none⟩ rfl
  obtain ⟨hfirstRun, hsplit⟩ := reconstructEntries_append first _ hlater
  have hready := Ready.run hset hdirs hunp hfiles hremoved hsub hnodup' (hstart.of_subset hsub)
    hfirstRun
  rw [hsplit] at hlater hsame
  obtain ⟨hentry', hrun'⟩ := hdone _ hlater
  have hgives' := hready.gives hset hdirs hunp hf (hremoved f hf)
  rw [hcontent] at hgives'
  obtain ⟨r', hr'⟩ := Option.isSome_iff_exists.mp (hgives'.1.mp hentry')
  rw [hrun, hrun', reconstructEntries_nil, reconstructEntries_nil] at hsame
  have heq : r' = r := (hgives'.2 r' hr').symm.trans (hsame.trans (hgives.2 r hr))
  rw [hr', heq]
  exact hr.symm

end Necessary

/-- Exactly the manifests without a clash are reconstructed in every order, to one tree. -/
theorem order_free_iff (hset : Settled w t) (hdirs : DirsApart stg dirs)
    (hunp : Unpacked w t stg dirs files diList) :
    OrderFree w stg dirs files diList ↔ NoClash w t stg dirs files diList :=
  ⟨fun h => h.noClash hset hdirs hunp, fun h => h.orderFree hset hdirs hunp⟩

end Runs

section Samples

/-- No tool is there; copies work where there is room. -/
def noTools : Tools where
  inflate _ _ := none
  patch _ _ _ := none
  mkfsTime _ := none
  unsquash _ _ := none
  mksquash _ _ _ _ := none

noncomputable def bareWorld : World where
  package _ _ := none
  xmlReadFile _ := none
  sha256Hex := DeltaIntegrity.sampleSha256
  answer _ files
    | .copyFile _ dst =>
        have := Classical.propDecidable (Room files (resolve dst))
        if Room files (resolve dst) then none else some (files (resolve dst))
    | .newdirp _ | .zip _ _ => true
    | .unzip _ _ => none
    | .decompress _ _ output | .patch _ _ output _ | .mksquash _ output _ =>
        (false, files (resolve output))
    | .mkfsTime _ => none
    | .unsquash _ _ => (false, fun _ => none)

theorem bareWorld_settled : Settled bareWorld noTools where
  copy := by
    intro n files src dst
    unfold bareWorld
    dsimp only
    split
    · rename_i hroom
      exact ⟨fun _ => hroom, fun _ => rfl⟩
    · rename_i hroom
      exact ⟨nofun, fun h => absurd h hroom⟩
  inflate := by
    intro n files tool diff diffp _
    change Agrees _ (((files (resolve diff)).bind fun _ => none).map some)
    rw [Option.bind_fun_none]
    rfl
  patch := by
    intro n files tool old new diff _
    change Agrees _ (((files (resolve old)).bind fun _ =>
      (files (resolve diff)).bind fun _ => none).map some)
    rw [Option.bind_fun_none, Option.bind_fun_none]
    rfl
  patchBlocked := fun _ _ _ _ _ _ _ => rfl
  mkfsTime := by
    intro n files file
    change none = (files (resolve file)).bind fun _ => none
    rw [Option.bind_fun_none]
  unsquash := by
    intro n files dir file
    change Agrees _ ((files (resolve file)).bind fun _ => none)
    rw [Option.bind_fun_none]
    rfl
  mksquash := fun _ _ _ _ _ => rfl
  mksquashSelf := fun _ _ _ => rfl

def sampleDirs : Dirs := dirsOf DeltaIntegrity.sampleStg "/diff.zip"

/-- One file of each type; only the added and the changed one have a diff. -/
def sampleFiles (q : Path) : Option Bytes :=
  if q = resolve "/cache/delta/diff/old/b" then some [1]
  else if q = resolve "/cache/delta/diff/old/dir/c" then some [3]
  else if q = resolve "/cache/delta/diff/old/d" then some [1]
  else if q = resolve "/cache/delta/diff/diff/a" then some [1]
  else if q = resolve "/cache/delta/diff/diff/b" then some [2]
  else none

def sampleEntries : List DiffInfo := (parseDiffManifest DeltaIntegrity.sampleManifest).getD []

/-- Two files that keep the content of one old file. -/
def sharingEntries : List DiffInfo :=
  let copyOf (name : String) : DiffInfo := { DiffInfo.zero .unchanged with
    name := some name
    oldName := some "b"
    sha256Old := ⟨DeltaIntegrity.sampleSha256 [1], by decide⟩ }
  [copyOf "b", copyOf "e"]

theorem sampleFiles_newTree (q : Path)
    (hq : resolve sampleDirs.newPath <+: q ∨ q <+: resolve sampleDirs.newPath) :
    sampleFiles q = none := by
  unfold sampleFiles
  split
  · subst q
    exact absurd hq (by decide)
  split
  · subst q
    exact absurd hq (by decide)
  split
  · subst q
    exact absurd hq (by decide)
  split
  · subst q
    exact absurd hq (by decide)
  split
  · subst q
    exact absurd hq (by decide)
  · rfl

theorem no_inflater (di : DiffInfo) : inflaterOf DeltaIntegrity.sampleStg di = none := by
  unfold inflaterOf inflater patchdth
  split
  · split <;> rfl
  · rfl

theorem no_inflated_room {files : Files Bytes} (di : DiffInfo)
    (hinflater : (inflaterOf DeltaIntegrity.sampleStg di).isSome) :
    Room files (diffzPathOf sampleDirs di) := by
  rw [no_inflater] at hinflater
  cases hinflater

theorem sampleEntries_unpacked :
    Unpacked bareWorld noTools DeltaIntegrity.sampleStg sampleDirs sampleFiles sampleEntries where
  plain := by decide +kernel
  distinct := by decide +kernel
  newTree := sampleFiles_newTree
  valid := by decide +kernel
  diffRoom := fun f _ _ hinflater => no_inflated_room f hinflater

theorem sharingEntries_unpacked :
    Unpacked bareWorld noTools DeltaIntegrity.sampleStg sampleDirs sampleFiles sharingEntries where
  plain := by decide +kernel
  distinct := by decide +kernel
  newTree := sampleFiles_newTree
  valid := by decide +kernel
  diffRoom := fun f _ _ hinflater => no_inflated_room f hinflater

theorem sampleEntries_noClash :
    NoClash bareWorld noTools DeltaIntegrity.sampleStg sampleDirs sampleFiles sampleEntries where
  removed := by decide +kernel
  old := by
    unfold NeedsOld
    decide +kernel
  diff := by
    intro f hf content hseen
    cases hseen with
    | unpacked => rfl
    | inflated e f dth content he htype hinflater =>
        rw [no_inflater] at hinflater
        cases hinflater
  new := by decide +kernel

theorem order_free_example :
    OrderFree bareWorld DeltaIntegrity.sampleStg sampleDirs sampleFiles sampleEntries :=
  (order_free_iff bareWorld_settled (dirsOf_apart _ (by decide)) sampleEntries_unpacked).mpr
    sampleEntries_noClash

/-- Two valid entries that use one old file: the second finds it removed. -/
theorem shared_old_file_clashes :
    Settled bareWorld noTools ∧ DirsApart DeltaIntegrity.sampleStg sampleDirs ∧
      Unpacked bareWorld noTools DeltaIntegrity.sampleStg sampleDirs sampleFiles sharingEntries ∧
      ¬ OrderFree bareWorld DeltaIntegrity.sampleStg sampleDirs sampleFiles sharingEntries := by
  have hdirs : DirsApart DeltaIntegrity.sampleStg sampleDirs := dirsOf_apart _ (by decide)
  refine ⟨bareWorld_settled, hdirs, sharingEntries_unpacked, fun h => ?_⟩
  have hfiles := h.filesApart bareWorld_settled hdirs sharingEntries_unpacked
  refine hfiles.old _ List.mem_cons_self _ (List.mem_cons_of_mem _ List.mem_cons_self)
    (fun heq => ?_) rfl (.inr (.inl rfl)) rfl
  exact absurd (congrArg DiffInfo.name heq) (by decide)

end Samples

end EsyncUa.DeltaOrder
