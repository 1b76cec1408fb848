import EsyncUa.FileWorlds

/-!
Whether an entry that add_pkg_file_manifest has been asked for is found again. The reader wants
a version, a path and a digest of the full length, and takes each as libxml stores it; an entry
that is not written leaves the entries of before.
-/
namespace EsyncUa.EntryLookups

open EsyncUa.JsonProperties EsyncUa.Components EsyncUa.Programs EsyncUa.Operations
open EsyncUa.FilePaths EsyncUa.PackageDigests EsyncUa.PackageManifests EsyncUa.FileWorlds

variable {β : Type}

/-- No document with a text that XML excludes can be read again. -/
def RejectsOthers (xml : Libxml β) : Prop :=
  ∀ doc : Doc, (∀ node ∈ doc, node.Named) → xml.xmlReadFile (xml.xmlSave doc) ≠ none →
    ∀ node ∈ doc, node.Textual

theorem sampleFileXml_rejects : RejectsOthers sampleFileXml := by
  intro doc _ hread node hnode
  by_contra hnot
  exact hread (if_neg fun hdoc => hnot (hdoc node hnode).2)

/-- The reader takes the entry of the package file, as one for this path. -/
structure ReadAs (xml : Libxml β) (pkgFile : PkgFile) (version file : String) : Prop where
  version_set : version ≠ ""
  version_read : xml.nodeText version = version
  file_set : file ≠ ""
  file_read : pkgFile.file.map xml.nodeText = some file
  sha256 : (xml.nodeText pkgFile.sha256b64.val).utf8ByteSize = sha256B64Length - 1
  text : (newPackage xml pkgFile).Textual

theorem readEntry_file {xml : Libxml β} {pkgFile : PkgFile} {version file : String}
    (h : ReadAs xml pkgFile version file) : (readEntry xml pkgFile).file = some file := by
  simp [readEntry, h.file_read]

section Readers

variable {xml : Libxml β} {pkgFile : PkgFile} {version file : String} {root : Doc}

theorem getPkgFileManifest_found_iff {xmlFile : Option β} {pf : PkgFile} :
    getPkgFileManifest xml true xmlFile version = .found pf ↔
      ∃ content root, xmlFile = some content ∧ xml.xmlReadFile content = some root ∧
        getXmlVersionPkgFile root version = some pf := by
  constructor
  · intro h
    cases xmlFile with
    | none => cases h
    | some content =>
        cases hread : xml.xmlReadFile content with
        | none =>
            simp only [getPkgFileManifest, hread, Bool.not_true, Bool.false_eq_true, if_false,
              Option.bind_none] at h
            cases h
        | some root =>
            rw [getPkgFileManifest_of_read hread] at h
            cases hfound : getXmlVersionPkgFile root version with
            | none =>
                rw [hfound] at h
                cases h
            | some pf' =>
                rw [hfound] at h
                cases h
                exact ⟨content, root, rfl, hread, hfound⟩
  · rintro ⟨content, root, rfl, hread, hfound⟩
    rw [getPkgFileManifest_of_read hread, hfound]

theorem sha256xcmp_computed {digest : Calculated} {sha : Sha256B64}
    (h : sha256xcmp digest sha = 0) : Computed sha := by
  rcases (sha256xcmp_zero_iff digest sha).mp h with ⟨d, _, hd⟩ | ⟨_, hempty⟩
  · exact .inr ⟨d, hd.symm⟩
  · exact .inl hempty

theorem hasVersion_newPackage (hversion : pkgFile.version = some version) :
    hasVersion version (newPackage xml pkgFile) = decide (xml.nodeText version = version) := by
  simp [hasVersion, newPackage, newChild, Node.child?, hversion]

/-- The entry that has been written is what the lookup finds, if the reader takes it. -/
theorem written_found_iff (hxml : xml.Documented) (hrejects : RejectsOthers xml)
    (hroot : XmlDoc root) (hversion : pkgFile.version = some version)
    (h : Computed pkgFile.shaOfSha) {pf : PkgFile} :
    getPkgFileManifest xml true (some (xml.xmlSave
        (root.filterMap (editPackage (some version)) ++ [newPackage xml pkgFile]))) version =
          .found pf ↔
      (∃ file, ReadAs xml pkgFile version file) ∧ pf = readEntry xml pkgFile := by
  have hlookup : getXmlVersionPkgFile
      (root.filterMap (editPackage (some version)) ++ [newPackage xml pkgFile]) version =
        if xml.nodeText version = version then getXmlPkgFile (newPackage xml pkgFile)
        else none := by
    rw [getXmlVersionPkgFile_append, getXmlVersionPkgFile_none (edit_hasVersion version root),
      hasVersion_newPackage hversion, Option.none_or]
    simp only [decide_eq_true_eq]
  have hnamed : ∀ node ∈ root.filterMap (editPackage (some version)) ++ [newPackage xml pkgFile],
      node.Named := by
    intro node hnode
    rcases List.mem_append.mp hnode with hold | hnew
    · exact (edit_doc hroot _ node hold).1
    · rw [List.mem_singleton.mp hnew]
      exact newPackage_named xml pkgFile
  rw [getPkgFileManifest_found_iff]
  constructor
  · rintro ⟨content, doc, hcontent, hread, hfound⟩
    cases hcontent
    have htext := hrejects _ hnamed (Option.ne_none_iff_exists'.mpr ⟨_, hread⟩) _
      (List.mem_append_right _ List.mem_cons_self)
    rw [hxml.read_save _ (added_doc hroot htext _)] at hread
    cases hread
    rw [hlookup] at hfound
    split at hfound
    · rename_i hsame
      have hread : pkgFile.version.map xml.nodeText = some version := by
        rw [hversion, Option.map_some, hsame]
      obtain ⟨hset, ⟨file, hfile, hmap⟩, hfull, rfl⟩ :=
        (getXmlPkgFile_some_iff hxml h hread).mp hfound
      exact ⟨⟨file, hset, hsame, hfile, hmap, hfull, htext⟩, rfl⟩
    · cases hfound
  · rintro ⟨⟨file, hentry⟩, rfl⟩
    refine ⟨_, _, rfl, hxml.read_save _ (added_doc hroot hentry.text _), ?_⟩
    rw [hlookup, if_pos hentry.version_read]
    have hread : pkgFile.version.map xml.nodeText = some version := by
      rw [hversion, Option.map_some, hentry.version_read]
    exact (getXmlPkgFile_some_iff hxml h hread).mpr
      ⟨hentry.version_set, ⟨file, hentry.file_set, hentry.file_read⟩, hentry.sha256, rfl⟩

theorem openDoc_doc (hxml : xml.Documented) (calls : AddCalls β) (before : Option β) :
    XmlDoc (openDoc xml calls before) := by
  unfold openDoc
  split
  · cases hread : before.bind xml.xmlReadFile with
    | none => simp [XmlDoc]
    | some root =>
        obtain ⟨content, _, hroot⟩ := Option.bind_eq_some_iff.mp hread
        exact hxml.read_text content root hroot
  · simp [XmlDoc]

end Readers

section Additions

variable (calls : AddCalls β) (digest : Calculated) (before : Option β) (pkgFile : PkgFile)

/-- The digest is the one expected and the file is saved. -/
def EntryWritten : Prop := sha256xcmp digest pkgFile.shaOfSha = 0 ∧ calls.saves = true

instance : Decidable (EntryWritten calls digest pkgFile) :=
  inferInstanceAs (Decidable (_ ∧ _))

/-- What the manifest holds where the entry is not written. -/
def leftManifest : Option β :=
  if sha256xcmp digest pkgFile.shaOfSha = 0 ∧ calls.chkdirp = true then
    calls.xmlSaveFormatFileEnc.getD before
  else before

variable {calls digest before pkgFile} {xml : Libxml β}

theorem addPkgFileManifest_written (h : EntryWritten calls digest pkgFile) :
    (addPkgFileManifest xml calls digest before pkgFile).xmlFile = some (xml.xmlSave
      ((openDoc xml calls before).filterMap (editPackage pkgFile.version) ++
        [newPackage xml pkgFile])) := by
  obtain ⟨hcmp, hsaves⟩ := h
  simp only [AddCalls.saves, Bool.and_eq_true, Option.isNone_iff_eq_none] at hsaves
  simp [addPkgFileManifest, hcmp, hsaves.1, hsaves.2]

theorem addPkgFileManifest_left (h : ¬ EntryWritten calls digest pkgFile) :
    (addPkgFileManifest xml calls digest before pkgFile).xmlFile =
      leftManifest calls digest before pkgFile := by
  unfold addPkgFileManifest leftManifest
  by_cases hcmp : sha256xcmp digest pkgFile.shaOfSha = 0
  · have hsaves : ¬ calls.saves = true := fun hsaves => h ⟨hcmp, hsaves⟩
    cases hdir : calls.chkdirp with
    | false => simp [hcmp]
    | true =>
        cases hsave : calls.xmlSaveFormatFileEnc with
        | none => exact absurd (by simp [AddCalls.saves, hdir, hsave]) hsaves
        | some left => simp [hcmp]
  · simp [hcmp]

/-- What a lookup of the version finds after the call: the entry asked for if it has been
written, and otherwise one that the manifest had or that the failing save has left. -/
theorem added_found_iff (hxml : xml.Documented) (hrejects : RejectsOthers xml)
    {version : String} (hversion : pkgFile.version = some version) {pf : PkgFile} :
    getPkgFileManifest xml true (addPkgFileManifest xml calls digest before pkgFile).xmlFile
        version = .found pf ↔
      EntryWritten calls digest pkgFile ∧ (∃ file, ReadAs xml pkgFile version file) ∧
          pf = readEntry xml pkgFile ∨
        ¬ EntryWritten calls digest pkgFile ∧ getPkgFileManifest xml true
          (leftManifest calls digest before pkgFile) version = .found pf := by
  by_cases hwritten : EntryWritten calls digest pkgFile
  · rw [addPkgFileManifest_written hwritten, hversion,
      written_found_iff hxml hrejects (openDoc_doc hxml _ _) hversion
        (sha256xcmp_computed hwritten.1)]
    simp [hwritten]
  · rw [addPkgFileManifest_left hwritten]
    simp [hwritten]

end Additions

end EsyncUa.EntryLookups
