import EsyncUa.Operations
import EsyncUa.PackageDigests

/-!
The manifest of packages, an XML file with one element for each package.
The functions that add and look up an entry run over the elements below the root and the text
fields of each. What libxml reads and writes is not its own; a saved document is read again
as it was. An entry goes in only behind the check of its digest, in place of all entries of
its version.
-/
namespace EsyncUa.PackageManifests

open EsyncUa.JsonProperties EsyncUa.Components EsyncUa.Operations
open EsyncUa.PackageDigests

/-- An element below the root, with the name and the text of each element in it. -/
structure Node where
  name : String
  fields : List (String × String)
  deriving DecidableEq

/-- The elements below the root. -/
abbrev Doc := List Node

/-- The text of the first child of this name; xmlNodeGetContent finds a text in every one. -/
def Node.child? (node : Node) (name : String) : Option String :=
  (node.fields.find? fun n => n.1 = name).map Prod.snd

/-- xmlNodeSetContent of the first child of this name. -/
def setFirst (name content : String) : List (String × String) → List (String × String)
  | [] => []
  | n :: fields =>
      if n.1 = name then (name, content) :: fields else n :: setFirst name content fields

/-- What is used of libxml, on files that hold something of the type `β`. `nodeText` is the text
of a child made with some content, which may refer to entities. -/
structure Libxml (β : Type) where
  xmlReadFile : β → Option Doc
  xmlSave : Doc → β
  nodeText : String → String

variable {β : Type}

def isXmlChar (c : Char) : Bool :=
  c = '\t' || c = '\n' || c = '\r' || (32 ≤ c.toNat && c.toNat ≠ 65534 && c.toNat ≠ 65535)

def isMetaChar (c : Char) : Bool :=
  c = '&' || c = '<' || c = '>' || c = '"' || c = '\''

def isPlainChar (c : Char) : Bool := isXmlChar c && !isMetaChar c

/-- The characters that a name may begin with. -/
def nameStartRanges : List (Nat × Nat) :=
  [(0x3a, 0x3a), (0x41, 0x5a), (0x5f, 0x5f), (0x61, 0x7a), (0xc0, 0xd6), (0xd8, 0xf6),
    (0xf8, 0x2ff), (0x370, 0x37d), (0x37f, 0x1fff), (0x200c, 0x200d), (0x2070, 0x218f),
    (0x2c00, 0x2fef), (0x3001, 0xd7ff), (0xf900, 0xfdcf), (0xfdf0, 0xfffd), (0x10000, 0xeffff)]

/-- The characters that only the rest of a name may have. -/
def nameRestRanges : List (Nat × Nat) :=
  [(0x2d, 0x2e), (0x30, 0x39), (0xb7, 0xb7), (0x300, 0x36f), (0x203f, 0x2040)]

def inRanges (ranges : List (Nat × Nat)) (c : Char) : Bool :=
  ranges.any fun r => r.1 ≤ c.toNat && c.toNat ≤ r.2

/-- A name that an element can have. The prefix `xml` is bound in every document, so it never
is a part of the name. -/
def XmlName (s : String) : Prop :=
  s.toList ≠ [] ∧ s.toList.head?.all (inRanges nameStartRanges) ∧
    s.toList.all (inRanges (nameStartRanges ++ nameRestRanges)) ∧ ¬ "xml:".toList <+: s.toList

instance (s : String) : Decidable (XmlName s) := inferInstanceAs (Decidable (_ ∧ _ ∧ _ ∧ _))

/-- A text that a document can hold. -/
def XmlText (s : String) : Prop := s.toList.all isXmlChar

instance (s : String) : Decidable (XmlText s) := inferInstanceAs (Decidable (_ = true))

/-- A text that a document can hold, without characters that have a meaning in XML. -/
def XmlPlain (s : String) : Prop := s.toList.all isPlainChar

instance (s : String) : Decidable (XmlPlain s) := inferInstanceAs (Decidable (_ = true))

/-- The element and those in it have names of XML. -/
def Node.Named (node : Node) : Prop := XmlName node.name ∧ ∀ n ∈ node.fields, XmlName n.1

instance (node : Node) : Decidable node.Named := inferInstanceAs (Decidable (_ ∧ _))

def Node.Textual (node : Node) : Prop := ∀ n ∈ node.fields, XmlText n.2

instance (node : Node) : Decidable node.Textual :=
  inferInstanceAs (Decidable (∀ n ∈ node.fields, XmlText n.2))

/-- What can be the content of an XML file. -/
def XmlDoc (doc : Doc) : Prop := ∀ node ∈ doc, node.Named ∧ node.Textual

instance (doc : Doc) : Decidable (XmlDoc doc) :=
  inferInstanceAs (Decidable (∀ node ∈ doc, node.Named ∧ node.Textual))

/-- libxml reads what it has written, and a plain text stands for itself. -/
structure Libxml.Documented (xml : Libxml β) : Prop where
  read_save : ∀ doc, XmlDoc doc → xml.xmlReadFile (xml.xmlSave doc) = some doc
  read_text : ∀ content doc, xml.xmlReadFile content = some doc → XmlDoc doc
  nodeText_plain : ∀ s, XmlPlain s → xml.nodeText s = s

def isspace (c : Char) : Bool :=
  c = ' ' || c = '\t' || c = '\n' || c = '\x0b' || c = '\x0c' || c = '\r'

def digitsValue : List Char → Nat → Nat
  | c :: cs, n => if c.isDigit then digitsValue cs (10 * n + (c.toNat - 48)) else n
  | [], n => n

/-- strtol to the base of ten. -/
def strtol (text : String) : Int64 :=
  let chars := text.toList.dropWhile isspace
  match chars with
  | '-' :: cs => Int64.ofInt (max (-(digitsValue cs 0 : Int)) Int64.minValue.toInt)
  | '+' :: cs => Int64.ofInt (min (digitsValue cs 0 : Int) Int64.maxValue.toInt)
  | cs => Int64.ofInt (min (digitsValue cs 0 : Int) Int64.maxValue.toInt)

section Reader

/-- The digest buffers take a text of the full length only. -/
def readDigest (c : String) : Option Sha256B64 :=
  if c.utf8ByteSize = sha256B64Length - 1 then some (.copy c) else none

/-- One child of a package element: the first digest, version and file count, but the last of
the others. -/
def readField (pkgFile : PkgFile) (n : String × String) : PkgFile :=
  if n.1 = "sha256" then
    if pkgFile.sha256b64.val = "" then
      { pkgFile with sha256b64 := (readDigest n.2).getD pkgFile.sha256b64 }
    else pkgFile
  else if n.1 = "sha-of-sha" then
    { pkgFile with shaOfSha := (readDigest n.2).getD pkgFile.shaOfSha }
  else if n.1 = "version" then { pkgFile with version := pkgFile.version.or (some n.2) }
  else if n.1 = "file" then { pkgFile with file := pkgFile.file.or (some n.2) }
  else if n.1 = "downloaded" then { pkgFile with downloaded := (strtol n.2).toInt32 }
  else if n.1 = "rollback-order" then { pkgFile with rollbackOrder := (strtol n.2).toInt32 }
  else pkgFile

/-- get_xml_pkg_file. -/
def getXmlPkgFile (ptr : Node) : Option PkgFile :=
  let pkgFile := ptr.fields.foldl readField PkgFile.zero
  if isSet pkgFile.file && isSet pkgFile.version && pkgFile.sha256b64.val ≠ "" then some pkgFile
  else none

/-- A package element of this version. -/
def hasVersion (version : String) (node : Node) : Bool :=
  node.name = "package" && node.child? "version" = some version

/-- get_xml_version_pkg_file, which goes on after an incomplete entry. -/
def getXmlVersionPkgFile (root : Doc) (version : String) : Option PkgFile :=
  root.findSome? fun node => if hasVersion version node then getXmlPkgFile node else none

/-- get_pkg_file_manifest on the content of the file, and whether it may be read. -/
def getPkgFileManifest (xml : Libxml β) (readable : Bool) (xmlFile : Option β)
    (version : String) : ManifestReply :=
  match xmlFile with
  | none => .sys
  | some content =>
      if !readable then .sys
      else
        match (xml.xmlReadFile content).bind fun root => getXmlVersionPkgFile root version with
        | none => .err
        | some pf => .found pf

end Reader

section Writer

/-- The loop over the elements: those of the version go, and where there is no version the
rollback order is incremented. The text of the number always fits its buffer. -/
def editPackage (version : Option String) (node : Node) : Option Node :=
  if node.name = "package" then
    match node.child? "version" with
    | some c => if some c = version then none else some node
    | none =>
        match node.child? "rollback-order" with
        | some c =>
            some { node with
              fields := setFirst "rollback-order" (strtol c + 1).toInt.repr node.fields }
        | none => some node
  else some node

/-- How the calls of add_pkg_file_manifest on the manifest end; a save that fails says what it
leaves. -/
structure AddCalls (β : Type) where
  accessWOk : Bool
  chkdirp : Bool
  xmlSaveFormatFileEnc : Option (Option β)

/-- sha256xcmp, of which only zero is told from the rest: the buffer is empty if
calc_sha256_x has put nothing into it. -/
def sha256xcmp (digest : Calculated) (b64 : Sha256B64) : Rc :=
  if b64.val = (digest.obuff.map DigestB64.val).getD "" then 0 else 1

/-- xmlNewChild with a content. -/
def newChild (xml : Libxml β) (name : String) (content : Option String) : String × String :=
  (name, (content.map xml.nodeText).getD "")

def newPackage (xml : Libxml β) (pkgFile : PkgFile) : Node where
  name := "package"
  fields :=
    [newChild xml "version" pkgFile.version,
      newChild xml "sha256" (some pkgFile.sha256b64.val),
      newChild xml "sha-of-sha" (some pkgFile.shaOfSha.val),
      newChild xml "file" pkgFile.file,
      newChild xml "downloaded" (some (if pkgFile.downloaded ≠ 0 then "1" else "0")),
      newChild xml "rollback-order" (some "0")]

/-- What add_pkg_file_manifest returns, what it leaves in the file, and whether it has written
the entry. -/
structure Added (β : Type) where
  err : Rc
  xmlFile : Option β
  entry : Bool

/-- The document that is read, or a new one. -/
def openDoc (xml : Libxml β) (calls : AddCalls β) (xmlFile : Option β) : Doc :=
  if calls.accessWOk then (xmlFile.bind xml.xmlReadFile).getD [] else []

/-- add_pkg_file_manifest, where `digest` is what calc_sha256_x does for the file. -/
def addPkgFileManifest (xml : Libxml β) (calls : AddCalls β) (digest : Calculated)
    (xmlFile : Option β) (pkgFile : PkgFile) : Added β :=
  let root := (openDoc xml calls xmlFile).filterMap (editPackage pkgFile.version)
  if sha256xcmp digest pkgFile.shaOfSha = 0 then
    let root := root ++ [newPackage xml pkgFile]
    if !calls.chkdirp then ⟨eUaSys, xmlFile, false⟩
    else
      match calls.xmlSaveFormatFileEnc with
      | some left => ⟨eUaErr, left, false⟩
      | none => ⟨eUaOk, some (xml.xmlSave root), true⟩
  else ⟨eUaOk, xmlFile, false⟩

end Writer

section Entries

/-- A package file whose entry can be read again. -/
structure Recordable (pkgFile : PkgFile) (version file : String) : Prop where
  version_eq : pkgFile.version = some version
  version_set : version ≠ ""
  version_plain : XmlPlain version
  file_eq : pkgFile.file = some file
  file_set : file ≠ ""
  file_plain : XmlPlain file
  sha256 : pkgFile.sha256b64.val.utf8ByteSize = sha256B64Length - 1
  sha256_plain : XmlPlain pkgFile.sha256b64.val

/-- The digest of the file could be computed and is the one expected. -/
def Matches (digest : Calculated) (pkgFile : PkgFile) : Prop :=
  ∃ d, digest.obuff = some d ∧ d.val = pkgFile.shaOfSha.val

/-- The entry as it is read. -/
def entryOf (pkgFile : PkgFile) : PkgFile where
  downloaded := if pkgFile.downloaded ≠ 0 then 1 else 0
  rollbackOrder := 0
  version := pkgFile.version
  file := pkgFile.file
  sha256b64 := pkgFile.sha256b64
  deltaSha256b64 := .empty
  shaOfSha := pkgFile.shaOfSha

/-- What is read of the entry. -/
def readEntry (xml : Libxml β) (pkgFile : PkgFile) : PkgFile where
  downloaded := if pkgFile.downloaded ≠ 0 then 1 else 0
  rollbackOrder := 0
  version := some ((pkgFile.version.map xml.nodeText).getD "")
  file := some ((pkgFile.file.map xml.nodeText).getD "")
  sha256b64 := (readDigest (xml.nodeText pkgFile.sha256b64.val)).getD .empty
  deltaSha256b64 := .empty
  shaOfSha := pkgFile.shaOfSha

/-- The digest of an entry that passes its check. -/
def Computed (sha : Sha256B64) : Prop := sha.val = "" ∨ ∃ d : DigestB64, sha.val = d.val

theorem base64Chars_plain : base64Chars.all isPlainChar := by decide +kernel

theorem digest_plain (d : DigestB64) : XmlPlain d.val := by
  apply List.all_eq_true.mpr
  intro c hc
  have hmem := List.all_eq_true.mp d.base64 c hc
  exact List.all_eq_true.mp base64Chars_plain c (List.contains_iff_mem.mp hmem)

theorem XmlPlain.text {s : String} (h : XmlPlain s) : XmlText s := by
  apply List.all_eq_true.mpr
  intro c hc
  have hplain := List.all_eq_true.mp h c hc
  simp only [isPlainChar, Bool.and_eq_true] at hplain
  exact hplain.1

theorem readDigest_full {sha : Sha256B64}
    (h : sha.val.utf8ByteSize = sha256B64Length - 1) : readDigest sha.val = some sha := by
  rw [readDigest, if_pos h, Sha256B64.copy_val]

theorem readDigest_ne_empty_iff (c : String) :
    ((readDigest c).getD .empty).val ≠ "" ↔ c.utf8ByteSize = sha256B64Length - 1 := by
  unfold readDigest
  split
  · rename_i hfull
    have hcopy : (Sha256B64.copy c).val = c := by
      have hlt : c.utf8ByteSize < sha256B64Length := by
        rw [hfull]
        decide
      rw [Sha256B64.copy, dif_pos hlt]
    refine ⟨fun _ => hfull, fun _ => ?_⟩
    rw [Option.getD_some, hcopy]
    intro hempty
    rw [hempty] at hfull
    exact absurd hfull (by decide)
  · rename_i hfull
    exact ⟨fun hne => absurd rfl hne, fun h => absurd h hfull⟩

theorem sha256B64_ne_empty {sha : Sha256B64}
    (h : sha.val.utf8ByteSize = sha256B64Length - 1) : sha.val ≠ "" := by
  intro hempty
  rw [hempty] at h
  exact absurd h (by decide)

theorem Matches.sha256xcmp {digest : Calculated} {pkgFile : PkgFile}
    (h : Matches digest pkgFile) : sha256xcmp digest pkgFile.shaOfSha = 0 := by
  obtain ⟨d, hd, hval⟩ := h
  simp [PackageManifests.sha256xcmp, hd, hval]

theorem entryNames_named : ∀ name ∈ ["version", "sha256", "sha-of-sha", "file", "downloaded",
    "rollback-order"], XmlName name := by
  decide +kernel

theorem newPackage_named (xml : Libxml β) (pkgFile : PkgFile) :
    (newPackage xml pkgFile).Named := by
  refine ⟨show XmlName "package" by decide +kernel, fun n hn => ?_⟩
  exact entryNames_named n.1 (List.mem_map_of_mem hn)

section Plain

variable {xml : Libxml β} (hxml : xml.Documented) {digest : Calculated} {pkgFile : PkgFile}
  {version file : String}
include hxml

theorem nodeText_flag (pkgFile : PkgFile) :
    xml.nodeText (if pkgFile.downloaded ≠ 0 then "1" else "0") =
      if pkgFile.downloaded ≠ 0 then "1" else "0" := by
  apply hxml.nodeText_plain
  split <;> decide

theorem newPackage_fields (h : Recordable pkgFile version file) (hdigest : Matches digest pkgFile) :
    (newPackage xml pkgFile).fields =
      [("version", version), ("sha256", pkgFile.sha256b64.val),
        ("sha-of-sha", pkgFile.shaOfSha.val), ("file", file),
        ("downloaded", if pkgFile.downloaded ≠ 0 then "1" else "0"), ("rollback-order", "0")] := by
  obtain ⟨d, _, hval⟩ := hdigest
  have hplain : XmlPlain pkgFile.shaOfSha.val := hval ▸ digest_plain d
  have hflag := nodeText_flag hxml pkgFile
  have hzero : xml.nodeText "0" = "0" := hxml.nodeText_plain _ (by decide)
  simp only [newPackage, newChild, Option.map_some, Option.getD_some, h.version_eq, h.file_eq,
    hxml.nodeText_plain _ h.version_plain, hxml.nodeText_plain _ h.file_plain,
    hxml.nodeText_plain _ h.sha256_plain, hxml.nodeText_plain _ hplain, hflag, hzero]

theorem newPackage_hasVersion (h : Recordable pkgFile version file)
    (hdigest : Matches digest pkgFile) (w : String) :
    hasVersion w (newPackage xml pkgFile) = decide (version = w) := by
  have hname : (newPackage xml pkgFile).name = "package" := rfl
  simp [hasVersion, hname, Node.child?, newPackage_fields hxml h hdigest]

theorem newPackage_text (h : Recordable pkgFile version file)
    (hdigest : Matches digest pkgFile) : (newPackage xml pkgFile).Textual := by
  obtain ⟨d, _, hval⟩ := id hdigest
  have hplain : XmlPlain pkgFile.shaOfSha.val := hval ▸ digest_plain d
  intro n hn
  rw [newPackage_fields hxml h hdigest] at hn
  simp only [List.mem_cons, List.not_mem_nil, or_false] at hn
  rcases hn with rfl | rfl | rfl | rfl | rfl | rfl
  · exact h.version_plain.text
  · exact h.sha256_plain.text
  · exact hplain.text
  · exact h.file_plain.text
  · show XmlText (if pkgFile.downloaded ≠ 0 then "1" else "0")
    split <;> decide
  · decide

theorem readDigest_computed (h : Computed pkgFile.shaOfSha) :
    (readDigest (xml.nodeText pkgFile.shaOfSha.val)).getD .empty = pkgFile.shaOfSha := by
  rcases h with hempty | ⟨d, hd⟩
  · rw [hempty, hxml.nodeText_plain "" (by decide)]
    apply Subtype.ext
    rw [hempty]
    rfl
  · have hfull : pkgFile.shaOfSha.val.utf8ByteSize = sha256B64Length - 1 := hd ▸ d.size
    rw [hd, hxml.nodeText_plain _ (digest_plain d), ← hd, readDigest_full hfull]
    rfl

theorem readFields (h : Computed pkgFile.shaOfSha) :
    (newPackage xml pkgFile).fields.foldl readField PkgFile.zero = readEntry xml pkgFile := by
  have hflag := nodeText_flag hxml pkgFile
  have hzero : xml.nodeText "0" = "0" := hxml.nodeText_plain _ (by decide)
  have hread : (strtol (if pkgFile.downloaded ≠ 0 then "1" else "0")).toInt32 =
      if pkgFile.downloaded ≠ 0 then 1 else 0 := by
    split <;> decide +kernel
  have horder : (strtol "0").toInt32 = 0 := by decide +kernel
  have hsha : PkgFile.zero.sha256b64 = .empty := rfl
  have hshaOfSha : PkgFile.zero.shaOfSha = .empty := rfl
  have hempty : Sha256B64.empty.val = "" := rfl
  simp only [newPackage, newChild, List.foldl_cons, List.foldl_nil, readField, reduceIte,
    String.reduceEq, Option.map_some, Option.getD_some, hflag, hzero, hread, horder, hsha,
    hshaOfSha, hempty, readDigest_computed hxml h]
  simp [PkgFile.zero, readEntry]

theorem getXmlPkgFile_some_iff (h : Computed pkgFile.shaOfSha)
    (hread : pkgFile.version.map xml.nodeText = some version) {pf : PkgFile} :
    getXmlPkgFile (newPackage xml pkgFile) = some pf ↔
      version ≠ "" ∧ (∃ file, file ≠ "" ∧ pkgFile.file.map xml.nodeText = some file) ∧
      (xml.nodeText pkgFile.sha256b64.val).utf8ByteSize = sha256B64Length - 1 ∧
      pf = readEntry xml pkgFile := by
  have hfile : isSet (readEntry xml pkgFile).file = true ↔
      ∃ file, file ≠ "" ∧ pkgFile.file.map xml.nodeText = some file := by
    cases hmap : pkgFile.file.map xml.nodeText with
    | none => simp [readEntry, isSet, hmap]
    | some file => simp [readEntry, isSet, hmap]
  have hset : isSet (readEntry xml pkgFile).version = true ↔ version ≠ "" := by
    simp [readEntry, isSet, hread]
  have hsha : (readEntry xml pkgFile).sha256b64.val ≠ "" ↔
      (xml.nodeText pkgFile.sha256b64.val).utf8ByteSize = sha256B64Length - 1 :=
    readDigest_ne_empty_iff _
  have hsome : getXmlPkgFile (newPackage xml pkgFile) =
      if isSet (readEntry xml pkgFile).file && isSet (readEntry xml pkgFile).version &&
          (readEntry xml pkgFile).sha256b64.val ≠ ""
      then some (readEntry xml pkgFile) else none := by
    unfold getXmlPkgFile
    rw [readFields hxml h]
  rw [hsome]
  simp only [Bool.and_eq_true, decide_eq_true_eq, hfile, hset, hsha, Option.ite_none_right_eq_some,
    Option.some.injEq]
  constructor
  · rintro ⟨⟨⟨hfile, hversion⟩, hfull⟩, hpf⟩
    exact ⟨hversion, hfile, hfull, hpf.symm⟩
  · rintro ⟨hversion, hfile, hfull, hpf⟩
    exact ⟨⟨⟨hfile, hversion⟩, hfull⟩, hpf.symm⟩

/-- The reader finds what the writer has put in. -/
theorem getXmlPkgFile_newPackage (h : Recordable pkgFile version file)
    (hdigest : Matches digest pkgFile) :
    getXmlPkgFile (newPackage xml pkgFile) = some (entryOf pkgFile) := by
  obtain ⟨d, _, hval⟩ := hdigest
  have hversion : pkgFile.version.map xml.nodeText = some version := by
    rw [h.version_eq, Option.map_some, hxml.nodeText_plain _ h.version_plain]
  have hfile : pkgFile.file.map xml.nodeText = some file := by
    rw [h.file_eq, Option.map_some, hxml.nodeText_plain _ h.file_plain]
  have hsha : xml.nodeText pkgFile.sha256b64.val = pkgFile.sha256b64.val :=
    hxml.nodeText_plain _ h.sha256_plain
  have hsame : entryOf pkgFile = readEntry xml pkgFile := by
    rw [entryOf, readEntry, hversion, hfile, hsha, readDigest_full h.sha256, h.version_eq,
      h.file_eq]
    rfl
  refine (getXmlPkgFile_some_iff hxml (.inr ⟨d, hval.symm⟩) hversion).mpr
    ⟨h.version_set, ⟨file, h.file_set, hfile⟩, ?_, hsame⟩
  rw [hsha]
  exact h.sha256

end Plain

end Entries

section Edits

theorem repr_text (n : Int) : XmlText n.repr := by
  have hdigit : ∀ c : Char, c.isDigit → isXmlChar c := by
    intro c hc
    simp only [Char.isDigit, Bool.and_eq_true, decide_eq_true_eq, ge_iff_le,
      UInt32.le_iff_toNat_le] at hc
    have hlow : 32 ≤ c.toNat := Nat.le_trans (by decide) hc.1
    have hhigh : c.toNat ≤ 57 := hc.2
    simp only [isXmlChar, Bool.or_eq_true, Bool.and_eq_true, decide_eq_true_eq, decide_not,
      Bool.not_eq_true', decide_eq_false_iff_not]
    exact .inr ⟨⟨hlow, by omega⟩, by omega⟩
  have hnat : ∀ m : Nat, XmlText m.repr := by
    intro m
    apply List.all_eq_true.mpr
    intro c hc
    rw [Nat.toList_repr] at hc
    exact hdigit c (Nat.isDigit_of_mem_toDigits (by decide) (by decide) hc)
  cases n with
  | ofNat m => exact hnat m
  | negSucc m =>
      have hlist : (Int.negSucc m).repr.toList = '-' :: m.succ.repr.toList := by
        simp [Int.repr, String.toList_append]
      unfold XmlText
      rw [hlist, List.all_cons, Bool.and_eq_true]
      exact ⟨by decide, hnat _⟩

theorem setFirst_named {name content : String} {fields : List (String × String)}
    (h : ∀ n ∈ fields, XmlName n.1) : ∀ n ∈ setFirst name content fields, XmlName n.1 := by
  induction fields with
  | nil => simp [setFirst]
  | cons n fields ih =>
      have hfirst := h n List.mem_cons_self
      have hrest := fun n hn => h n (List.mem_cons_of_mem _ hn)
      rw [setFirst]
      split
      · rename_i heq
        intro n' hn'
        rcases List.mem_cons.mp hn' with rfl | hn'
        · rwa [heq] at hfirst
        · exact hrest n' hn'
      · intro n' hn'
        rcases List.mem_cons.mp hn' with rfl | hn'
        · exact hfirst
        · exact ih hrest n' hn'

theorem setFirst_text {name content : String} (hcontent : XmlText content)
    {fields : List (String × String)} (h : ∀ n ∈ fields, XmlText n.2) :
    ∀ n ∈ setFirst name content fields, XmlText n.2 := by
  induction fields with
  | nil => simp [setFirst]
  | cons n fields ih =>
      have hrest := fun n hn => h n (List.mem_cons_of_mem _ hn)
      rw [setFirst]
      split
      · intro n' hn'
        rcases List.mem_cons.mp hn' with rfl | hn'
        · exact hcontent
        · exact hrest n' hn'
      · intro n' hn'
        rcases List.mem_cons.mp hn' with rfl | hn'
        · exact h _ List.mem_cons_self
        · exact ih hrest n' hn'

/-- Setting the content of one child leaves the first child of any other name. -/
theorem child_setFirst {name name' : String} (hne : name' ≠ name) (content : String)
    (fields : List (String × String)) :
    (setFirst name content fields).find? (fun n => n.1 = name') =
      fields.find? fun n => n.1 = name' := by
  induction fields with
  | nil => rfl
  | cons n fields ih =>
      rw [setFirst]
      split
      · rename_i heq
        have hneg : ¬ n.1 = name' := fun h => hne (h.symm.trans heq)
        rw [List.find?_cons_of_neg (by simpa using Ne.symm hne),
          List.find?_cons_of_neg (by simpa using hneg)]
      · rw [List.find?_cons, List.find?_cons, ih]

/-- What happens to one element: it has the version and goes, or it is kept, or it has no
version and only its rollback order changes. -/
theorem editPackage_cases (version : Option String) (node : Node) :
    (editPackage version node = none ∧ ∃ c, version = some c ∧ hasVersion c node) ∨
    (∃ node', editPackage version node = some node' ∧ node'.name = node.name ∧
      node'.child? "version" = node.child? "version" ∧
      (∀ c, version = some c → hasVersion c node = false) ∧
      (node' = node ∨ node.child? "version" = none) ∧
      (node.Named ∧ node.Textual → node'.Named ∧ node'.Textual)) := by
  unfold editPackage
  by_cases hname : node.name = "package"
  · rw [if_pos hname]
    cases hchild : node.child? "version" with
    | some c =>
        by_cases hc : some c = version
        · refine .inl ⟨if_pos hc, c, hc.symm, ?_⟩
          simp [hasVersion, hname, hchild]
        · refine .inr ⟨node, if_neg hc, rfl, hchild, ?_, .inl rfl, id⟩
          intro c' hc'
          have hne : c ≠ c' := fun h => hc (h ▸ hc'.symm)
          simp [hasVersion, hname, hchild, hne]
    | none =>
        have hnone : ∀ c', version = some c' → hasVersion c' node = false := by
          intro c' _
          simp [hasVersion, hchild]
        cases horder : node.child? "rollback-order" with
        | some c =>
            refine .inr ⟨_, rfl, rfl, ?_, hnone, .inr rfl, fun hdoc => ?_⟩
            · rw [← hchild]
              exact congrArg (Option.map Prod.snd) (child_setFirst (by decide) _ _)
            · obtain ⟨⟨hpackage, hnames⟩, htexts⟩ := hdoc
              exact ⟨⟨hpackage, setFirst_named hnames⟩, setFirst_text (repr_text _) htexts⟩
        | none => exact .inr ⟨node, rfl, rfl, hchild, hnone, .inl rfl, id⟩
  · rw [if_neg hname]
    refine .inr ⟨node, rfl, rfl, rfl, ?_, .inl rfl, id⟩
    intro c' _
    simp [hasVersion, hname]

theorem edit_doc {root : Doc} (h : XmlDoc root) (version : Option String) :
    XmlDoc (root.filterMap (editPackage version)) := by
  intro node hnode
  obtain ⟨old, hold, hedit⟩ := List.mem_filterMap.mp hnode
  rcases editPackage_cases version old with ⟨hgone, _⟩ | ⟨node', hkept, _, _, _, _, htext⟩
  · rw [hgone] at hedit
    cases hedit
  · rw [hkept] at hedit
    cases hedit
    exact htext (h old hold)

/-- The document that is saved. -/
theorem added_doc {xml : Libxml β} {root : Doc} {pkgFile : PkgFile} (hroot : XmlDoc root)
    (htext : (newPackage xml pkgFile).Textual) (version : Option String) :
    XmlDoc (root.filterMap (editPackage version) ++ [newPackage xml pkgFile]) := by
  intro node hnode
  rcases List.mem_append.mp hnode with hold | hnew
  · exact edit_doc hroot version node hold
  · rw [List.mem_singleton.mp hnew]
    exact ⟨newPackage_named xml pkgFile, htext⟩

/-- No element of the version is left. -/
theorem edit_hasVersion (version : String) (root : Doc) :
    ∀ node ∈ root.filterMap (editPackage (some version)), hasVersion version node = false := by
  intro node hnode
  obtain ⟨old, hold, hedit⟩ := List.mem_filterMap.mp hnode
  rcases editPackage_cases (some version) old with ⟨hgone, _⟩ | ⟨node', hkept, hname, hchild, hv, _⟩
  · rw [hgone] at hedit
    cases hedit
  · rw [hkept] at hedit
    cases hedit
    have hold' := hv version rfl
    unfold hasVersion at hold' ⊢
    rwa [hname, hchild]

/-- Every other version is found as before. -/
theorem edit_other {version : Option String} {w : String} (hw : version ≠ some w) (root : Doc) :
    getXmlVersionPkgFile (root.filterMap (editPackage version)) w =
      getXmlVersionPkgFile root w := by
  unfold getXmlVersionPkgFile
  induction root with
  | nil => rfl
  | cons node root ih =>
      rcases editPackage_cases version node with
        ⟨hgone, c, hc, hhas⟩ | ⟨node', hkept, hname, hchild, _, hsame, _⟩
      · have hother : hasVersion w node = false := by
          have hcw : c ≠ w := fun h => hw (h ▸ hc)
          simp only [hasVersion, Bool.and_eq_true, decide_eq_true_eq] at hhas
          simp [hasVersion, hhas.2, hcw]
        rw [List.filterMap_cons_none hgone, ih, List.findSome?_cons, hother]
        rfl
      · rw [List.filterMap_cons_some hkept, List.findSome?_cons, List.findSome?_cons, ih]
        have hhas : hasVersion w node' = hasVersion w node := by
          unfold hasVersion
          rw [hname, hchild]
        rw [hhas]
        rcases hsame with rfl | hnone
        · rfl
        · have hno : hasVersion w node = false := by simp [hasVersion, hnone]
          simp [hno]

theorem getXmlVersionPkgFile_append (root : Doc) (node : Node) (w : String) :
    getXmlVersionPkgFile (root ++ [node]) w =
      (getXmlVersionPkgFile root w).or
        (if hasVersion w node then getXmlPkgFile node else none) := by
  unfold getXmlVersionPkgFile
  rw [List.findSome?_append]
  simp

theorem getXmlVersionPkgFile_none {root : Doc} {w : String}
    (h : ∀ node ∈ root, hasVersion w node = false) : getXmlVersionPkgFile root w = none := by
  unfold getXmlVersionPkgFile
  rw [List.findSome?_eq_none_iff]
  intro node hnode
  rw [h node hnode]
  rfl

end Edits

section Samples

/-- Files that hold documents. -/
def sampleXml : Libxml Doc :=
  ⟨fun doc => if XmlDoc doc then some doc else none, id, id⟩

theorem sampleXml_documented : sampleXml.Documented where
  read_save := fun _ h => if_pos h
  read_text := by
    intro content doc h
    simp only [sampleXml] at h
    split at h
    · cases h
      assumption
    · cases h
  nodeText_plain := fun _ _ => rfl

def sampleCalls : AddCalls Doc := ⟨true, true, none⟩

def sampleDigest : Calculated :=
  ⟨eUaOk, some (sampleSsl.base64 (sampleSsl.sha256 (ascii "package")))⟩

def sampleSha256B64 : Sha256B64 := .copy "rQJcO0mCSBHW2bqPFGcvP7Xv1pNnOsd8kZLyTeAwUf0="
def sampleShaOfSha : Sha256B64 := .copy "9hYsJ3uWm5lKxD2cEoBtVaR7gFqzN1iXpHwM6vTkSe8="

def samplePkgFile (version : String) : PkgFile where
  downloaded := 1
  rollbackOrder := 0
  version := some version
  file := some "/data/pkg.zip"
  sha256b64 := sampleSha256B64
  deltaSha256b64 := .empty
  shaOfSha := sampleShaOfSha

theorem samplePkgFile_recordable {version : String} (hset : version ≠ "")
    (hplain : XmlPlain version) :
    Recordable (samplePkgFile version) version "/data/pkg.zip" where
  version_eq := rfl
  version_set := hset
  version_plain := hplain
  file_eq := rfl
  file_set := by decide
  file_plain := by decide
  sha256 := show sampleSha256B64.val.utf8ByteSize = sha256B64Length - 1 by decide
  sha256_plain := show XmlPlain sampleSha256B64.val by decide +kernel

theorem samplePkgFile_matches (version : String) : Matches sampleDigest (samplePkgFile version) :=
  ⟨_, rfl, show (sampleSsl.base64 (sampleSsl.sha256 (ascii "package"))).val =
    sampleShaOfSha.val by decide +kernel⟩

end Samples

section Additions

variable {xml : Libxml β} {calls : AddCalls β} {digest : Calculated} {xmlFile : Option β}
  {root : Doc} {pkgFile : PkgFile} {version file : String}

/-- The manifest is absent, or a document that can be read and written. -/
def Usable (xml : Libxml β) (calls : AddCalls β) (xmlFile : Option β) (root : Doc) : Prop :=
  xmlFile = none ∧ root = [] ∨
    calls.accessWOk ∧ ∃ content, xmlFile = some content ∧ xml.xmlReadFile content = some root

theorem Usable.openDoc (h : Usable xml calls xmlFile root) : openDoc xml calls xmlFile = root := by
  unfold PackageManifests.openDoc
  rcases h with ⟨rfl, rfl⟩ | ⟨haccess, content, rfl, hread⟩
  · simp
  · simp [haccess, hread]

theorem Usable.doc (h : Usable xml calls xmlFile root) (hxml : xml.Documented) : XmlDoc root := by
  rcases h with ⟨_, rfl⟩ | ⟨_, content, _, hread⟩
  · simp [XmlDoc]
  · exact hxml.read_text content root hread

/-- A lookup in a file that holds the document. -/
theorem getPkgFileManifest_of_read {content : β} (h : xml.xmlReadFile content = some root)
    (w : String) :
    getPkgFileManifest xml true (some content) w =
      match getXmlVersionPkgFile root w with
      | none => .err
      | some pf => .found pf := by
  simp only [getPkgFileManifest, h, Option.bind_some]
  rfl

/-- What a file holds after an entry has been added. -/
theorem addPkgFileManifest_ok (hxml : xml.Documented) (husable : Usable xml calls xmlFile root)
    (hrec : Recordable pkgFile version file) (hmatch : Matches digest pkgFile)
    (hok : (addPkgFileManifest xml calls digest xmlFile pkgFile).err = eUaOk) :
    ∃ content, (addPkgFileManifest xml calls digest xmlFile pkgFile).xmlFile = some content ∧
      xml.xmlReadFile content =
        some (root.filterMap (editPackage (some version)) ++ [newPackage xml pkgFile]) := by
  unfold addPkgFileManifest at hok ⊢
  simp only [husable.openDoc, hmatch.sha256xcmp, if_true, hrec.version_eq] at hok ⊢
  split at hok
  · exact absurd hok (show eUaSys ≠ eUaOk by decide)
  · rename_i hdir
    rw [if_neg hdir]
    split at hok
    · exact absurd hok eUaErr_ne_ok
    · exact ⟨_, rfl, hxml.read_save _
        (added_doc (husable.doc hxml) (newPackage_text hxml hrec hmatch) _)⟩

/-- After a success the file has one element of the version, which is the entry added, and all
other versions are found as before; where there was no file, they are not found now either. -/
theorem manifest_after_add (hxml : xml.Documented) (husable : Usable xml calls xmlFile root)
    (hrec : Recordable pkgFile version file) (hmatch : Matches digest pkgFile)
    (hok : (addPkgFileManifest xml calls digest xmlFile pkgFile).err = eUaOk) :
    ∃ content root',
      (addPkgFileManifest xml calls digest xmlFile pkgFile).xmlFile = some content ∧
      xml.xmlReadFile content = some root' ∧
      (root'.filter (hasVersion version)).length = 1 ∧
      getPkgFileManifest xml true (some content) version = .found (entryOf pkgFile) ∧
      ∀ w, w ≠ version →
        (xmlFile ≠ none →
          getPkgFileManifest xml true (some content) w = getPkgFileManifest xml true xmlFile w) ∧
        (xmlFile = none → getPkgFileManifest xml true xmlFile w = .sys ∧
          getPkgFileManifest xml true (some content) w = .err) := by
  obtain ⟨content, hfile, hread⟩ := addPkgFileManifest_ok hxml husable hrec hmatch hok
  have hedited := edit_hasVersion version root
  have hnew := newPackage_hasVersion hxml hrec hmatch
  refine ⟨content, _, hfile, hread, ?_, ?_, ?_⟩
  · have hnone : (root.filterMap (editPackage (some version))).filter (hasVersion version) = [] :=
      List.filter_eq_nil_iff.mpr fun node hnode => by simp [hedited node hnode]
    rw [List.filter_append, hnone]
    simp [hnew]
  · rw [getPkgFileManifest_of_read hread, getXmlVersionPkgFile_append,
      getXmlVersionPkgFile_none hedited, hnew]
    simp [getXmlPkgFile_newPackage hxml hrec hmatch]
  · intro w hw
    have hafter : getXmlVersionPkgFile
        (root.filterMap (editPackage (some version)) ++ [newPackage xml pkgFile]) w =
          getXmlVersionPkgFile root w := by
      rw [getXmlVersionPkgFile_append, hnew, edit_other (by simpa using Ne.symm hw)]
      simp [Ne.symm hw]
    rw [getPkgFileManifest_of_read hread, hafter]
    rcases husable with ⟨rfl, rfl⟩ | ⟨_, before, rfl, hbefore⟩
    · exact ⟨fun h => absurd rfl h, fun _ => ⟨rfl, rfl⟩⟩
    · refine ⟨fun _ => ?_, fun h => absurd h (Option.some_ne_none _)⟩
      rw [getPkgFileManifest_of_read hbefore]

/-- Two entries of the version "1", one of them without a file, an entry of "2", an element of
another kind and one without a version. -/
def sampleRoot : Doc :=
  [newPackage sampleXml (samplePkgFile "1"),
    newPackage sampleXml { samplePkgFile "2" with downloaded := 0 },
    ⟨"comment", [("version", "1")]⟩,
    ⟨"package", [("version", "1"), ("version", "2")]⟩,
    ⟨"package", [("rollback-order", "7"), ("file", "/data/pkg.zip")]⟩]

theorem sampleRoot_usable : Usable sampleXml sampleCalls (some sampleRoot) sampleRoot :=
  .inr ⟨rfl, sampleRoot, rfl, show (if XmlDoc sampleRoot then some sampleRoot else none) = _ from
    if_pos (by decide +kernel)⟩

theorem manifest_after_add_example :
    ∃ content root',
      (addPkgFileManifest sampleXml sampleCalls sampleDigest (some sampleRoot)
        (samplePkgFile "1")).xmlFile = some content ∧
      sampleXml.xmlReadFile content = some root' ∧ (root'.filter (hasVersion "1")).length = 1 ∧
      getPkgFileManifest sampleXml true (some content) "1" =
        .found (entryOf (samplePkgFile "1")) ∧
      ∀ w, w ≠ "1" →
        (some sampleRoot ≠ none → getPkgFileManifest sampleXml true (some content) w =
          getPkgFileManifest sampleXml true (some sampleRoot) w) ∧
        (some sampleRoot = none → getPkgFileManifest sampleXml true (some sampleRoot) w = .sys ∧
          getPkgFileManifest sampleXml true (some content) w = .err) :=
  manifest_after_add sampleXml_documented sampleRoot_usable
    (samplePkgFile_recordable (by decide) (by decide)) (samplePkgFile_matches "1")
    (by decide +kernel)

/-- The entry of the other version is one of those that stay. -/
example : (getXmlVersionPkgFile sampleRoot "2").map PkgFile.downloaded = some 0 := by
  decide +kernel

/-- A package file whose texts are free of the characters that have a meaning in XML. -/
structure MetaFree (pkgFile : PkgFile) (version file : String) : Prop where
  version_eq : pkgFile.version = some version
  version_set : version ≠ ""
  version_free : version.toList.all fun c => !isMetaChar c
  file_eq : pkgFile.file = some file
  file_set : file ≠ ""
  file_free : file.toList.all fun c => !isMetaChar c
  sha256 : pkgFile.sha256b64.val.utf8ByteSize = sha256B64Length - 1
  sha256_free : pkgFile.sha256b64.val.toList.all fun c => !isMetaChar c

theorem samplePkgFile_metaFree (file : String) (hset : file ≠ "")
    (hfree : file.toList.all fun c => !isMetaChar c) :
    MetaFree { samplePkgFile "1" with file := some file } "1" file where
  version_eq := rfl
  version_set := by decide
  version_free := by decide
  file_eq := rfl
  file_set := hset
  file_free := hfree
  sha256 := show sampleSha256B64.val.utf8ByteSize = sha256B64Length - 1 by decide
  sha256_free := show sampleSha256B64.val.toList.all (fun c => !isMetaChar c) by decide +kernel

/-- A lookup that ends before a document is read. -/
def noFile : ManifestReply → Bool
  | .sys => true
  | .found _ => false
  | .err => false

/-- A lookup that gives an entry. -/
def isFound : ManifestReply → Bool
  | .found _ => true
  | .sys => false
  | .err => false

/-- The first entry makes a file, so that other versions are missing for another reason. And a
path with a control character makes a file that is not read again. -/
theorem manifest_not_map :
    (¬ ∀ (xml : Libxml Doc) (calls : AddCalls Doc) (digest : Calculated) (xmlFile : Option Doc)
      (root : Doc) (pkgFile : PkgFile) (version file : String), xml.Documented →
      Usable xml calls xmlFile root → MetaFree pkgFile version file → Matches digest pkgFile →
      (addPkgFileManifest xml calls digest xmlFile pkgFile).err = eUaOk →
      ∀ w, w ≠ version →
        getPkgFileManifest xml true
            (addPkgFileManifest xml calls digest xmlFile pkgFile).xmlFile w =
          getPkgFileManifest xml true xmlFile w) ∧
    ¬ ∀ (xml : Libxml Doc) (calls : AddCalls Doc) (digest : Calculated) (xmlFile : Option Doc)
      (root : Doc) (pkgFile : PkgFile) (version file : String), xml.Documented →
      Usable xml calls xmlFile root → MetaFree pkgFile version file → Matches digest pkgFile →
      (addPkgFileManifest xml calls digest xmlFile pkgFile).err = eUaOk →
      getPkgFileManifest xml true
          (addPkgFileManifest xml calls digest xmlFile pkgFile).xmlFile version =
        .found (entryOf pkgFile) := by
  constructor
  · intro h
    have hsame := h sampleXml sampleCalls sampleDigest none [] _ "1" "/data/pkg.zip"
      sampleXml_documented (.inl ⟨rfl, rfl⟩)
      (samplePkgFile_metaFree "/data/pkg.zip" (by decide) (by decide))
      (samplePkgFile_matches "1") (by decide +kernel) "2" (by decide)
    have hfile : noFile (getPkgFileManifest sampleXml true
        (addPkgFileManifest sampleXml sampleCalls sampleDigest none (samplePkgFile "1")).xmlFile
        "2") = false := by decide +kernel
    rw [show ({ samplePkgFile "1" with file := some "/data/pkg.zip" } : PkgFile) =
      samplePkgFile "1" from rfl] at hsame
    rw [hsame] at hfile
    cases hfile
  · intro h
    have hlookup := h sampleXml sampleCalls sampleDigest (some sampleRoot) sampleRoot _ "1"
      "/data/\x01" sampleXml_documented sampleRoot_usable
      (samplePkgFile_metaFree "/data/\x01" (by decide) (by decide))
      (samplePkgFile_matches "1") (by decide +kernel)
    have hfound : isFound (getPkgFileManifest sampleXml true
        (addPkgFileManifest sampleXml sampleCalls sampleDigest (some sampleRoot)
          { samplePkgFile "1" with file := some "/data/\x01" }).xmlFile "1") = false := by
      decide +kernel
    rw [hlookup] at hfound
    cases hfound

end Additions

section Sequences

variable {xml : Libxml β}

/-- The file holds this document; no file is an empty one. -/
def Holds (xml : Libxml β) (xmlFile : Option β) (root : Doc) : Prop :=
  xmlFile = none ∧ root = [] ∨ ∃ content, xmlFile = some content ∧
    xml.xmlReadFile content = some root

/-- Successful calls of add_pkg_file_manifest one after the other. -/
inductive Additions (xml : Libxml β) (xmlFile : Option β) : List PkgFile → Option β → Prop
  | nil : Additions xml xmlFile [] xmlFile
  | add (pkgFiles xmlFile' calls digest pkgFile version file)
      (hbefore : Additions xml xmlFile pkgFiles xmlFile') (haccess : calls.accessWOk = true)
      (hrec : Recordable pkgFile version file) (hmatch : Matches digest pkgFile)
      (hok : (addPkgFileManifest xml calls digest xmlFile' pkgFile).err = eUaOk) :
      Additions xml xmlFile (pkgFiles ++ [pkgFile])
        (addPkgFileManifest xml calls digest xmlFile' pkgFile).xmlFile

/-- Where the entries of a manifest come from. -/
def Written (xml : Libxml β) (pkgFile : PkgFile) : Prop :=
  ∃ version file digest, Recordable pkgFile version file ∧ Matches digest pkgFile ∧
    xml.Documented

/-- An element that has another version stays as it is. -/
theorem editPackage_written {pkgFile : PkgFile} (h : Written xml pkgFile) {version : String}
    (hne : pkgFile.version ≠ some version) :
    editPackage (some version) (newPackage xml pkgFile) = some (newPackage xml pkgFile) := by
  obtain ⟨v, file, digest, hrec, hmatch, hxml⟩ := h
  have hchild : (newPackage xml pkgFile).child? "version" = some v := by
    simp [Node.child?, newPackage_fields hxml hrec hmatch]
  have hname : (newPackage xml pkgFile).name = "package" := rfl
  rw [hrec.version_eq] at hne
  unfold editPackage
  rw [if_pos hname, hchild]
  exact if_neg hne

theorem filterMap_kept {α : Type} {f : α → Option α} {l : List α} (h : ∀ a ∈ l, f a = some a) :
    l.filterMap f = l := by
  induction l with
  | nil => rfl
  | cons a l ih =>
      rw [List.filterMap_cons_some (h a List.mem_cons_self),
        ih fun b hb => h b (List.mem_cons_of_mem _ hb)]

/-- Each addition of a new version puts one element behind the others and changes none. -/
theorem Additions.holds (hxml : xml.Documented) {xmlFile xmlFile' : Option β}
    {pkgFiles : List PkgFile} (h : Additions xml xmlFile pkgFiles xmlFile')
    (hempty : Holds xml xmlFile [])
    (hdistinct : pkgFiles.Pairwise fun p q => p.version ≠ q.version) :
    Holds xml xmlFile' (pkgFiles.map (newPackage xml)) ∧
      ∀ p ∈ pkgFiles, Written xml p := by
  induction h with
  | nil => exact ⟨hempty, by simp⟩
  | add pkgFiles xmlFile' calls digest pkgFile version file _ haccess hrec hmatch hok ih =>
      obtain ⟨hbefore, _, hlast⟩ := List.pairwise_append.mp hdistinct
      obtain ⟨hholds, hwritten⟩ := ih hbefore
      have husable : Usable xml calls xmlFile' (pkgFiles.map (newPackage xml)) :=
        hholds.imp_right fun h => ⟨haccess, h⟩
      obtain ⟨content, hfile, hread⟩ := addPkgFileManifest_ok hxml husable hrec hmatch hok
      have hkept : (pkgFiles.map (newPackage xml)).filterMap (editPackage (some version)) =
          pkgFiles.map (newPackage xml) := by
        apply filterMap_kept
        intro node hnode
        obtain ⟨p, hp, rfl⟩ := List.mem_map.mp hnode
        apply editPackage_written (hwritten p hp)
        rw [← hrec.version_eq]
        exact hlast p hp pkgFile (List.mem_singleton.mpr rfl)
      rw [hkept] at hread
      constructor
      · rw [List.map_append]
        exact .inr ⟨content, hfile, hread⟩
      · intro p hp
        rcases List.mem_append.mp hp with hold | hnew
        · exact hwritten p hold
        · rw [List.mem_singleton.mp hnew]
          exact ⟨version, file, digest, hrec, hmatch, hxml⟩

/-- The rollback order that is read for a version. -/
def rollbackOrderOf (xml : Libxml β) (xmlFile : Option β) (version : String) : Option Int :=
  match getPkgFileManifest xml true xmlFile version with
  | .found pf => some pf.rollbackOrder.toInt
  | _ => none

/-- Every entry is found, with the order zero, however many have been added after it. -/
theorem Additions.found (hxml : xml.Documented) {xmlFile xmlFile' : Option β}
    {pkgFiles : List PkgFile} (h : Additions xml xmlFile pkgFiles xmlFile')
    (hempty : Holds xml xmlFile [])
    (hdistinct : pkgFiles.Pairwise fun p q => p.version ≠ q.version) {pkgFile : PkgFile}
    (hmem : pkgFile ∈ pkgFiles) {version : String} (hversion : pkgFile.version = some version) :
    getPkgFileManifest xml true xmlFile' version = .found (entryOf pkgFile) := by
  obtain ⟨hholds, hwritten⟩ := h.holds hxml hempty hdistinct
  rcases hholds with ⟨_, hnil⟩ | ⟨content, rfl, hread⟩
  · rw [List.map_eq_nil_iff.mp hnil] at hmem
    cases hmem
  · rw [getPkgFileManifest_of_read hread]
    have hfound : getXmlVersionPkgFile (pkgFiles.map (newPackage xml)) version =
        some (entryOf pkgFile) := by
      clear h hread
      induction pkgFiles with
      | nil => cases hmem
      | cons p pkgFiles ih =>
          obtain ⟨v, file, digest, hrec, hmatch, _⟩ := hwritten p List.mem_cons_self
          have hhas := newPackage_hasVersion hxml hrec hmatch version
          obtain ⟨hfirst, hrest⟩ := List.pairwise_cons.mp hdistinct
          unfold getXmlVersionPkgFile at ih ⊢
          rw [List.map_cons, List.findSome?_cons, hhas]
          rcases List.mem_cons.mp hmem with rfl | hmem
          · have hv : v = version := Option.some.inj (hrec.version_eq.symm.trans hversion)
            simp [hv, getXmlPkgFile_newPackage hxml hrec hmatch]
          · have hv : v ≠ version := by
              intro heq
              apply hfirst pkgFile hmem
              rw [hrec.version_eq, hversion, heq]
            simp only [hv, decide_false, Bool.false_eq_true, if_false]
            exact ih hrest hmem fun q hq => hwritten q (List.mem_cons_of_mem _ hq)
    rw [hfound]

/-- The order of every entry is the number of additions after it, exactly if there has been no
addition after any. -/
theorem rollbackOrder_counts_iff (hxml : xml.Documented) {xmlFile xmlFile' : Option β}
    {pkgFiles : List PkgFile} (h : Additions xml xmlFile pkgFiles xmlFile')
    (hempty : Holds xml xmlFile [])
    (hdistinct : pkgFiles.Pairwise fun p q => p.version ≠ q.version) :
    (∀ before pkgFile after version, pkgFiles = before ++ pkgFile :: after →
      pkgFile.version = some version →
      rollbackOrderOf xml xmlFile' version = some (after.length : Int)) ↔
      pkgFiles.length ≤ 1 := by
  have hzero : ∀ pkgFile ∈ pkgFiles, ∀ version, pkgFile.version = some version →
      rollbackOrderOf xml xmlFile' version = some 0 := by
    intro pkgFile hmem version hversion
    rw [rollbackOrderOf, h.found hxml hempty hdistinct hmem hversion]
    rfl
  constructor
  · intro hcounts
    cases pkgFiles with
    | nil => exact Nat.zero_le _
    | cons p pkgFiles =>
        obtain ⟨v, file, digest, hrec, _⟩ := (h.holds hxml hempty hdistinct).2 p List.mem_cons_self
        have hfirst := hcounts [] p pkgFiles v rfl hrec.version_eq
        rw [hzero p List.mem_cons_self v hrec.version_eq] at hfirst
        have hlen : (0 : Int) = pkgFiles.length := Option.some.inj hfirst
        rw [List.length_cons]
        omega
  · intro hlen before pkgFile after version hsplit hversion
    have hmem : pkgFile ∈ pkgFiles := by simp [hsplit]
    have hafter : after.length = 0 := by
      rw [hsplit] at hlen
      simp only [List.length_append, List.length_cons] at hlen
      omega
    rw [hzero pkgFile hmem version hversion, hafter]
    rfl

/-- Two entries, one after the other. -/
def sampleManifest : Option Doc :=
  (addPkgFileManifest sampleXml sampleCalls sampleDigest
    (addPkgFileManifest sampleXml sampleCalls sampleDigest none (samplePkgFile "1")).xmlFile
    (samplePkgFile "2")).xmlFile

theorem sampleManifest_additions :
    Additions sampleXml none ([] ++ [samplePkgFile "1"] ++ [samplePkgFile "2"]) sampleManifest :=
  .add _ _ _ _ _ _ _
    (.add _ _ _ _ _ _ _ .nil rfl (samplePkgFile_recordable (by decide) (by decide))
      (samplePkgFile_matches "1") (by decide +kernel))
    rfl (samplePkgFile_recordable (by decide) (by decide)) (samplePkgFile_matches "2")
    (by decide +kernel)

theorem rollbackOrder_counts_iff_example :
    (∀ before pkgFile after version,
      [] ++ [samplePkgFile "1"] ++ [samplePkgFile "2"] = before ++ pkgFile :: after →
      pkgFile.version = some version →
      rollbackOrderOf sampleXml sampleManifest version = some (after.length : Int)) ↔
      ([] ++ [samplePkgFile "1"] ++ [samplePkgFile "2"]).length ≤ 1 :=
  rollbackOrder_counts_iff sampleXml_documented sampleManifest_additions (.inl ⟨rfl, rfl⟩)
    (by simp [samplePkgFile])

theorem rollbackOrder_stays :
    ¬ ∀ (xml : Libxml Doc) (xmlFile xmlFile' : Option Doc) (pkgFiles : List PkgFile),
      xml.Documented → Additions xml xmlFile pkgFiles xmlFile' → Holds xml xmlFile [] →
      (pkgFiles.Pairwise fun p q => p.version ≠ q.version) →
      ∀ before pkgFile after version, pkgFiles = before ++ pkgFile :: after →
        pkgFile.version = some version →
        rollbackOrderOf xml xmlFile' version = some (after.length : Int) := by
  intro h
  have hfirst := h sampleXml none sampleManifest _ sampleXml_documented sampleManifest_additions
    (.inl ⟨rfl, rfl⟩) (by simp [samplePkgFile]) [] (samplePkgFile "1") [samplePkgFile "2"] "1"
    rfl rfl
  exact absurd hfirst (by decide +kernel)

end Sequences

section Checks

variable (xml : Libxml β) (calls : AddCalls β) (digest : Calculated) (xmlFile : Option β)

def AddCalls.saves (calls : AddCalls β) : Bool :=
  calls.chkdirp && calls.xmlSaveFormatFileEnc.isNone

/-- An entry is written when the digests compare equal and the file can be saved. -/
theorem addPkgFileManifest_entry (pkgFile : PkgFile) :
    (addPkgFileManifest xml calls digest xmlFile pkgFile).entry =
      (decide (sha256xcmp digest pkgFile.shaOfSha = 0) && calls.saves) := by
  unfold addPkgFileManifest AddCalls.saves
  simp only
  split
  · rename_i hcmp
    cases calls.chkdirp <;> cases calls.xmlSaveFormatFileEnc <;> simp [hcmp]
  · rename_i hcmp
    simp [hcmp]

theorem sha256xcmp_zero_iff (b64 : Sha256B64) :
    sha256xcmp digest b64 = 0 ↔
      (∃ d, digest.obuff = some d ∧ d.val = b64.val) ∨ digest.obuff = none ∧ b64.val = "" := by
  unfold sha256xcmp
  cases digest.obuff with
  | none => by_cases h : b64.val = "" <;> simp [h]
  | some d =>
      by_cases h : b64.val = d.val
      · simp [h]
      · simp [h, Ne.symm h]

/-- Only the digest that is computed admits an entry, exactly if some value is expected, or the
digest can be computed, or nothing can be written anyway. -/
theorem entry_checked_iff (pkgFile : PkgFile) :
    ((addPkgFileManifest xml calls digest xmlFile pkgFile).entry → Matches digest pkgFile) ↔
      (pkgFile.shaOfSha.val = "" → calls.saves → digest.obuff.isSome) := by
  rw [addPkgFileManifest_entry, Bool.and_eq_true, decide_eq_true_eq, sha256xcmp_zero_iff]
  constructor
  · intro h hempty hsaves
    cases hbuff : digest.obuff with
    | some d => rfl
    | none =>
        obtain ⟨d, hd, _⟩ := h ⟨.inr ⟨hbuff, hempty⟩, hsaves⟩
        rw [hbuff] at hd
        cases hd
  · intro h hentry
    obtain ⟨hcmp, hsaves⟩ := hentry
    rcases hcmp with hmatch | ⟨hnone, hempty⟩
    · exact hmatch
    · have hsome := h hempty hsaves
      rw [hnone] at hsome
      cases hsome

/-- What make_backup enters: whatever calc_sha256_x has put into the buffer of the entry. -/
def makeBackupFile (version file : String) (sha256 : Sha256B64) : PkgFile :=
  { PkgFile.zero with
    version := some version
    file := some file
    sha256b64 := sha256
    shaOfSha := (digest.obuff.map DigestB64.toSha256B64).getD .empty }

/-- So its check never fails. -/
theorem makeBackupFile_entry (version file : String) (sha256 : Sha256B64) :
    (addPkgFileManifest xml calls digest xmlFile
      (makeBackupFile digest version file sha256)).entry = calls.saves := by
  rw [addPkgFileManifest_entry]
  have hzero : sha256xcmp digest (makeBackupFile digest version file sha256).shaOfSha = 0 := by
    rw [sha256xcmp_zero_iff]
    unfold makeBackupFile
    cases hbuff : digest.obuff with
    | none => exact .inr ⟨rfl, rfl⟩
    | some d => exact .inl ⟨d, rfl, rfl⟩
  simp [hzero]

/-- A file that is no archive gets an entry when no digest is expected. -/
theorem unchecked_entry :
    ¬ ∀ (ssl : Openssl) (rwBuffSize fuel : Nat) (za : Option ZipArchive) (digest : Calculated)
      (xml : Libxml Doc) (calls : AddCalls Doc) (xmlFile : Option Doc) (pkgFile : PkgFile),
      calcSha256X ssl rwBuffSize fuel za = some digest →
      (addPkgFileManifest xml calls digest xmlFile pkgFile).entry → Matches digest pkgFile := by
  intro h
  have hmatch := h sampleSsl 16384 0 none ⟨eUaErr, none⟩ sampleXml sampleCalls none
    (makeBackupFile ⟨eUaErr, none⟩ "1" "/data/pkg.zip" .empty) rfl
    (by rw [makeBackupFile_entry]; rfl)
  obtain ⟨d, hd, _⟩ := hmatch
  cases hd

end Checks

end EsyncUa.PackageManifests
