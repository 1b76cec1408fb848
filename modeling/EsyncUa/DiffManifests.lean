import EsyncUa.Components

/-!
The manifest of a delta package, read from the document libxml makes of it.
Sections of added, removed, unchanged and changed files list one entry for each file.
-/
namespace EsyncUa.DiffManifests

open JsonProperties Components

/-- An element of a document, with its whole text and the elements below it. -/
inductive XmlNode
  | element (name content : String) (children : List XmlNode)

namespace XmlNode

def name : XmlNode → String
  | element name _ _ => name

/-- xmlNodeGetContent. -/
def content : XmlNode → String
  | element _ content _ => content

def children : XmlNode → List XmlNode
  | element _ _ children => children

/-- get_xml_child. -/
def child? (parent : XmlNode) (name : String) : Option XmlNode :=
  parent.children.find? fun n => n.name = name

end XmlNode

inductive DiffType
  | added | removed | changed | unchanged
  deriving DecidableEq

def sha256HexLength : Nat := 64 + 1

/-- The digest buffers of diff_info_t. -/
abbrev Sha256Hex : Type := { s : String // s.utf8ByteSize < sha256HexLength }

def Sha256Hex.empty : Sha256Hex := ⟨"", by decide⟩

/-- The first digest of full length is kept. -/
def Sha256Hex.read (sha : Sha256Hex) (p : Option XmlNode) : Sha256Hex :=
  match p with
  | none => sha
  | some p =>
      if h : sha.val = "" ∧ p.content.utf8ByteSize = sha256HexLength - 1 then
        ⟨p.content, by rw [h.2]; exact Nat.lt_succ_self _⟩
      else sha

/-- diff_info_t. The loop that applies the entry reads no other field of `nesting`. -/
structure DiffInfo where
  type : DiffType
  name : Option String
  oldName : Option String
  sha256Old : Sha256Hex
  sha256New : Sha256Hex
  format : Option String
  compression : Option String
  unSquashFs : Bool
  mkSquashFsOptions : Option String
  squashFsUncompressed : Bool
  singleFileDelta : Bool
  deriving DecidableEq

def DiffInfo.zero (type : DiffType) : DiffInfo where
  type := type
  name := none
  oldName := none
  sha256Old := .empty
  sha256New := .empty
  format := none
  compression := none
  unSquashFs := false
  mkSquashFsOptions := none
  squashFsUncompressed := false
  singleFileDelta := false

/-- Whether the file is an image to unpack and pack again. -/
def DiffInfo.nested (di : DiffInfo) : Bool :=
  di.unSquashFs && di.squashFsUncompressed && di.singleFileDelta

/-- The first text is kept. -/
def readText (old : Option String) (n : Option XmlNode) : Option String :=
  old.or (n.map XmlNode.content)

/-- strncat of one option and a space. The room given is that of a pointer, less the option
and its end; it wraps around for eight bytes and more, and then the whole option fits. -/
def appendOption (acc mksqaushOpt : String) : String :=
  let len := mksqaushOpt.utf8ByteSize
  (if len ≤ 7 then acc ++ prefixWithin mksqaushOpt.toList (7 - len) else acc ++ mksqaushOpt) ++ " "

def readOptions (p : XmlNode) : Option String :=
  match p.children.filter fun b => b.name = "mk-squash-fs-options" with
  | [] => none
  | options => some (options.foldl (fun acc b => appendOption acc b.content) "")

def readNesting (diffInfo : DiffInfo) (n : XmlNode) : Option DiffInfo :=
  match n.child? "un-squash-fs", n.child? "squash-fs-uncompressed",
      n.child? "single-file-delta" with
  | some p, _, _ =>
      match readOptions p, diffInfo.mkSquashFsOptions with
      | none, _ => some { diffInfo with unSquashFs := true }
      | some options, none =>
          some { diffInfo with unSquashFs := true, mkSquashFsOptions := some options }
      | some _, some _ => none -- the buffer of the options is gone
  | none, some _, _ => some { diffInfo with squashFsUncompressed := true }
  | none, none, some p =>
      some { diffInfo with
        singleFileDelta := true
        format := readText diffInfo.format (p.child? "format")
        compression := readText diffInfo.compression (p.child? "compression") }
  | none, none, none => some diffInfo

/-- One child of a file element; nothing where the agent writes through a null pointer. -/
def readChild (diffInfo : DiffInfo) (n : XmlNode) : Option DiffInfo :=
  if n.name = "name" then some { diffInfo with name := readText diffInfo.name (some n) }
  else if n.name = "oldName" then
    some { diffInfo with oldName := readText diffInfo.oldName (some n) }
  else if n.name = "sha256" then
    some { diffInfo with
      sha256Old := diffInfo.sha256Old.read (n.child? "old")
      sha256New := diffInfo.sha256New.read (n.child? "new") }
  else if n.name = "nesting" then readNesting diffInfo n
  else if n.name = "format" then some { diffInfo with format := readText diffInfo.format (some n) }
  else if n.name = "compression" then
    some { diffInfo with compression := readText diffInfo.compression (some n) }
  else some diffInfo

/-- get_xml_diff_info for a file of a section of this type. -/
def getXmlDiffInfo (type : DiffType) (ptr : XmlNode) : Option DiffInfo := do
  let diffInfo ← ptr.children.foldlM readChild (DiffInfo.zero type)
  if !isSet diffInfo.name ||
      (type = .changed && (!isSet diffInfo.format || !isSet diffInfo.compression)) then none
  else some diffInfo

/-- TYPEQL. -/
def typeql (name : String) : Option DiffType :=
  if name = "added" then some .added
  else if name = "removed" then some .removed
  else if name = "unchanged" then some .unchanged
  else if name = "changed" then some .changed
  else none

def sectionFiles (node : XmlNode) : Option (List DiffInfo) :=
  match typeql node.name with
  | some typ => (node.children.filter fun fnode => fnode.name = "file").mapM (getXmlDiffInfo typ)
  | none => some []

/-- parse_diff_manifest on the root of the document. -/
def parseDiffManifest (root : XmlNode) : Option (List DiffInfo) :=
  (root.children.mapM sectionFiles).map List.flatten

end EsyncUa.DiffManifests
