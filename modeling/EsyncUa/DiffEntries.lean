import EsyncUa.DiffManifests
import Mathlib.Data.List.Forall2

/-!
parse_diff_manifest with its loops: the type of a section is left behind by the comparisons of
its name, the first incomplete file ends both loops, and the list goes out only without an error.
-/
namespace EsyncUa.DiffEntries

open EsyncUa.JsonProperties EsyncUa.Components EsyncUa.DiffManifests

/-- TYPEQL: whether the names are equal, and what is in typ afterwards. -/
def typeqlStep (a b : String) (typ : Option DiffType) : Bool × Option DiffType :=
  (a = b, (typeql b).or typ)

/-- The condition of parse_diff_manifest, which compares until a name is equal. -/
def isSection (name : String) : List String → Option DiffType → Bool × Option DiffType
  | [], typ => (false, typ)
  | b :: names, typ =>
      match typeqlStep name b typ with
      | (true, typ) => (true, typ)
      | (false, typ) => isSection name names typ

def sectionNames : List String := ["added", "removed", "unchanged", "changed"]

/-- The loop over the files of a section. -/
def readFiles (typ : DiffType) : List XmlNode → List DiffInfo → Rc × List DiffInfo
  | [], diList => (eUaOk, diList)
  | fnode :: fnodes, diList =>
      if fnode.name = "file" then
        match getXmlDiffInfo typ fnode with
        | some di => readFiles typ fnodes (diList ++ [di])
        | none => (eUaErr, diList)
      else readFiles typ fnodes diList

/-- The loop over the sections; a section without a type does not come up. -/
def readSections : List XmlNode → Option DiffType → List DiffInfo → Rc × List DiffInfo
  | [], _, diList => (eUaOk, diList)
  | node :: nodes, typ, diList =>
      match isSection node.name sectionNames typ with
      | (true, some typ) =>
          match readFiles typ node.children diList with
          | (err, diList) => if err = eUaOk then readSections nodes typ diList else (err, diList)
      | (_, typ) => readSections nodes typ diList

/-- parse_diff_manifest for a file that may be unreadable or no document; the second result is
what `*diffInfo` is afterwards. -/
def parseFile (readable : Bool) (doc : Option XmlNode) (diffInfo : List DiffInfo) :
    Rc × List DiffInfo :=
  if readable then
    match doc with
    | none => (eUaSys, diffInfo)
    | some root =>
        match readSections root.children none [] with
        | (err, diList) => if err = eUaOk then (err, diList) else (err, diffInfo)
  else (eUaErr, diffInfo)

section Entries

/-- The text of the first element of this name. -/
def firstText (nodes : List XmlNode) (name : String) : Option String :=
  (nodes.find? fun n => n.name = name).map XmlNode.content

/-- The digests of a file, one from each of its sha256 elements. -/
def digests (which : String) (nodes : List XmlNode) : List String :=
  (nodes.filter fun n => n.name = "sha256").filterMap fun n => firstText n.children which

/-- Every digest below the sha256 elements of a file. -/
def allDigests (which : String) (nodes : List XmlNode) : List String :=
  (nodes.filter fun n => n.name = "sha256").flatMap fun n =>
    (n.children.filter fun p => p.name = which).map XmlNode.content

/-- The first text of 64 characters, if there is one. -/
def firstDigest (texts : List String) : String :=
  (texts.find? fun c => c.utf8ByteSize = sha256HexLength - 1).getD ""

/-- The files of the sections that have a type, in document order. -/
def files (root : XmlNode) : List (DiffType × XmlNode) :=
  root.children.flatMap fun node =>
    match typeql node.name with
    | some typ => (node.children.filter fun fnode => fnode.name = "file").map (typ, ·)
    | none => []

def Complete (entry : DiffType × XmlNode) : Prop :=
  isSet (firstText entry.2.children "name") = true ∧
    (entry.1 = .changed → isSet (firstText entry.2.children "format") = true ∧
      isSet (firstText entry.2.children "compression") = true)

/-- The item has the fields of its file. -/
structure Describes (given : String → List XmlNode → List String) (entry : DiffType × XmlNode)
    (di : DiffInfo) : Prop where
  type : di.type = entry.1
  name : di.name = firstText entry.2.children "name"
  oldName : di.oldName = firstText entry.2.children "oldName"
  format : di.format = firstText entry.2.children "format"
  compression : di.compression = firstText entry.2.children "compression"
  sha256Old : di.sha256Old.val = firstDigest (given "old" entry.2.children)
  sha256New : di.sha256New.val = firstDigest (given "new" entry.2.children)

/-- The document has no nesting elements. -/
def Plain (root : XmlNode) : Prop :=
  ∀ node ∈ root.children, ∀ fnode ∈ node.children, ∀ n ∈ fnode.children, n.name ≠ "nesting"

/-- A manifest is parsed exactly if all its files are complete, into one item for each file; an
error leaves the output as it was. -/
structure Parses (given : String → List XmlNode → List String) (root : XmlNode)
    (before : List DiffInfo) (result : Rc × List DiffInfo) : Prop where
  ok_iff : result.1 = eUaOk ↔ ∀ entry ∈ files root, Complete entry
  items : result.1 = eUaOk → List.Forall₂ (Describes given) (files root) result.2
  failed : result.1 ≠ eUaOk → result.2 = before

end Entries

theorem isSection_some {name : String} {t : DiffType} (h : typeql name = some t)
    (typ : Option DiffType) : isSection name sectionNames typ = (true, some t) := by
  unfold typeql at h
  split at h
  · cases h
    subst_vars
    rfl
  · split at h
    · cases h
      subst_vars
      rfl
    · split at h
      · cases h
        subst_vars
        rfl
      · split at h
        · cases h
          subst_vars
          rfl
        · cases h

theorem isSection_none {name : String} (h : typeql name = none) (typ : Option DiffType) :
    (isSection name sectionNames typ).1 = false := by
  simp only [typeql] at h
  split_ifs at h with hadded hremoved hunchanged hchanged
  simp [isSection, sectionNames, typeqlStep, hadded, hremoved, hunchanged, hchanged]

section Items

theorem firstText_nil (name : String) : firstText [] name = none := rfl

theorem firstText_cons (n : XmlNode) (nodes : List XmlNode) (name : String) :
    firstText (n :: nodes) name =
      if n.name = name then some n.content else firstText nodes name := by
  unfold firstText
  rw [List.find?_cons]
  by_cases h : n.name = name <;> simp [h]

theorem digests_nil (which : String) : digests which [] = [] := rfl

theorem digests_cons (which : String) (n : XmlNode) (nodes : List XmlNode) :
    digests which (n :: nodes) =
      (if n.name = "sha256" then (firstText n.children which).toList else []) ++
        digests which nodes := by
  unfold digests
  by_cases h : n.name = "sha256"
  · cases ht : firstText n.children which <;> simp [h, ht]
  · simp [h]

theorem firstDigest_nil : firstDigest [] = "" := rfl

theorem firstDigest_append (texts texts' : List String) :
    firstDigest (texts ++ texts') =
      if firstDigest texts = "" then firstDigest texts' else firstDigest texts := by
  unfold firstDigest
  rw [List.find?_append]
  cases hfind : texts.find? fun c => c.utf8ByteSize = sha256HexLength - 1 with
  | none => simp
  | some c =>
      have hlen : c.utf8ByteSize = sha256HexLength - 1 := by simpa using List.find?_some hfind
      have hne : c ≠ "" := by
        rintro rfl
        cases hlen
      simp [hne]

/-- A digest buffer after one more sha256 element. -/
theorem read_val (sha : Sha256Hex) (n : XmlNode) (which : String) :
    (sha.read (n.child? which)).val =
      if sha.val = "" then firstDigest (firstText n.children which).toList else sha.val := by
  have hchild : firstText n.children which = (n.child? which).map XmlNode.content := rfl
  rw [hchild]
  unfold Sha256Hex.read firstDigest
  cases n.child? which with
  | none => by_cases hempty : sha.val = "" <;> simp [hempty]
  | some p =>
      by_cases hempty : sha.val = ""
      · by_cases hlen : p.content.utf8ByteSize = sha256HexLength - 1
        · simp [hempty, hlen]
        · simp [hempty, hlen]
      · simp [hempty]

/-- What the children of a file leave in an item that is partly read. -/
structure ReadFrom (nodes : List XmlNode) (di di' : DiffInfo) : Prop where
  type : di'.type = di.type
  name : di'.name = di.name.or (firstText nodes "name")
  oldName : di'.oldName = di.oldName.or (firstText nodes "oldName")
  format : di'.format = di.format.or (firstText nodes "format")
  compression : di'.compression = di.compression.or (firstText nodes "compression")
  sha256Old : di'.sha256Old.val =
    if di.sha256Old.val = "" then firstDigest (digests "old" nodes) else di.sha256Old.val
  sha256New : di'.sha256New.val =
    if di.sha256New.val = "" then firstDigest (digests "new" nodes) else di.sha256New.val

theorem readFrom_nil (di : DiffInfo) : ReadFrom [] di di := by
  constructor <;> simp [firstText_nil, digests_nil, firstDigest_nil]

theorem readFrom_cons {n : XmlNode} {nodes : List XmlNode} {di di₁ di' : DiffInfo}
    (h : ReadFrom [n] di di₁) (h' : ReadFrom nodes di₁ di') : ReadFrom (n :: nodes) di di' := by
  have htext : ∀ (old : Option String) (name : String),
      (old.or (firstText [n] name)).or (firstText nodes name) =
        old.or (firstText (n :: nodes) name) := by
    intro old name
    rw [Option.or_assoc, firstText_cons, firstText_cons, firstText_nil]
    split <;> rfl
  have hdigest : ∀ (old which : String),
      (if (if old = "" then firstDigest (digests which [n]) else old) = "" then
          firstDigest (digests which nodes)
        else if old = "" then firstDigest (digests which [n]) else old) =
        if old = "" then firstDigest (digests which (n :: nodes)) else old := by
    intro old which
    have hsplit : digests which (n :: nodes) = digests which [n] ++ digests which nodes := by
      rw [digests_cons, digests_cons which n []]
      simp [digests]
    rw [hsplit, firstDigest_append]
    split
    · rfl
    · simp_all
  exact ⟨h'.type.trans h.type, by rw [h'.name, h.name, htext],
    by rw [h'.oldName, h.oldName, htext], by rw [h'.format, h.format, htext],
    by rw [h'.compression, h.compression, htext],
    by rw [h'.sha256Old, h.sha256Old, hdigest], by rw [h'.sha256New, h.sha256New, hdigest]⟩

/-- A child of a file without nesting sets its own field and no other. -/
theorem readChild_plain {n : XmlNode} (h : n.name ≠ "nesting") (di : DiffInfo) :
    ∃ di', readChild di n = some di' ∧ ReadFrom [n] di di' := by
  unfold readChild
  by_cases hname : n.name = "name"
  · refine ⟨_, if_pos hname, ?_⟩
    constructor <;>
      simp [firstText_cons, firstText_nil, digests_cons, digests_nil, firstDigest_nil, readText,
        hname]
  rw [if_neg hname]
  by_cases holdName : n.name = "oldName"
  · refine ⟨_, if_pos holdName, ?_⟩
    constructor <;>
      simp [firstText_cons, firstText_nil, digests_cons, digests_nil, firstDigest_nil, readText,
        holdName]
  rw [if_neg holdName]
  by_cases hsha : n.name = "sha256"
  · refine ⟨_, if_pos hsha, ?_⟩
    constructor <;>
      simp [firstText_cons, firstText_nil, digests_cons, digests_nil, read_val, hsha]
  rw [if_neg hsha, if_neg h]
  by_cases hformat : n.name = "format"
  · refine ⟨_, if_pos hformat, ?_⟩
    constructor <;>
      simp [firstText_cons, firstText_nil, digests_cons, digests_nil, firstDigest_nil, readText,
        hformat]
  rw [if_neg hformat]
  by_cases hcompression : n.name = "compression"
  · refine ⟨_, if_pos hcompression, ?_⟩
    constructor <;>
      simp [firstText_cons, firstText_nil, digests_cons, digests_nil, firstDigest_nil, readText,
        hcompression]
  rw [if_neg hcompression]
  refine ⟨di, rfl, ?_⟩
  constructor <;>
    simp [firstText_cons, firstText_nil, digests_cons, digests_nil, firstDigest_nil, hname,
      holdName, hsha, hformat, hcompression]

theorem foldlM_readChild {nodes : List XmlNode} (h : ∀ n ∈ nodes, n.name ≠ "nesting")
    (di : DiffInfo) : ∃ di', nodes.foldlM readChild di = some di' ∧ ReadFrom nodes di di' := by
  induction nodes generalizing di with
  | nil => exact ⟨di, rfl, readFrom_nil di⟩
  | cons n nodes ih =>
      obtain ⟨di₁, hchild, hfrom⟩ := readChild_plain (h n List.mem_cons_self) di
      obtain ⟨di', hrest, hfrom'⟩ := ih (fun m hm => h m (List.mem_cons_of_mem _ hm)) di₁
      refine ⟨di', ?_, readFrom_cons hfrom hfrom'⟩
      rw [List.foldlM_cons, hchild]
      exact hrest

/-- get_xml_diff_info makes an item of a complete file and fails on any other. -/
theorem getXmlDiffInfo_plain (typ : DiffType) {fnode : XmlNode}
    (h : ∀ n ∈ fnode.children, n.name ≠ "nesting") :
    (Complete (typ, fnode) → ∃ di, getXmlDiffInfo typ fnode = some di ∧
      Describes digests (typ, fnode) di) ∧
      (¬ Complete (typ, fnode) → getXmlDiffInfo typ fnode = none) := by
  obtain ⟨di, hread, hfrom⟩ := foldlM_readChild h (.zero typ)
  have hname : di.name = firstText fnode.children "name" := by
    simpa [DiffInfo.zero] using hfrom.name
  have hformat : di.format = firstText fnode.children "format" := by
    simpa [DiffInfo.zero] using hfrom.format
  have hcompression : di.compression = firstText fnode.children "compression" := by
    simpa [DiffInfo.zero] using hfrom.compression
  have hget : getXmlDiffInfo typ fnode =
      if !isSet di.name || (typ = .changed && (!isSet di.format || !isSet di.compression)) then none
      else some di := by
    simp only [getXmlDiffInfo, hread, Option.bind_eq_bind, Option.bind_some]
  have hcomplete : Complete (typ, fnode) ↔
      ¬ (!isSet di.name ||
        (typ = .changed && (!isSet di.format || !isSet di.compression))) = true := by
    rw [hname, hformat, hcompression]
    simp only [Complete, Bool.or_eq_true, Bool.and_eq_true, Bool.not_eq_true', decide_eq_true_eq]
    grind
  rw [hget]
  constructor
  · intro hc
    refine ⟨di, if_neg (hcomplete.mp hc), hfrom.type, hname, ?_, hformat, hcompression, ?_, ?_⟩
    · simpa [DiffInfo.zero] using hfrom.oldName
    · simpa [DiffInfo.zero, Sha256Hex.empty] using hfrom.sha256Old
    · simpa [DiffInfo.zero, Sha256Hex.empty] using hfrom.sha256New
  · intro hc
    rw [hcomplete, not_not] at hc
    exact if_pos hc

end Items

section Loops

theorem readFiles_mapM (typ : DiffType) (nodes : List XmlNode) (diList : List DiffInfo) :
    match (nodes.filter fun fnode => fnode.name = "file").mapM (getXmlDiffInfo typ) with
    | some dis => readFiles typ nodes diList = (eUaOk, diList ++ dis)
    | none => (readFiles typ nodes diList).1 = eUaErr := by
  induction nodes generalizing diList with
  | nil => simp [readFiles]
  | cons fnode nodes ih =>
      by_cases hfile : fnode.name = "file"
      · rw [List.filter_cons_of_pos (by simpa using hfile), List.mapM_cons]
        simp only [readFiles, if_pos hfile]
        cases hget : getXmlDiffInfo typ fnode with
        | none => rfl
        | some di =>
            have hrest := ih (diList ++ [di])
            cases hmap : (nodes.filter fun fnode => fnode.name = "file").mapM
                (getXmlDiffInfo typ) with
            | none => simpa [hmap] using hrest
            | some dis => simpa [hmap] using hrest
      · rw [List.filter_cons_of_neg (by simpa using hfile)]
        simp only [readFiles, if_neg hfile]
        exact ih diList

theorem readSections_mapM (nodes : List XmlNode) (typ : Option DiffType)
    (diList : List DiffInfo) :
    match nodes.mapM sectionFiles with
    | some lists => readSections nodes typ diList = (eUaOk, diList ++ lists.flatten)
    | none => (readSections nodes typ diList).1 = eUaErr := by
  induction nodes generalizing typ diList with
  | nil => simp [readSections]
  | cons node nodes ih =>
      rw [List.mapM_cons]
      cases htyp : typeql node.name with
      | none =>
          have hfiles : sectionFiles node = some [] := by simp [sectionFiles, htyp]
          have hsection := isSection_none htyp typ
          cases hpair : isSection node.name sectionNames typ with
          | mk found typ' =>
              rw [hpair] at hsection
              have hfound : found = false := hsection
              subst hfound
              have hrest := ih typ' diList
              simp only [readSections, hpair, hfiles]
              cases hmap : nodes.mapM sectionFiles with
              | none => simpa [hmap] using hrest
              | some lists => simpa [hmap] using hrest
      | some t =>
          have hfiles : sectionFiles node =
              (node.children.filter fun fnode => fnode.name = "file").mapM (getXmlDiffInfo t) := by
            simp [sectionFiles, htyp]
          have hread := readFiles_mapM t node.children diList
          simp only [readSections, isSection_some htyp typ, hfiles]
          cases hdis : (node.children.filter fun fnode => fnode.name = "file").mapM
              (getXmlDiffInfo t) with
          | none =>
              rw [hdis] at hread
              have herr : (readFiles t node.children diList).1 = eUaErr := hread
              simp [herr]
          | some dis =>
              rw [hdis] at hread
              have hread : readFiles t node.children diList = (eUaOk, diList ++ dis) := hread
              have hrest := ih (some t) (diList ++ dis)
              simp only [hread, if_true]
              cases hmap : nodes.mapM sectionFiles with
              | none => simpa [hmap] using hrest
              | some lists => simpa [hmap] using hrest

/-- The loops read what the sections hold, or end with an error. -/
theorem parseFile_eq (root : XmlNode) (before : List DiffInfo) :
    parseFile true (some root) before =
      match parseDiffManifest root with
      | some diList => (eUaOk, diList)
      | none => (eUaErr, before) := by
  have hsections := readSections_mapM root.children none []
  have hparse : parseFile true (some root) before =
      if (readSections root.children none []).1 = eUaOk then readSections root.children none []
      else ((readSections root.children none []).1, before) := rfl
  rw [hparse, parseDiffManifest]
  cases hmap : root.children.mapM sectionFiles with
  | none =>
      rw [hmap] at hsections
      have herr : (readSections root.children none []).1 = eUaErr := hsections
      rw [herr, if_neg eUaErr_ne_ok]
      rfl
  | some lists =>
      rw [hmap] at hsections
      have hread : readSections root.children none [] = (eUaOk, [] ++ lists.flatten) := hsections
      rw [hread, if_pos rfl]
      rfl

end Loops

section Documents

/-- A partial function on the elements of a list is defined on all of them or on none. -/
theorem mapM_forall₂ {α β : Type} {f : α → Option β} {P : α → Prop} {R : α → β → Prop}
    {xs : List α} (h : ∀ x ∈ xs, (P x → ∃ y, f x = some y ∧ R x y) ∧ (¬ P x → f x = none)) :
    ((∀ x ∈ xs, P x) → ∃ ys, xs.mapM f = some ys ∧ List.Forall₂ R xs ys) ∧
      ((∃ x ∈ xs, ¬ P x) → xs.mapM f = none) := by
  induction xs with
  | nil => exact ⟨fun _ => ⟨[], rfl, .nil⟩, fun ⟨_, hmem, _⟩ => nomatch hmem⟩
  | cons x xs ih =>
      obtain ⟨hall, hnone⟩ := ih fun y hy => h y (List.mem_cons_of_mem _ hy)
      obtain ⟨hsome, hfails⟩ := h x List.mem_cons_self
      constructor
      · intro hP
        obtain ⟨y, hy, hR⟩ := hsome (hP x List.mem_cons_self)
        obtain ⟨ys, hys, hRs⟩ := hall fun z hz => hP z (List.mem_cons_of_mem _ hz)
        exact ⟨y :: ys, by simp [hy, hys], .cons hR hRs⟩
      · rintro ⟨z, hz, hnot⟩
        by_cases hP : P x
        · obtain ⟨y, hy, -⟩ := hsome hP
          have hrest : xs.mapM f = none := by
            refine hnone ⟨z, ?_, hnot⟩
            rcases List.mem_cons.mp hz with rfl | hz
            · exact absurd hP hnot
            · exact hz
          simp [hy, hrest]
        · simp [hfails hP]

theorem forall₂_flatten {α β γ : Type} {e : α → List β} {R : β → γ → Prop} {xs : List α}
    {lists : List (List γ)} (h : List.Forall₂ (fun x list => List.Forall₂ R (e x) list) xs lists) :
    List.Forall₂ R (xs.flatMap e) lists.flatten := by
  induction h with
  | nil => exact .nil
  | cons hx _ ih => exact List.rel_append hx ih

/-- The files of one section. -/
def entriesOf (node : XmlNode) : List (DiffType × XmlNode) :=
  match typeql node.name with
  | some typ => (node.children.filter fun fnode => fnode.name = "file").map (typ, ·)
  | none => []

theorem files_eq (root : XmlNode) : files root = root.children.flatMap entriesOf := rfl

/-- A section is read exactly if its files are complete. -/
theorem sectionFiles_plain {node : XmlNode}
    (h : ∀ fnode ∈ node.children, ∀ n ∈ fnode.children, n.name ≠ "nesting") :
    ((∀ entry ∈ entriesOf node, Complete entry) → ∃ dis, sectionFiles node = some dis ∧
      List.Forall₂ (Describes digests) (entriesOf node) dis) ∧
      (¬ (∀ entry ∈ entriesOf node, Complete entry) → sectionFiles node = none) := by
  unfold entriesOf sectionFiles
  cases typeql node.name with
  | none => exact ⟨fun _ => ⟨[], rfl, .nil⟩, fun hnot => absurd (by simp) hnot⟩
  | some typ =>
      obtain ⟨hall, hnone⟩ := mapM_forall₂
        (f := getXmlDiffInfo typ) fun fnode hfnode =>
          getXmlDiffInfo_plain typ (h fnode (List.mem_of_mem_filter hfnode))
      simp only [List.mem_map, forall_exists_index, and_imp, forall_apply_eq_imp_iff₂]
      constructor
      · intro hcomplete
        obtain ⟨dis, hdis, hmatch⟩ := hall hcomplete
        exact ⟨dis, hdis, by simpa using hmatch⟩
      · intro hnot
        simp only [not_forall] at hnot
        obtain ⟨fnode, hfnode, hincomplete⟩ := hnot
        exact hnone ⟨fnode, hfnode, hincomplete⟩

end Documents

/-- parse_diff_manifest takes a document without nesting exactly if its files are complete, with
one item for each file. -/
theorem plain_parses (root : XmlNode) (hplain : Plain root) (before : List DiffInfo) :
    Parses digests root before (parseFile true (some root) before) := by
  obtain ⟨hall, hnone⟩ := mapM_forall₂ fun node hnode => sectionFiles_plain (hplain node hnode)
  have hcomplete : (∀ entry ∈ files root, Complete entry) ↔
      ∀ node ∈ root.children, ∀ entry ∈ entriesOf node, Complete entry := by
    rw [files_eq]
    constructor
    · exact fun h node hnode entry hentry => h entry (List.mem_flatMap.mpr ⟨node, hnode, hentry⟩)
    · intro h entry hentry
      obtain ⟨node, hnode, hentry⟩ := List.mem_flatMap.mp hentry
      exact h node hnode entry hentry
  rw [parseFile_eq, parseDiffManifest]
  by_cases h : ∀ entry ∈ files root, Complete entry
  · obtain ⟨lists, hlists, hmatch⟩ := hall (hcomplete.mp h)
    rw [hlists]
    exact ⟨⟨fun _ => h, fun _ => rfl⟩, fun _ => forall₂_flatten hmatch, fun hfailed =>
      absurd rfl hfailed⟩
  · have hsome := mt hcomplete.mpr h
    simp only [not_forall] at hsome
    obtain ⟨node, hnode, entry, hentry, hincomplete⟩ := hsome
    rw [hnone ⟨node, hnode, fun hnode' => hincomplete (hnode' entry hentry)⟩]
    exact ⟨⟨fun hok => absurd hok eUaErr_ne_ok, fun h' => absurd h' h⟩,
      fun hok => absurd hok eUaErr_ne_ok, fun _ => rfl⟩

/-- A sha256 element with two old digests, of which only the second has full length. -/
def sampleFile : XmlNode :=
  .element "file" "" [.element "name" "app" [],
    .element "sha256" "" [.element "old" "" [], .element "old"
      "0123456789abcdef0123456789abcdef0123456789abcdef0123456789abcdef" []]]

/-- Sections with a changed, an added, an unchanged and a removed file, of which only the first has
format and compression; a section without a type and an element that is no file. -/
def sampleSections : XmlNode :=
  .element "diff" "" [
    .element "changed" "" [
      .element "file" "" [.element "name" "bin/app" [], .element "oldName" "bin/app.old" [],
        .element "sha256" "" [
          .element "old" "0123456789abcdef0123456789abcdef0123456789abcdef0123456789abcdef" [],
          .element "new" "fedcba9876543210fedcba9876543210fedcba9876543210fedcba9876543210" []],
        .element "format" "bsdiff" [], .element "compression" "xz" []],
      .element "comment" "second of two" []],
    .element "added" "" [
      .element "file" "" [.element "name" "etc/new.conf" [], .element "name" "ignored" [],
        .element "sha256" "" [
          .element "new" "00112233445566778899aabbccddeeff00112233445566778899aabbccddeeff" []]]],
    .element "renamed" "" [.element "file" "" []],
    .element "unchanged" "" [
      .element "file" "" [.element "name" "lib/common" [],
        .element "sha256" "" [.element "old" "short" []]]],
    .element "removed" "" [sampleFile]]

/-- The sections with a type give their files, in document order. -/
theorem plain_parses_example :
    Parses digests sampleSections [] (parseFile true (some sampleSections) []) ∧
      (parseFile true (some sampleSections) []).1 = eUaOk ∧
      (parseFile true (some sampleSections) []).2.map (fun di => (di.type, di.name)) =
        [(.changed, some "bin/app"), (.added, some "etc/new.conf"),
          (.unchanged, some "lib/common"), (.removed, some "app")] :=
  ⟨plain_parses sampleSections
      (by simp [Plain, sampleSections, sampleFile, XmlNode.children, XmlNode.name]) [],
    by decide +kernel, by decide +kernel⟩

def sampleManifest : XmlNode := .element "diff" "" [.element "removed" "" [sampleFile]]

theorem sampleManifest_plain : Plain sampleManifest := by
  simp [Plain, sampleManifest, sampleFile, XmlNode.children, XmlNode.name]

/-- The second of two old digests in one sha256 element is not looked at. -/
theorem second_digest_is_missed :
    ¬ ∀ (root : XmlNode) (before : List DiffInfo), Plain root →
      Parses allDigests root before (parseFile true (some root) before) := by
  intro h
  have hparses := h sampleManifest [] sampleManifest_plain
  have hitems := hparses.items (by decide)
  cases hitems with
  | cons hfirst _ =>
      have hold := hfirst.sha256Old
      revert hold
      decide

end EsyncUa.DiffEntries
