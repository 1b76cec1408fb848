import EsyncUa.Deltas
import EsyncUa.ShellWords

/-!
The command lines that delta_patch passes to the shell: the path of the tool, and its arguments
with each placeholder replaced by a path as it stands. The shell takes the line apart again.
-/
namespace EsyncUa.PatchCommands

open EsyncUa.JsonProperties EsyncUa.DiffManifests EsyncUa.Deltas EsyncUa.ShellWords

/-- OFA, NFA and PFA. -/
def ofa : String := "{o}"
def nfa : String := "{n}"
def pfa : String := "{p}"

/-- strcasestr finds the needle at the front of the text. -/
def startsWith (needle text : List Char) : Bool :=
  (text.take needle.length).map Char.toLower = needle.map Char.toLower

section Expansion

variable (old new diff : Option String)

/-- What the condition in the loop of expand_tool_args finds: the replacement and the
placeholder. -/
def placeholderAt (s : List Char) : Option (String × String) :=
  if old.isSome && startsWith ofa.toList s then old.map (·, ofa)
  else if new.isSome && startsWith nfa.toList s then new.map (·, nfa)
  else if diff.isSome && startsWith pfa.toList s then diff.map (·, pfa)
  else none

/-- The loop of expand_tool_args; the number is that of the characters to skip first. -/
def expandFrom : Nat → List Char → List Char
  | _, [] => []
  | skip + 1, _ :: s => expandFrom skip s
  | 0, c :: s =>
      match placeholderAt old new diff (c :: s) with
      | some (rp, ex) => rp.toList ++ expandFrom (ex.toList.length - 1) s
      | none => c :: expandFrom 0 s

end Expansion

/-- expand_tool_args. -/
def expandToolArgs (args : String) (old new diff : Option String) : String :=
  String.ofList (expandFrom old new diff 0 args.toList)

/-- TOOL_EXEC. -/
structure ToolExec where
  tool : DeltaTool
  old : String
  new : String
  diff : Option String

/-- The command that TOOL_EXEC passes to system. -/
def ToolExec.cmd (e : ToolExec) : String :=
  e.tool.path ++ " " ++ expandToolArgs e.tool.args (some e.old) (some e.new) e.diff

/-- The uses of TOOL_EXEC in a run of delta_patch, of which the first may fail. -/
def toolExecs (stg : DeltaStg) (diffInfo : DiffInfo) (old new diff : String)
    (decompressed : Bool) : List ToolExec :=
  match patchdth stg (diffInfo.format.getD "") with
  | .error _ => []
  | .ok tool =>
      let applied := fun file => (tool.map fun tool => ToolExec.mk tool old new (some file)).toList
      if diffInfo.compression.getD "" ≠ "none" ∧ ¬ tool.any DeltaTool.intl then
        match findTool stg.decompTool (diffInfo.compression.getD "") with
        | none => []
        | some decompdth =>
            ⟨decompdth, diff, diff ++ ".z", none⟩ ::
              (if decompressed then applied (diff ++ ".z") else [])
      else applied diff

/-- A part of a command: a character of the tool or its arguments, or a path. -/
inductive Part
  | char (c : Char)
  | path (text : List Char)

namespace Part

def text : Part → List Char
  | char c => [c]
  | path text => text

end Part

/-- The arguments with the paths kept apart. -/
def partsFrom (old new diff : Option String) : Nat → List Char → List Part
  | _, [] => []
  | skip + 1, _ :: s => partsFrom old new diff skip s
  | 0, c :: s =>
      match placeholderAt old new diff (c :: s) with
      | some (rp, ex) => .path rp.toList :: partsFrom old new diff (ex.toList.length - 1) s
      | none => .char c :: partsFrom old new diff 0 s

/-- The parts of a command. -/
def ToolExec.parts (e : ToolExec) : List Part :=
  (e.tool.path ++ " ").toList.map .char ++
    partsFrom (some e.old) (some e.new) e.diff 0 e.tool.args.toList

/-- The shell reads each path as a part of one word. -/
def ReadsPaths : Reader → List Part → Prop
  | _, [] => True
  | s, .char c :: parts => ReadsPaths (s.step c) parts
  | s, .path text :: parts => s.read text = s.literal text ∧ ReadsPaths (s.literal text) parts

instance decidableReadsPaths : (s : Reader) → (parts : List Part) → Decidable (ReadsPaths s parts)
  | _, [] => inferInstanceAs (Decidable True)
  | s, .char c :: parts => decidableReadsPaths (s.step c) parts
  | s, .path text :: parts =>
      @instDecidableAnd _ _ _ (decidableReadsPaths (s.literal text) parts)

/-- Each path is tame where it stands. -/
def TamePaths : Reader → List Part → Prop
  | _, [] => True
  | s, .char c :: parts => TamePaths (s.step c) parts
  | s, .path text :: parts =>
      Tame s.mode s.current.inWord text ∧ TamePaths (s.literal text) parts

/-- The words and operators of the parts, with each path as a part of one word. -/
def readParts (s : Reader) (parts : List Part) : Reader :=
  parts.foldl (fun s part => match part with
    | .char c => s.step c
    | .path text => s.literal text) s

theorem expandFrom_eq (old new diff : Option String) (skip : Nat) (s : List Char) :
    expandFrom old new diff skip s = (partsFrom old new diff skip s).flatMap Part.text := by
  induction s generalizing skip with
  | nil => cases skip <;> rfl
  | cons c s ih =>
      cases skip with
      | succ skip => exact ih skip
      | zero =>
          simp only [expandFrom, partsFrom]
          split
          · rw [List.flatMap_cons, ih]
            rfl
          · rw [List.flatMap_cons, ih]
            rfl

theorem cmd_eq (e : ToolExec) : e.cmd.toList = e.parts.flatMap Part.text := by
  rw [ToolExec.cmd, ToolExec.parts, List.flatMap_append, String.toList_append, expandToolArgs,
    String.toList_ofList, expandFrom_eq, List.flatMap_map]
  congr 1
  exact (List.flatMap_singleton' _).symm

/-- A command whose paths are read as parts of words has the words it should. -/
theorem read_of_readsPaths {s : Reader} {parts : List Part} (h : ReadsPaths s parts) :
    s.read (parts.flatMap Part.text) = readParts s parts := by
  induction parts generalizing s with
  | nil => rfl
  | cons part parts ih =>
      rw [List.flatMap_cons, Reader.read, List.foldl_append]
      cases part with
      | char c => exact ih h
      | path text =>
          obtain ⟨htext, hrest⟩ := h
          have hread : List.foldl Reader.step s text = s.literal text := htext
          rw [Part.text, hread]
          exact ih hrest

theorem readsPaths_iff_tame {s : Reader} (hs : s.Sound) (parts : List Part) :
    ReadsPaths s parts ↔ TamePaths s parts := by
  induction parts generalizing s with
  | nil => exact Iff.rfl
  | cons part parts ih =>
      cases part with
      | char c => exact ih (Reader.sound_step hs c)
      | path text =>
          exact and_congr (Reader.read_eq_literal_iff hs text) (ih (Reader.sound_literal hs text))

/-- In every command of delta_patch the shell reads each path as a part of one word. -/
def KeepsWords (stg : DeltaStg) (diffInfo : DiffInfo) (old new diff : String) : Prop :=
  ∀ decompressed, ∀ e ∈ toolExecs stg diffInfo old new diff decompressed,
    ReadsPaths Reader.start e.parts

/-- The paths of the commands of delta_patch are tame where they stand. -/
def HasTamePaths (stg : DeltaStg) (diffInfo : DiffInfo) (old new diff : String) : Prop :=
  ∀ decompressed, ∀ e ∈ toolExecs stg diffInfo old new diff decompressed,
    TamePaths Reader.start e.parts

/-- The commands of delta_patch keep the words of their templates for exactly the tame paths. -/
theorem keepsWords_iff (stg : DeltaStg) (diffInfo : DiffInfo) (old new diff : String) :
    KeepsWords stg diffInfo old new diff ↔ HasTamePaths stg diffInfo old new diff :=
  forall_congr' fun _ => forall_congr' fun _ => forall_congr' fun _ =>
    readsPaths_iff_tame Reader.sound_start _

/-- An absolute path without characters that the shell treats apart. -/
def Quiet (path : String) : Prop :=
  ∃ rest, path.toList = '/' :: rest ∧ ∀ c ∈ rest, Ordinary true c

theorem Quiet.append {path : String} (h : Quiet path) (suffix : String)
    (hsuffix : ∀ c ∈ suffix.toList, Ordinary true c) : Quiet (path ++ suffix) := by
  obtain ⟨rest, hpath, hrest⟩ := h
  refine ⟨rest ++ suffix.toList, by rw [String.toList_append, hpath]; rfl, fun c hc => ?_⟩
  rcases List.mem_append.mp hc with hc | hc
  · exact hrest c hc
  · exact hsuffix c hc

theorem placeholderAt_mem {old new diff : Option String} {s : List Char} {rp ex : String}
    (h : placeholderAt old new diff s = some (rp, ex)) : some rp ∈ [old, new, diff] := by
  have hof : ∀ {path : Option String} {needle : String},
      path.map (·, needle) = some (rp, ex) → path = some rp := by
    intro path needle hmap
    obtain ⟨text, rfl, heq⟩ := Option.map_eq_some_iff.mp hmap
    rw [(Prod.mk.inj heq).1]
  unfold placeholderAt at h
  split at h
  · simp [hof h]
  · split at h
    · simp [hof h]
    · split at h
      · simp [hof h]
      · cases h

theorem slash_ordinary : Ordinary false '/' :=
  ⟨rfl, rfl, by decide, by decide, by decide, rfl, .inr ⟨by decide, by decide⟩⟩

/-- Quiet paths are tame in every template. -/
theorem tamePaths_of_quiet {old new diff : Option String}
    (h : ∀ text, some text ∈ [old, new, diff] → Quiet text) (skip : Nat)
    (args : List Char) (s : Reader) : TamePaths s (partsFrom old new diff skip args) := by
  induction args generalizing skip s with
  | nil => cases skip <;> trivial
  | cons c args ih =>
      cases skip with
      | succ skip => exact ih skip s
      | zero =>
          rw [partsFrom]
          split
          · rename_i rp ex hplace
            obtain ⟨rest, hrp, hrest⟩ := h rp (placeholderAt_mem hplace)
            refine ⟨?_, ih _ _⟩
            rw [hrp]
            exact tame_of_ordinary slash_ordinary hrest _ _
          · exact ih 0 _

theorem tamePaths_chars (text : List Char) (s : Reader) (parts : List Part)
    (h : ∀ s, TamePaths s parts) : TamePaths s (text.map .char ++ parts) := by
  induction text generalizing s with
  | nil => exact h s
  | cons c text ih => exact ih (s.step c)

/-- A diff is unpacked beside itself, and applied from the old to the new file. -/
theorem mem_toolExecs {stg : DeltaStg} {diffInfo : DiffInfo} {old new diff : String}
    {decompressed : Bool} {e : ToolExec}
    (h : e ∈ toolExecs stg diffInfo old new diff decompressed) :
    (e.old = diff ∧ e.new = diff ++ ".z" ∧ e.diff = none) ∨
      (e.old = old ∧ e.new = new ∧ (e.diff = some diff ∨ e.diff = some (diff ++ ".z"))) := by
  have happlied : ∀ {tool : Option DeltaTool} {file : String},
      e ∈ (tool.map fun tool => ToolExec.mk tool old new (some file)).toList →
        e.old = old ∧ e.new = new ∧ e.diff = some file := by
    intro tool file hmem
    obtain ⟨tool, -, rfl⟩ := Option.map_eq_some_iff.mp (Option.mem_toList.mp hmem)
    exact ⟨rfl, rfl, rfl⟩
  unfold toolExecs at h
  split at h
  · cases h
  · split at h
    · split at h
      · cases h
      · rcases List.mem_cons.mp h with rfl | h
        · exact .inl ⟨rfl, rfl, rfl⟩
        · split at h
          · obtain ⟨hold, hnew, hdiff⟩ := happlied h
            exact .inr ⟨hold, hnew, .inr hdiff⟩
          · cases h
    · obtain ⟨hold, hnew, hdiff⟩ := happlied h
      exact .inr ⟨hold, hnew, .inl hdiff⟩

/-- With quiet paths every tool gets the words of its template. -/
theorem hasTamePaths_of_quiet (stg : DeltaStg) (diffInfo : DiffInfo) {old new diff : String}
    (hold : Quiet old) (hnew : Quiet new) (hdiff : Quiet diff) :
    HasTamePaths stg diffInfo old new diff := by
  have hunpacked : Quiet (diff ++ ".z") := by
    refine hdiff.append ".z" fun c hc => ?_
    have hc : c ∈ ['.', 'z'] := hc
    simp only [List.mem_cons, List.not_mem_nil, or_false] at hc
    rcases hc with rfl | rfl
    · exact ⟨rfl, rfl, by decide, by decide, by decide, rfl, .inl rfl⟩
    · exact ⟨rfl, rfl, by decide, by decide, by decide, rfl, .inl rfl⟩
  intro decompressed e he
  have hpaths : ∀ text, some text ∈ [some e.old, some e.new, e.diff] → Quiet text := by
    intro text htext
    simp only [List.mem_cons, List.not_mem_nil, or_false, Option.some.injEq] at htext
    rcases mem_toolExecs he with ⟨ho, hn, hd⟩ | ⟨ho, hn, hd⟩
    · rcases htext with rfl | rfl | htext
      · exact ho ▸ hdiff
      · exact hn ▸ hunpacked
      · rw [hd] at htext
        cases htext
    · rcases htext with rfl | rfl | htext
      · exact ho ▸ hold
      · exact hn ▸ hnew
      · rcases hd with hd | hd
        · rw [hd] at htext
          cases htext
          exact hdiff
        · rw [hd] at htext
          cases htext
          exact hunpacked
  exact tamePaths_chars _ _ _ fun s => tamePaths_of_quiet hpaths 0 _ s

/-- The operation of a world that stands for the command. -/
def ToolExec.op (e : ToolExec) : Op :=
  match e.diff with
  | none => .decompress e.tool e.old e.new
  | some diff => .patch e.tool e.old e.new diff

section Worlds

variable {w w' : World}

theorem runTool_congr {o : Op} (h : ∀ n files, w.answer n files o = w'.answer n files o)
    (result : o.Ans → Bool × Option Checksums.Bytes) (output : String) :
    runTool w o result output = runTool w' o result output := by
  have hask : ask w o = ask w' o := by
    funext d
    simp only [ask, h]
  simp only [runTool, hask]

/-- The last part of delta_patch, which applies the diff. -/
def applied (w : World) (tool : Option DeltaTool) (old new file : String) :
    DeltaM Rc :=
  match tool with
  | some tool => do return if ← patch w tool old new file then eUaOk else eUaSys
  | none => copyFile w file new

theorem applied_congr {tool : Option DeltaTool} {old new file : String}
    (hcopy : ∀ src, copyFile w src new = copyFile w' src new)
    (hpatch : ∀ tool', tool = some tool' → ∀ n files,
      w.answer n files (.patch tool' old new file) =
        w'.answer n files (.patch tool' old new file)) :
    applied w tool old new file = applied w' tool old new file := by
  cases tool with
  | none => exact hcopy file
  | some tool =>
      have hrun : patch w tool old new file = patch w' tool old new file :=
        runTool_congr (hpatch tool rfl) _ _
      simp only [applied, hrun]

/-- Beside the commands delta_patch asks for nothing but copies. -/
theorem deltaPatch_asks (stg : DeltaStg) (diffInfo : DiffInfo) (old new diff : String)
    (hcopies : ∀ n files src dst,
      w.answer n files (.copyFile src dst) = w'.answer n files (.copyFile src dst))
    (hcommands : ∀ n files decompressed, ∀ e ∈ toolExecs stg diffInfo old new diff decompressed,
      w.answer n files e.op = w'.answer n files e.op) :
    deltaPatch w stg diffInfo old new diff = deltaPatch w' stg diffInfo old new diff := by
  have hcopy : ∀ src, copyFile w src new = copyFile w' src new := by
    intro src
    have hask : ask w (.copyFile src new) = ask w' (.copyFile src new) := by
      funext d
      simp only [ask, hcopies]
    simp only [copyFile, hask]
  unfold toolExecs at hcommands
  unfold deltaPatch
  cases hpatch : patchdth stg (diffInfo.format.getD "") with
  | error err => rfl
  | ok tool =>
      simp only [hpatch] at hcommands
      unfold diffp
      by_cases hpacked : diffInfo.compression.getD "" ≠ "none" ∧ ¬ tool.any DeltaTool.intl
      · simp only [if_pos hpacked] at hcommands ⊢
        cases hfind : findTool stg.decompTool (diffInfo.compression.getD "") with
        | none => rfl
        | some decompdth =>
            simp only [hfind] at hcommands ⊢
            have hunpack : decompress w decompdth diff (diff ++ ".z") =
                decompress w' decompdth diff (diff ++ ".z") :=
              runTool_congr (fun n files => hcommands n files true _ List.mem_cons_self) _ _
            have happly : applied w tool old new (diff ++ ".z") =
                applied w' tool old new (diff ++ ".z") := by
              refine applied_congr hcopy fun tool' htool n files => ?_
              exact hcommands n files true ⟨tool', old, new, some (diff ++ ".z")⟩
                (List.mem_cons_of_mem _ (by simp [htool]))
            rw [hunpack, bind_assoc, bind_assoc]
            refine bind_congr fun unpacked => ?_
            cases unpacked with
            | false => rfl
            | true => exact happly
      · simp only [if_neg hpacked] at hcommands ⊢
        have happly : applied w tool old new diff = applied w' tool old new diff := by
          refine applied_congr hcopy fun tool' htool n files => ?_
          exact hcommands n files true ⟨tool', old, new, some diff⟩ (by simp [htool])
        exact happly

end Worlds

/-- The patch tool of the format "esdiff". -/
def espatch : DeltaTool := ⟨"esdiff", "espatch", "{o} {n} {p}", true⟩

/-- A patch with the paths that delta_reconstruct makes of the old name "a;reboot". -/
def samplePatch : ToolExec := ⟨espatch, "/c/old/a;reboot", "/c/new/a", some "/c/diff/a"⟩

def lits (text : String) : Token := .word (text.toList.map .lit)

/-- The shell is told to run a command that the old name ends with. -/
theorem name_becomes_command :
    (Reader.start.read samplePatch.cmd.toList).finish =
        [lits "espatch", lits "/c/old/a", .op [';'], lits "reboot", lits "/c/new/a",
          lits "/c/diff/a"] ∧
      (readParts Reader.start samplePatch.parts).finish =
        [lits "espatch", lits "/c/old/a;reboot", lits "/c/new/a", lits "/c/diff/a"] := by
  decide

end EsyncUa.PatchCommands
