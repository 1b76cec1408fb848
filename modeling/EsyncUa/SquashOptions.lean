import EsyncUa.CStrings
import EsyncUa.DiffManifests

/-!
The options for mksquashfs that a diff manifest gives. get_xml_diff_info puts them one behind
the other into a buffer of fixed size, with a bound for each that is the size of a pointer.
-/
namespace EsyncUa.SquashOptions

open EsyncUa.CStrings EsyncUa.DiffManifests

def sizeofPointer : Nat := 8

/-- The size of `nesting.un_squash_fs`: a flag, the options, and of the directory its name, a
digest and its compression, each behind its padding. -/
def sizeofUnSquashFs : Nat := 8 + 8 + (8 + (sha256HexLength + 7) + 8)

/-- Text behind the text of mksqaush_opt_append, if there is room for it and a terminator. -/
def cat (append text : List Byte) : Option (List Byte) :=
  if (append ++ text).length < sizeofUnSquashFs then some (append ++ text) else none

/-- The bound that strncat gets. -/
def bound (mksqaushOpt : CString) : Nat := sizeT (sizeofPointer - mksqaushOpt.strlen - 1)

/-- strncat of an option and strcat of a space. -/
def appendOption (append : List Byte) (mksqaushOpt : CString) : Option (List Byte) := do
  let append ← cat append (mksqaushOpt.bytes.take (bound mksqaushOpt))
  cat append [32]

def isOption (b : XmlNode) : Bool := b.name = "mk-squash-fs-options"

def readSibling (append : List Byte) (b : XmlNode) : Option (List Byte) :=
  if isOption b then appendOption append (.ofString b.content) else some append

/-- `mk_squash_fs_options` after an un-squash-fs element, NULL if it has no option. -/
def mkSquashFsOptions (p : XmlNode) : Option (Option (List Byte)) :=
  match p.children.dropWhile fun b => !isOption b with
  | [] => some none
  | siblings => (siblings.foldlM readSibling []).map some

/-- The texts of the mk-squash-fs-options elements, in document order. -/
def options (p : XmlNode) : List CString :=
  (p.children.filter isOption).map fun b => .ofString b.content

/-- Each option's full text and a space. -/
def concatenated (options : List CString) : List Byte :=
  options.flatMap fun o => o.bytes ++ [32]

/-- All writes are inside the buffer, and it holds all options in full. -/
def Concatenates (p : XmlNode) : Prop :=
  mkSquashFsOptions p = some (some (concatenated (options p)))

/-- There are options, none of four to seven bytes, and the buffer has room for all. -/
def Fits (p : XmlNode) : Prop :=
  options p ≠ [] ∧ (∀ o ∈ options p, o.strlen ≤ 3 ∨ 8 ≤ o.strlen) ∧
    (concatenated (options p)).length < sizeofUnSquashFs

/-- What is written of the options. -/
def written (options : List CString) : List Byte :=
  options.flatMap fun o => o.bytes.take (bound o) ++ [32]

theorem appendOption_eq (append : List Byte) (o : CString) :
    appendOption append o = cat append (o.bytes.take (bound o) ++ [32]) := by
  unfold appendOption cat
  rw [← List.append_assoc]
  split
  · rfl
  · rename_i hlong
    rw [if_neg]
    · rfl
    · rw [List.length_append] at hlong ⊢
      simp only [List.length_append] at hlong ⊢
      omega

theorem foldlM_appendOption (os : List CString) (append : List Byte)
    (h : append.length < sizeofUnSquashFs) :
    os.foldlM appendOption append = cat append (written os) := by
  induction os generalizing append with
  | nil => simp [written, cat, h]
  | cons o os ih =>
      have hcons : written (o :: os) = o.bytes.take (bound o) ++ [32] ++ written os :=
        List.flatMap_cons
      rw [List.foldlM_cons, appendOption_eq, hcons]
      unfold cat
      split
      · rename_i hfits
        rw [Option.bind_eq_bind, Option.bind_some, ih _ hfits, cat, List.append_assoc append]
      · rename_i hlong
        rw [if_neg]
        · rfl
        · simp only [List.length_append] at hlong ⊢
          omega

/-- The loop over the siblings reads the options and skips the rest. -/
theorem foldlM_readSibling (siblings : List XmlNode) (append : List Byte) :
    siblings.foldlM readSibling append =
      ((siblings.filter isOption).map fun b => CString.ofString b.content).foldlM
        appendOption append := by
  induction siblings generalizing append with
  | nil => rfl
  | cons b siblings ih =>
      by_cases hb : isOption b = true
      · simp only [List.foldlM_cons, readSibling, if_pos hb, List.filter_cons, List.map_cons]
        exact congrArg _ (funext ih)
      · simp only [List.foldlM_cons, readSibling, if_neg hb, List.filter_cons]
        exact ih append

theorem mkSquashFsOptions_eq (p : XmlNode) :
    mkSquashFsOptions p =
      if options p = [] then some none else (cat [] (written (options p))).map some := by
  have hskip : (p.children.dropWhile fun b => !isOption b).filter isOption =
      p.children.filter isOption := by
    induction p.children with
    | nil => rfl
    | cons b children ih =>
        by_cases hb : isOption b = true
        · simp [hb]
        · simp [hb, ih]
  unfold mkSquashFsOptions
  cases hsiblings : p.children.dropWhile fun b => !isOption b with
  | nil =>
      rw [hsiblings] at hskip
      have hnone : options p = [] := by simp [options, ← hskip]
      simp [hnone]
  | cons b siblings =>
      have hb : isOption b = true := by
        have hhead := List.head?_dropWhile_not (fun b => !isOption b) p.children
        rw [hsiblings] at hhead
        simpa using hhead
      rw [hsiblings] at hskip
      have hsome : options p ≠ [] := by simp [options, ← hskip, hb]
      simp only [if_neg hsome]
      rw [foldlM_readSibling, hskip, ← options, foldlM_appendOption _ _ (by decide)]

theorem length_written_le (os : List CString) :
    (written os).length ≤ (concatenated os).length := by
  induction os with
  | nil => exact Nat.le_refl _
  | cons o os ih =>
      simp only [written, concatenated, List.flatMap_cons, List.length_append,
        List.length_take] at ih ⊢
      omega

/-- No more of the options is written than there is; where the lengths agree it is all. -/
theorem written_full {os : List CString} (h : (concatenated os).length ≤ (written os).length) :
    ∀ o ∈ os, o.strlen ≤ bound o := by
  induction os with
  | nil => simp
  | cons o os ih =>
      have hrest := length_written_le os
      simp only [written, concatenated, List.flatMap_cons, List.length_append, List.length_take,
        List.length_cons, List.length_nil] at h ih hrest
      have hfirst : o.strlen ≤ bound o := by
        unfold CString.strlen
        omega
      have htail := ih (by omega)
      simpa [hfirst] using htail

theorem written_eq {os : List CString} (h : ∀ o ∈ os, o.strlen ≤ bound o) :
    written os = concatenated os := by
  unfold written concatenated
  induction os with
  | nil => rfl
  | cons o os ih =>
      rw [List.flatMap_cons, List.flatMap_cons,
        List.take_of_length_le (h o List.mem_cons_self),
        ih fun o' ho => h o' (List.mem_cons_of_mem _ ho)]

/-- The bound of strncat, less an option of eight bytes and more, wraps around. -/
theorem strlen_le_bound_iff {o : CString} (h : o.strlen < sizeofUnSquashFs) :
    o.strlen ≤ bound o ↔ o.strlen ≤ 3 ∨ 8 ≤ o.strlen := by
  have hlt : o.strlen < 104 := h
  unfold bound sizeT sizeofPointer
  omega

theorem strlen_le_concatenated {o : CString} {os : List CString} (h : o ∈ os) :
    o.strlen ≤ (concatenated os).length := by
  induction os with
  | nil => cases h
  | cons o' os ih =>
      simp only [concatenated, List.flatMap_cons, List.length_append] at ih ⊢
      rcases List.mem_cons.mp h with rfl | h
      · unfold CString.strlen
        omega
      · have := ih h
        omega

end EsyncUa.SquashOptions
