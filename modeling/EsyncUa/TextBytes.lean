import EsyncUa.PatchCommands
import EsyncUa.SquashOptions
import EsyncUa.ToolArguments

/-!
The texts of commands and manifests as the bytes of C strings. What is written byte by byte is
the UTF-8 of the texts that the other modules work with.
-/
namespace EsyncUa.TextBytes

open EsyncUa.CStrings

/-- No character of the text ends a string. -/
def NulFree (s : String) : Prop := ∀ c ∈ s.toList, c.toNat ≠ 0

section LowerCase

theorem toNat_toLower (c : Char) :
    c.toLower.toNat = if 65 ≤ c.toNat ∧ c.toNat ≤ 90 then c.toNat + 32 else c.toNat := by
  have hiff : (c.val ≥ 'A'.val ∧ c.val ≤ 'Z'.val) ↔ 65 ≤ c.toNat ∧ c.toNat ≤ 90 := by
    rw [ge_iff_le, UInt32.le_iff_toNat_le, UInt32.le_iff_toNat_le]
    rfl
  unfold Char.toLower
  split
  · rename_i h
    have hrange := hiff.mp h
    rw [if_pos hrange]
    change (c.val + ('a'.val - 'A'.val)).toNat = c.toNat + 32
    rw [UInt32.toNat_add]
    change (c.toNat + 32) % 2 ^ 32 = c.toNat + 32
    omega
  · rename_i h
    rw [if_neg (hiff.not.mp h)]

theorem tolower_ofNat {n : Nat} (h : n < 128) :
    ToolArguments.tolower (.ofNat n) = .ofNat (if 65 ≤ n ∧ n ≤ 90 then n + 32 else n) := by
  have hn : (UInt8.ofNat n).toNat = n := UInt8.toNat_ofNat_of_lt' (Nat.lt_trans h (by decide))
  have hiff : (65 ≤ UInt8.ofNat n ∧ UInt8.ofNat n ≤ 90) ↔ 65 ≤ n ∧ n ≤ 90 := by
    rw [UInt8.le_iff_toNat_le, UInt8.le_iff_toNat_le, hn]
    rfl
  unfold ToolArguments.tolower
  by_cases hupper : 65 ≤ n ∧ n ≤ 90
  · rw [if_pos (hiff.mpr hupper), if_pos hupper, UInt8.ofNat_add]
    rfl
  · rw [if_neg (hiff.not.mpr hupper), if_neg hupper]

theorem tolower_high {b : Byte} (h : 128 ≤ b.toNat) : ToolArguments.tolower b = b := by
  refine if_neg fun hupper => ?_
  have hle : b.toNat ≤ 90 := UInt8.le_iff_toNat_le.mp hupper.2
  omega

/-- The bytes of a text in lower case. -/
theorem map_tolower_utf8 (text : List Char) :
    (utf8 text).map ToolArguments.tolower = utf8 (text.map Char.toLower) := by
  induction text with
  | nil => rfl
  | cons c text ih =>
      rw [utf8_cons, List.map_append, ih, List.map_cons, utf8_cons]
      congr 1
      have hlower := toNat_toLower c
      by_cases h : c.toNat < 128
      · have hc : c.toLower.toNat < 128 := by
          rw [hlower]
          split <;> omega
        rw [utf8EncodeChar_ascii h, utf8EncodeChar_ascii hc, hlower]
        exact congrArg (· :: []) (tolower_ofNat h)
      · rw [if_neg (by omega)] at hlower
        rw [Char.toNat_inj.mp hlower]
        have hsame : ∀ b ∈ String.utf8EncodeChar c, ToolArguments.tolower b = id b :=
          fun b hb => tolower_high (utf8EncodeChar_other (by omega) hb)
        rw [List.map_congr_left hsame, List.map_id]

end LowerCase

section Characters

theorem utf8_injective {text more : List Char} (h : utf8 text = utf8 more) : text = more := by
  have hbytes : (String.ofList text).toByteArray = (String.ofList more).toByteArray := by
    rw [String.toByteArray_ofList, String.toByteArray_ofList]
    exact congrArg List.toByteArray h
  rw [← String.toList_ofList (l := text), String.toByteArray_inj.mp hbytes, String.toList_ofList]

/-- Bytes of ASCII at the front of a text are its first characters. -/
theorem utf8_front {text : List Char} {found rest : List Byte} (h : utf8 text = found ++ rest)
    (hfound : ∀ b ∈ found, b.toNat < 128) :
    ∃ front back, text = front ++ back ∧ utf8 front = found ∧ utf8 back = rest := by
  induction found generalizing text with
  | nil => exact ⟨[], text, rfl, rfl, h⟩
  | cons b found ih =>
      cases text with
      | nil => cases h
      | cons c text =>
          rw [utf8_cons] at h
          by_cases hc : c.toNat < 128
          · rw [utf8EncodeChar_ascii hc, List.singleton_append, List.cons_append,
              List.cons.injEq] at h
            obtain ⟨hb, h⟩ := h
            obtain ⟨front, back, rfl, hfront, hback⟩ :=
              ih h fun b hb => hfound b (List.mem_cons_of_mem _ hb)
            refine ⟨c :: front, back, rfl, ?_, hback⟩
            rw [utf8_cons, utf8EncodeChar_ascii hc, hfront, hb]
            rfl
          · cases hbytes : String.utf8EncodeChar c with
            | nil => exact absurd hbytes (String.utf8EncodeChar_ne_nil)
            | cons b' bs =>
                rw [hbytes, List.cons_append, List.cons_append, List.cons.injEq] at h
                have hhigh : 128 ≤ b'.toNat :=
                  utf8EncodeChar_other (by omega) (hbytes ▸ List.mem_cons_self)
                have hlow := hfound b List.mem_cons_self
                rw [h.1] at hhigh
                omega

end Characters

section Expansion

/-- A path as the string that the loop copies. -/
def bytes (path : Option String) : Option CString := path.map .ofString

variable (old new diff : Option String)

/-- A path that is present, and its placeholder. -/
def Stands (rp ex : String) : Prop :=
  (old = some rp ∧ ex = PatchCommands.ofa) ∨ (new = some rp ∧ ex = PatchCommands.nfa) ∨
    (diff = some rp ∧ ex = PatchCommands.pfa)

variable {old new diff}

theorem replaces_iff {rp : CString} {ex : List Byte} :
    ToolArguments.Replaces (bytes old) (bytes new) (bytes diff) rp ex ↔
      ∃ path placeholder, Stands old new diff path placeholder ∧ rp = .ofString path ∧
        ex = utf8 placeholder.toList := by
  have ho : ToolArguments.ofa = utf8 PatchCommands.ofa.toList := by decide
  have hn : ToolArguments.nfa = utf8 PatchCommands.nfa.toList := by decide
  have hp : ToolArguments.pfa = utf8 PatchCommands.pfa.toList := by decide
  simp only [ToolArguments.Replaces, Stands, bytes, Option.map_eq_some_iff, ho, hn, hp]
  constructor
  · rintro (⟨⟨path, hpath, rfl⟩, rfl⟩ | ⟨⟨path, hpath, rfl⟩, rfl⟩ | ⟨⟨path, hpath, rfl⟩, rfl⟩)
    · exact ⟨path, _, .inl ⟨hpath, rfl⟩, rfl, rfl⟩
    · exact ⟨path, _, .inr (.inl ⟨hpath, rfl⟩), rfl, rfl⟩
    · exact ⟨path, _, .inr (.inr ⟨hpath, rfl⟩), rfl, rfl⟩
  · rintro ⟨path, placeholder, ⟨hpath, rfl⟩ | ⟨hpath, rfl⟩ | ⟨hpath, rfl⟩, rfl, rfl⟩
    · exact .inl ⟨⟨path, hpath, rfl⟩, rfl⟩
    · exact .inr (.inl ⟨⟨path, hpath, rfl⟩, rfl⟩)
    · exact .inr (.inr ⟨⟨path, hpath, rfl⟩, rfl⟩)

theorem Stands.lower {rp ex : String} (h : Stands old new diff rp ex) :
    ex.toList.map Char.toLower = ex.toList := by
  rcases h with ⟨-, rfl⟩ | ⟨-, rfl⟩ | ⟨-, rfl⟩ <;> decide

theorem Stands.length {rp ex : String} (h : Stands old new diff rp ex) :
    ex.toList.length = 3 := by
  rcases h with ⟨-, rfl⟩ | ⟨-, rfl⟩ | ⟨-, rfl⟩ <;> decide

/-- Only bytes of ASCII are a placeholder in another case. -/
theorem Stands.ascii {rp ex : String} (h : Stands old new diff rp ex) {found : List Byte}
    (hfound : found.map ToolArguments.tolower = utf8 ex.toList) : ∀ b ∈ found, b.toNat < 128 := by
  intro b hb
  by_contra hhigh
  have hmem : b ∈ utf8 ex.toList := by
    rw [← hfound, List.mem_map]
    exact ⟨b, hb, tolower_high (by omega)⟩
  have hall : (utf8 ex.toList).all (fun b => b.toNat < 128) = true := by
    rcases h with ⟨-, rfl⟩ | ⟨-, rfl⟩ | ⟨-, rfl⟩ <;> decide
  exact hhigh (by simpa using List.all_eq_true.mp hall b hmem)

theorem placeholderAt_some {s : List Char} {rp ex : String}
    (h : PatchCommands.placeholderAt old new diff s = some (rp, ex)) :
    Stands old new diff rp ex ∧ PatchCommands.startsWith ex.toList s = true := by
  unfold PatchCommands.placeholderAt at h
  split at h
  · rename_i hfound
    simp only [Option.map_eq_some_iff, Prod.mk.injEq] at h
    obtain ⟨path, hpath, rfl, rfl⟩ := h
    exact ⟨.inl ⟨hpath, rfl⟩, (Bool.and_eq_true_iff.mp hfound).2⟩
  · split at h
    · rename_i hfound
      simp only [Option.map_eq_some_iff, Prod.mk.injEq] at h
      obtain ⟨path, hpath, rfl, rfl⟩ := h
      exact ⟨.inr (.inl ⟨hpath, rfl⟩), (Bool.and_eq_true_iff.mp hfound).2⟩
    · split at h
      · rename_i hfound
        simp only [Option.map_eq_some_iff, Prod.mk.injEq] at h
        obtain ⟨path, hpath, rfl, rfl⟩ := h
        exact ⟨.inr (.inr ⟨hpath, rfl⟩), (Bool.and_eq_true_iff.mp hfound).2⟩
      · cases h

theorem branch_none {path : Option String} {found : Bool} {f : String → String × String}
    {rest : Option (String × String)}
    (h : (if path.isSome && found then path.map f else rest) = none) :
    (∀ rp, path = some rp → found = false) ∧ rest = none := by
  cases path <;> cases found <;> simp_all

theorem placeholderAt_none {s : List Char}
    (h : PatchCommands.placeholderAt old new diff s = none) {rp ex : String}
    (hstands : Stands old new diff rp ex) : PatchCommands.startsWith ex.toList s = false := by
  obtain ⟨ho, h⟩ := branch_none h
  obtain ⟨hn, h⟩ := branch_none h
  obtain ⟨hp, -⟩ := branch_none h
  rcases hstands with ⟨hpath, rfl⟩ | ⟨hpath, rfl⟩ | ⟨hpath, rfl⟩
  · exact ho rp hpath
  · exact hn rp hpath
  · exact hp rp hpath

theorem startsWith_iff {needle s : List Char} (hlower : needle.map Char.toLower = needle) :
    PatchCommands.startsWith needle s = true ↔
      ∃ front back, s = front ++ back ∧ front.map Char.toLower = needle := by
  rw [PatchCommands.startsWith, decide_eq_true_eq, hlower, map_take_eq_iff]

/-- Bytes that begin no placeholder are kept. -/
theorem keep_high {old new diff : Option CString} {front s out : List Byte}
    (hfront : ∀ b ∈ front, 128 ≤ b.toNat) (h : ToolArguments.Expansion old new diff s out) :
    ToolArguments.Expansion old new diff (front ++ s) (front ++ out) := by
  induction front with
  | nil => exact h
  | cons b front ih =>
      have hb := hfront b List.mem_cons_self
      refine .keep (fun rp ex hrp found rest hsplit hfound => ?_)
        (ih fun b hb => hfront b (List.mem_cons_of_mem _ hb))
      have hbraced := ToolArguments.replaces_braced hrp
      have hopen : ToolArguments.tolower b ≠ 123 := by
        rw [tolower_high hb]
        intro hbrace
        rw [hbrace] at hb
        exact absurd hb (by decide)
      have hstart := hbraced.startsWith_iff.mpr ⟨found, rest, hsplit, hfound⟩
      exact absurd ((hbraced.startsWith_head hopen).symm.trans hstart) (by decide)

/-- The text of a command is the text that the template stands for. -/
theorem expansion_utf8 (hnul : ∀ rp ex, Stands old new diff rp ex → NulFree rp) (skip : Nat)
    (s : List Char) :
    ToolArguments.Expansion (bytes old) (bytes new) (bytes diff) (utf8 (s.drop skip))
      (utf8 (PatchCommands.expandFrom old new diff skip s)) := by
  induction s generalizing skip with
  | nil =>
      rw [List.drop_nil]
      cases skip <;> exact .nil
  | cons c s ih =>
      cases skip with
      | succ skip => exact ih skip
      | zero =>
          rw [List.drop_zero]
          cases hplace : PatchCommands.placeholderAt old new diff (c :: s) with
          | some found =>
              obtain ⟨rp, ex⟩ := found
              obtain ⟨hstands, hstart⟩ := placeholderAt_some hplace
              obtain ⟨front, back, hsplit, hfront⟩ := (startsWith_iff hstands.lower).mp hstart
              have hlen : front.length = 3 := by
                rw [← hstands.length, ← hfront, List.length_map]
              have hback : s.drop 2 = back := by
                have hdrop : (c :: s).drop 3 = back := by rw [hsplit, ← hlen, List.drop_left]
                exact hdrop
              have hout := ih 2
              rw [hback] at hout
              simp only [PatchCommands.expandFrom, hplace, hstands.length]
              rw [utf8_append, hsplit, utf8_append, ← ofString_bytes (hnul rp ex hstands)]
              refine .replace (replaces_iff.mpr ⟨rp, ex, hstands, rfl, rfl⟩) ?_ hout
              rw [map_tolower_utf8, hfront]
          | none =>
              have hout := ih 0
              rw [List.drop_zero] at hout
              simp only [PatchCommands.expandFrom, hplace]
              rw [utf8_cons, utf8_cons]
              by_cases hc : c.toNat < 128
              · rw [utf8EncodeChar_ascii hc]
                refine .keep (fun rp' ex' hrp found rest hbytes hfound => ?_) hout
                obtain ⟨rp, ex, hstands, -, rfl⟩ := replaces_iff.mp hrp
                have htext : utf8 (c :: s) = found ++ rest := by
                  rw [utf8_cons, utf8EncodeChar_ascii hc]
                  exact hbytes
                obtain ⟨front, back, hsplit, rfl, -⟩ := utf8_front htext (hstands.ascii hfound)
                rw [map_tolower_utf8] at hfound
                have hstart := (startsWith_iff hstands.lower).mpr
                  ⟨front, back, hsplit, utf8_injective hfound⟩
                rw [placeholderAt_none hplace hstands] at hstart
                cases hstart
              · exact keep_high (fun b hb => utf8EncodeChar_other (by omega) hb) hout

/-- expand_tool_args writes the bytes of the text that the shell gets. -/
theorem expandToolArgs_utf8 {args : String} (hargs : NulFree args)
    (hnul : ∀ rp ex, Stands old new diff rp ex → NulFree rp)
    (hfits : ToolArguments.Fits (bytes old) (bytes new) (bytes diff) (.ofString args)) :
    ToolArguments.expandToolArgs (bytes old) (bytes new) (bytes diff) (.ofString args) =
      some (utf8 (PatchCommands.expandToolArgs args old new diff).toList ++ [0],
        (utf8 (PatchCommands.expandToolArgs args old new diff).toList).length + 1) := by
  obtain ⟨text, htext, hresult⟩ := ToolArguments.expands_of_fits hfits
  have hexpansion := expansion_utf8 hnul 0 args.toList
  rw [List.drop_zero, ← ofString_bytes hargs] at hexpansion
  rw [hresult, htext.unique hexpansion, PatchCommands.expandToolArgs, String.toList_ofList]

end Expansion

section Options

open EsyncUa.Components EsyncUa.DiffManifests EsyncUa.SquashOptions

theorem utf8ByteSize_eq (s : String) : s.utf8ByteSize = (utf8 s.toList).length := by
  rw [← String.size_toByteArray, ← String.utf8Encode_toList]
  exact List.size_toByteArray

/-- An option is cut at the end of a character: it is short, long, or in ASCII. -/
def CutWhole (s : String) : Prop :=
  s.utf8ByteSize ≤ 3 ∨ 8 ≤ s.utf8ByteSize ∨ ∀ c ∈ s.toList, c.toNat < 128

theorem prefixWithin_utf8 {text : List Char} {room : Nat}
    (h : (utf8 text).length ≤ room ∨ ∀ c ∈ text, c.toNat < 128) :
    utf8 (prefixWithin text room).toList = (utf8 text).take room := by
  induction text generalizing room with
  | nil => simp [prefixWithin, utf8]
  | cons c text ih =>
      have hsize : (String.utf8EncodeChar c).length = c.utf8Size := String.length_utf8EncodeChar c
      rw [prefixWithin, utf8_cons]
      split
      · rename_i hroom
        have hrest : (utf8 text).length ≤ room - c.utf8Size ∨ ∀ c ∈ text, c.toNat < 128 := by
          refine h.imp (fun hlen => ?_) fun hascii c hc => hascii c (List.mem_cons_of_mem _ hc)
          rw [utf8_cons, List.length_append] at hlen
          omega
        have hfull : (String.utf8EncodeChar c).length ≤ room := by omega
        have hchar : utf8 c.toString.toList = String.utf8EncodeChar c := by simp [utf8]
        rw [String.toList_append, utf8_append, hchar, ih hrest, List.take_append,
          List.take_of_length_le hfull, hsize]
      · rename_i hroom
        have hascii : c.toNat < 128 := by
          refine h.elim (fun hlen => ?_) fun hascii => hascii c List.mem_cons_self
          rw [utf8_cons, List.length_append] at hlen
          omega
        have hone : c.utf8Size = 1 := by rw [← hsize, utf8EncodeChar_ascii hascii]; rfl
        have hzero : room = 0 := by omega
        simp [hzero, utf8]

theorem appendOption_utf8 (acc : String) {s : String} (hnul : NulFree s) (hwhole : CutWhole s)
    (hroom : (CString.ofString s).strlen < sizeofUnSquashFs) :
    utf8 (DiffManifests.appendOption acc s).toList =
      utf8 acc.toList ++ ((CString.ofString s).bytes.take (bound (.ofString s)) ++ [32]) := by
  have hbytes := ofString_bytes hnul
  have hlen : (CString.ofString s).strlen = s.utf8ByteSize := by
    rw [utf8ByteSize_eq, ← hbytes]
    rfl
  have hlt : (CString.ofString s).strlen < 104 := hroom
  have hbound : bound (.ofString s) = sizeT (8 - (CString.ofString s).strlen - 1) := rfl
  have hspace : utf8 " ".toList = [32] := by decide
  rw [DiffManifests.appendOption, String.toList_append, utf8_append, hspace, ← List.append_assoc]
  congr 1
  split
  · rename_i hshort
    have hroom : bound (.ofString s) = 7 - s.utf8ByteSize := by
      rw [hbound, hlen, sizeT]
      omega
    rw [String.toList_append, utf8_append, prefixWithin_utf8, hbytes, hroom]
    rcases hwhole with hwhole | hwhole | hwhole
    · left
      rw [← utf8ByteSize_eq]
      omega
    · omega
    · exact .inr hwhole
  · rename_i hlong
    have hfull : (utf8 s.toList).length ≤ bound (.ofString s) := by
      rw [← utf8ByteSize_eq, hbound, hlen, sizeT]
      omega
    rw [String.toList_append, utf8_append, hbytes, List.take_of_length_le hfull]

theorem foldl_appendOption_utf8 (nodes : List XmlNode) (acc : String)
    (h : ∀ b ∈ nodes, NulFree b.content ∧ CutWhole b.content ∧
      (CString.ofString b.content).strlen < sizeofUnSquashFs) :
    utf8 (nodes.foldl (fun acc b => DiffManifests.appendOption acc b.content) acc).toList =
      utf8 acc.toList ++ written (nodes.map fun b => .ofString b.content) := by
  induction nodes generalizing acc with
  | nil => simp [written]
  | cons b nodes ih =>
      obtain ⟨hnul, hwhole, hroom⟩ := h b List.mem_cons_self
      have hcons : ∀ (o : CString) (os : List CString),
          written (o :: os) = o.bytes.take (bound o) ++ [32] ++ written os :=
        fun _ _ => List.flatMap_cons
      rw [List.foldl_cons, ih _ fun b hb => h b (List.mem_cons_of_mem _ hb),
        appendOption_utf8 acc hnul hwhole hroom, List.map_cons, hcons, List.append_assoc]

/-- The options in the buffer are the bytes of the text that the diff information keeps. -/
theorem mkSquashFsOptions_utf8 {p : XmlNode}
    (htexts : ∀ b ∈ p.children, isOption b = true → NulFree b.content ∧ CutWhole b.content)
    (hroom : (concatenated (options p)).length < sizeofUnSquashFs) :
    mkSquashFsOptions p = some ((readOptions p).map fun s => utf8 s.toList) := by
  have hoptions : options p = (p.children.filter isOption).map fun b => .ofString b.content := rfl
  have hread : (p.children.filter fun b => b.name = "mk-squash-fs-options") =
      p.children.filter isOption := rfl
  rw [mkSquashFsOptions_eq]
  unfold readOptions
  rw [hread]
  cases hnodes : p.children.filter isOption with
  | nil => rw [if_pos (by rw [hoptions, hnodes]; rfl)]; rfl
  | cons b nodes =>
      have hne : options p ≠ [] := by
        rw [hoptions, hnodes]
        exact List.cons_ne_nil _ _
      have hwritten : (written (options p)).length < sizeofUnSquashFs :=
        Nat.lt_of_le_of_lt (length_written_le _) hroom
      rw [if_neg hne, cat, List.nil_append, if_pos hwritten, hoptions, hnodes, Option.map_some,
        Option.map_some, foldl_appendOption_utf8]
      · rfl
      · intro b' hb
        rw [← hnodes] at hb
        obtain ⟨hmem, hoption⟩ := List.mem_filter.mp hb
        obtain ⟨hnul, hwhole⟩ := htexts b' hmem hoption
        refine ⟨hnul, hwhole, Nat.lt_of_le_of_lt (strlen_le_concatenated ?_) hroom⟩
        rw [hoptions]
        exact List.mem_map_of_mem hb

end Options

end EsyncUa.TextBytes
