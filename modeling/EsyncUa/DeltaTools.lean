import EsyncUa.Downloads
import EsyncUa.PatchCommands
import Mathlib.Data.List.Nodup

/-!
The tools that `delta_init` sets up from its defaults and the configuration, and what they are
used for: the capability that the agent announces, and the commands of `delta_patch`. A tool is
taken only with each placeholder once in its arguments, so every command has each path once.
-/
namespace EsyncUa.DeltaTools

open EsyncUa.JsonProperties EsyncUa.Deltas EsyncUa.DiffManifests EsyncUa.PatchCommands
open EsyncUa.Downloads (eUaArg)

/-- A delta_tool_t of a configuration. -/
structure ToolCfg where
  algo : Option String
  path : Option String
  args : Option String
  intl : Bool

/-- delta_cfg_t. -/
structure DeltaCfg where
  deltaCap : Option String
  patchTools : Option (List ToolCfg)
  decompTools : Option (List ToolCfg)

/-- What delta_init finds on the system; `espatchOutput` is the line that "espatch -v" prints. -/
structure Platform where
  chkdirp : String → Bool
  isCmdRunnable : String → Bool
  espatchOutput : Option String

/-- The fields of delta_stg. -/
structure DeltaSettings extends DeltaStg where
  deltaCap : Option String
  useExternalAlgo : Bool

/-- `S(s)`: the text is there and not empty. -/
def s? (s : Option String) : Option String := s.filter (· ≠ "")

/-- `STRLWR`. -/
def strlwr (s : String) : String := String.ofList (s.toList.map Char.toLower)

/-- The loop of `SUBSTRCNT` over the rest of a text; the number is that of the characters to skip
first. -/
def countFrom (c : List Char) : Nat → List Char → Nat
  | _, [] => 0
  | skip + 1, _ :: s => countFrom c skip s
  | 0, x :: s =>
      if startsWith c (x :: s) then countFrom c (c.length - 1) s + 1 else countFrom c 0 s

/-- `SUBSTRCNT`. -/
def substrcnt (s c : String) : Nat := countFrom c.toList 0 s.toList

/-- strstr. -/
def strstr (needle : List Char) : List Char → Option (List Char)
  | [] => if needle = [] then some [] else none
  | c :: s => if needle <+: c :: s then some (c :: s) else strstr needle s

def defltPatchTools : List ToolCfg :=
  [⟨some "bsdiff", some "bspatch", some "{o} {n} {p}", true⟩,
    ⟨some "rfc3284", some "xdelta3", some "-D -d -s {o} {p} {n}", false⟩,
    ⟨some "esdiff", some "espatch", some "{o} {n} {p}", true⟩]

def defltDecompTools : List ToolCfg :=
  [⟨some "gzip", some "gzip", some "-cd {o} > {n}", false⟩,
    ⟨some "bzip2", some "bzip2", some "-cd {o} > {n}", false⟩,
    ⟨some "xz", some "xz", some "-cd {o} > {n}", false⟩]

/-- HASH_ADD_STR of a tool with a new algorithm, HASH_REPLACE_STR of one that is there. -/
def put (hash : List DeltaTool) (dth : DeltaTool) : List DeltaTool :=
  match findTool hash dth.algo with
  | none => hash ++ [dth]
  | some _ => hash.eraseP (·.algo = dth.algo) ++ [dth]

section Init

variable (p : Platform)

/-- The condition of add_delta_tool, and the tool that it adds. -/
def toolOf (isPatchTool : Bool) (tool : ToolCfg) : Option DeltaTool :=
  match s? tool.algo, s? tool.path, s? tool.args with
  | some algo, some path, some args =>
      if p.isCmdRunnable path ∧ substrcnt args ofa = 1 ∧ substrcnt args nfa = 1 ∧
          substrcnt args pfa = (if isPatchTool then 1 else 0) then
        some ⟨strlwr algo, path, args, tool.intl⟩
      else none
  | _, _, _ => none

/-- add_delta_tool; only a tool of the configuration that cannot be used is an error. -/
def addDeltaTool (deflt isPatchTool : Bool) :
    List DeltaTool → List ToolCfg → Except Rc (List DeltaTool)
  | hash, [] => .ok hash
  | hash, tool :: tools =>
      match toolOf p isPatchTool tool with
      | some dth => addDeltaTool deflt isPatchTool (put hash dth) tools
      | none =>
          if deflt then addDeltaTool deflt isPatchTool hash tools else .error eUaErr

/-- get_espatch_version, for a buffer of seven bytes. -/
def getEspatchVersion : Option String :=
  p.espatchOutput.bind fun output =>
    let line := output.toList
    let line := if line.getLast? = some '\n' then line.dropLast else line
    (strstr "version: ".toList line).bind fun tmp =>
      let ver := String.ofList (tmp.drop "version: ".toList.length)
      if ver.utf8ByteSize < 6 then some ver else none

/-- get_config_delta_cap: the text, and whether a format of it asks for an external algorithm. -/
def getConfigDeltaCap (deltaCap : String) : String × Bool :=
  let tok := (deltaCap.toList.dropWhile (· = ';')).takeWhile (· ≠ ';')
  let formats :=
    if tok.head? = some 'A' then
      (((strstr [':'] tok).getD []).drop 1 |>.splitOn ',').filterMap List.head?
    else []
  let version :=
    if '3' ∈ formats ∧ strstr "E:".toList deltaCap.toList = none then getEspatchVersion p else none
  (((version.map fun ver => deltaCap ++ ";E:" ++ ver).getD deltaCap), '4' ∈ formats)

/-- The part of a list that stands for an algorithm. -/
def numberOf (tools : List DeltaTool) (algo number : String) : String :=
  if (findTool tools algo).isSome then number ++ "," else ""

/-- The comma at the end of a list becomes a semicolon. -/
def terminated (list empty : String) : String :=
  if list.length > 2 then String.ofList (list.toList.dropLast ++ [';']) else empty

/-- get_deflt_delta_cap. -/
def getDefltDeltaCap (patchTool decompTool : List DeltaTool) : String :=
  let format := "A:" ++ numberOf patchTool "bsdiff" "1" ++ numberOf patchTool "rfc3284" "2" ++
    numberOf patchTool "esdiff" "3"
  let compression := "B:" ++ numberOf decompTool "gzip" "1" ++ numberOf decompTool "bzip2" "2" ++
    numberOf decompTool "xz" "3"
  let espatchVer := if (findTool patchTool "esdiff").isSome then getEspatchVersion p else none
  terminated format "A:0;" ++ terminated compression "B:0;" ++ "C:100" ++
    (espatchVer.map (";E:" ++ ·)).getD ""

/-- The tools of one kind, with the defaults first. -/
def tools (isPatchTool : Bool) (deflt : List ToolCfg) (given : Option (List ToolCfg)) (err : Rc) :
    Except Rc (List DeltaTool) := do
  let hash ← addDeltaTool p true isPatchTool [] deflt
  match addDeltaTool p false isPatchTool hash (given.getD []) with
  | .ok hash => .ok hash
  | .error _ => .error err

/-- delta_stop. -/
def deltaStop (stg : DeltaSettings) : DeltaSettings :=
  { stg with patchTool := [], decompTool := [], deltaCap := none }

/-- delta_init. -/
def deltaInit (cacheDir : Option String) (cfg : Option DeltaCfg) : Rc × DeltaSettings :=
  let fresh : DeltaSettings := ⟨⟨"", [], []⟩, none, false⟩
  match s? cacheDir with
  | none => (eUaArg, deltaStop fresh)
  | some dir =>
      let stg : DeltaSettings := { fresh with cacheDir := dir }
      if ¬ p.chkdirp dir then (eUaArg, deltaStop stg)
      else
        match tools p true defltPatchTools (cfg.bind DeltaCfg.patchTools) eUaArg,
            tools p false defltDecompTools (cfg.bind DeltaCfg.decompTools) eUaArg with
        | .ok patchTool, .ok decompTool =>
            let stg : DeltaSettings := { stg with patchTool := patchTool, decompTool := decompTool }
            match s? (cfg.bind DeltaCfg.deltaCap) with
            | some deltaCap =>
                let cap := getConfigDeltaCap p deltaCap
                (eUaOk, { stg with deltaCap := some cap.1, useExternalAlgo := cap.2 })
            | none =>
                let cap := getDefltDeltaCap p patchTool decompTool
                (eUaOk, { stg with deltaCap := some cap })
        | .error err, _ => (err, deltaStop stg)
        | _, .error err => (err, deltaStop stg)

end Init

section Purpose

/-- The tools of a configuration that can be used, in their order. -/
def usable (p : Platform) (isPatchTool : Bool) (tools : List ToolCfg) : List DeltaTool :=
  tools.filterMap (toolOf p isPatchTool)

/-- The last tool of an algorithm. -/
def lastTool (tools : List DeltaTool) (algo : String) : Option DeltaTool :=
  tools.reverse.find? fun tool => tool.algo = algo

/-- The paths of a command, in their order. -/
def paths (parts : List Part) : List (List Char) :=
  parts.filterMap fun part => match part with
    | .char _ => none
    | .path text => some text

end Purpose

section Tables

/-- There is one tool for each algorithm. -/
def Distinct (hash : List DeltaTool) : Prop := (hash.map DeltaTool.algo).Nodup

theorem distinct_nil : Distinct [] := List.nodup_nil

theorem findTool_eq_none_iff {hash : List DeltaTool} {algo : String} :
    findTool hash algo = none ↔ algo ∉ hash.map DeltaTool.algo := by
  simp [findTool]

theorem findTool_append (hash : List DeltaTool) (dth : DeltaTool) (algo : String) :
    findTool (hash ++ [dth]) algo =
      (findTool hash algo).or (if dth.algo = algo then some dth else none) := by
  unfold findTool
  rw [List.find?_append, List.find?_singleton]
  simp

theorem algos_eraseP (hash : List DeltaTool) (algo : String) :
    (hash.eraseP (·.algo = algo)).map DeltaTool.algo = (hash.map DeltaTool.algo).erase algo := by
  induction hash with
  | nil => rfl
  | cons tool hash ih =>
      by_cases h : tool.algo = algo
      · simp [h]
      · simp [h, ih]

theorem findTool_eraseP_self {hash : List DeltaTool} (h : Distinct hash) (algo : String) :
    findTool (hash.eraseP (·.algo = algo)) algo = none := by
  rw [findTool_eq_none_iff, algos_eraseP]
  exact h.not_mem_erase

theorem findTool_eraseP_other (hash : List DeltaTool) {algo other : String} (h : algo ≠ other) :
    findTool (hash.eraseP (·.algo = algo)) other = findTool hash other := by
  unfold findTool
  induction hash with
  | nil => rfl
  | cons tool hash ih =>
      by_cases htool : tool.algo = algo
      · simp [htool, h]
      · simp [htool, List.find?_cons, ih]

theorem findTool_put {hash : List DeltaTool} (h : Distinct hash) (dth : DeltaTool)
    (algo : String) :
    findTool (put hash dth) algo = if dth.algo = algo then some dth else findTool hash algo := by
  unfold put
  by_cases halgo : dth.algo = algo
  · subst halgo
    rw [if_pos rfl]
    cases hfind : findTool hash dth.algo with
    | none => simp [findTool_append, hfind]
    | some tool => simp [findTool_append, findTool_eraseP_self h]
  · rw [if_neg halgo]
    cases hfind : findTool hash dth.algo with
    | none => simp [findTool_append, halgo]
    | some tool => simp [findTool_append, findTool_eraseP_other hash halgo, halgo]

theorem Distinct.put {hash : List DeltaTool} (h : Distinct hash) (dth : DeltaTool) :
    Distinct (put hash dth) := by
  unfold Distinct DeltaTools.put
  cases hfind : findTool hash dth.algo with
  | none =>
      rw [List.map_append, List.map_singleton, ← List.concat_eq_append]
      exact List.Nodup.concat (findTool_eq_none_iff.mp hfind) h
  | some tool =>
      rw [List.map_append, List.map_singleton, algos_eraseP, ← List.concat_eq_append]
      exact List.Nodup.concat h.not_mem_erase (h.erase _)

theorem mem_put {hash : List DeltaTool} {dth tool : DeltaTool} (h : tool ∈ put hash dth) :
    tool ∈ hash ∨ tool = dth := by
  unfold put at h
  split at h
  · simpa using h
  · rcases List.mem_append.mp h with hold | hnew
    · exact .inl (List.mem_of_mem_eraseP hold)
    · exact .inr (List.mem_singleton.mp hnew)

variable {p : Platform} {isPatchTool : Bool}

/-- Adding tools puts those that can be used, one after the other. -/
theorem addDeltaTool_eq (deflt : Bool) (hash : List DeltaTool) (tools : List ToolCfg) :
    addDeltaTool p deflt isPatchTool hash tools =
      if deflt ∨ ∀ tool ∈ tools, (toolOf p isPatchTool tool).isSome then
        .ok ((usable p isPatchTool tools).foldl put hash)
      else .error eUaErr := by
  induction tools generalizing hash with
  | nil => simp [addDeltaTool, usable]
  | cons tool tools ih =>
      unfold addDeltaTool
      cases htool : toolOf p isPatchTool tool with
      | some dth =>
          simp only [ih]
          simp [usable, htool]
      | none =>
          cases deflt with
          | true => simp [ih, usable, htool]
          | false => simp [htool]

theorem distinct_foldl {hash : List DeltaTool} (h : Distinct hash) (tools : List DeltaTool) :
    Distinct (tools.foldl put hash) := by
  induction tools generalizing hash with
  | nil => exact h
  | cons tool tools ih => exact ih (h.put tool)

theorem lastTool_cons (tool : DeltaTool) (tools : List DeltaTool) (algo : String) :
    lastTool (tool :: tools) algo =
      (lastTool tools algo).or (if tool.algo = algo then some tool else none) := by
  unfold lastTool
  rw [List.reverse_cons, List.find?_append, List.find?_singleton]
  simp

/-- The last tool of an algorithm is the one that is found. -/
theorem findTool_foldl {hash : List DeltaTool} (h : Distinct hash) (tools : List DeltaTool)
    (algo : String) :
    findTool (tools.foldl put hash) algo = (lastTool tools algo).or (findTool hash algo) := by
  induction tools generalizing hash with
  | nil => rfl
  | cons tool tools ih =>
      rw [List.foldl_cons, ih (h.put tool), findTool_put h, lastTool_cons]
      cases lastTool tools algo with
      | some last => rfl
      | none =>
          by_cases halgo : tool.algo = algo
          · simp [halgo]
          · simp [halgo]

theorem mem_foldl {hash tools : List DeltaTool} {tool : DeltaTool}
    (h : tool ∈ tools.foldl put hash) : tool ∈ hash ∨ tool ∈ tools := by
  induction tools generalizing hash with
  | nil => exact .inl h
  | cons first tools ih =>
      rcases ih h with hput | hlater
      · rcases mem_put hput with hold | rfl
        · exact .inl hold
        · exact .inr List.mem_cons_self
      · exact .inr (List.mem_cons_of_mem _ hlater)

end Tables

section Placeholders

/-- The template of a tool has each placeholder as often as its kind needs it. -/
structure Template (isPatchTool : Bool) (tool : DeltaTool) : Prop where
  old : substrcnt tool.args ofa = 1
  new : substrcnt tool.args nfa = 1
  diff : substrcnt tool.args pfa = if isPatchTool then 1 else 0

theorem template_of_toolOf {p : Platform} {isPatchTool : Bool} {tool : ToolCfg} {dth : DeltaTool}
    (h : toolOf p isPatchTool tool = some dth) : Template isPatchTool dth := by
  unfold toolOf at h
  split at h
  · obtain ⟨⟨-, hold, hnew, hdiff⟩, htool⟩ := Option.ite_none_right_eq_some.mp h
    cases htool
    exact ⟨hold, hnew, hdiff⟩
  · cases h

/-- The text at the front is the placeholder of a letter, in whatever case. -/
def FrontOf (x : Char) (s rest : List Char) : Prop :=
  ∃ a b c, s = a :: b :: c :: rest ∧ a.toLower = '{' ∧ b.toLower = x ∧ c.toLower = '}'

theorem startsWith_iff {x : Char} (hx : x.toLower = x) {s : List Char} :
    startsWith ['{', x, '}'] s = true ↔ ∃ rest, FrontOf x s rest := by
  unfold startsWith FrontOf
  have hopen : Char.toLower '{' = '{' := by decide
  have hclose : Char.toLower '}' = '}' := by decide
  constructor
  · intro h
    rw [decide_eq_true_eq] at h
    match s, h with
    | a :: b :: c :: rest, h =>
        simp only [List.length_cons, List.length_nil, Nat.zero_add, Nat.reduceAdd,
          List.take_succ_cons, List.take_zero, List.map_cons, List.map_nil, hopen, hx, hclose,
          List.cons.injEq] at h
        exact ⟨rest, a, b, c, rfl, h.1, h.2.1, h.2.2.1⟩
    | [_, _], h => simp at h
    | [_], h => simp at h
    | [], h => simp at h
  · rintro ⟨rest, a, b, c, rfl, ha, hb, hc⟩
    simp [ha, hb, hc, hx, hopen, hclose]

theorem countFrom_drop (c : List Char) (skip : Nat) (s : List Char) :
    countFrom c skip s = countFrom c 0 (s.drop skip) := by
  induction s generalizing skip with
  | nil => cases skip <;> rfl
  | cons x s ih =>
      cases skip with
      | zero => rfl
      | succ skip => exact ih skip

theorem countFrom_none {c : List Char} {x : Char} {s : List Char}
    (h : startsWith c (x :: s) = false) : countFrom c 0 (x :: s) = countFrom c 0 s := by
  simp [countFrom, h]

/-- A placeholder counts for itself and for no other. -/
theorem countFrom_front {x y : Char} (hx : x.toLower = x) (hy : y.toLower = y) (hopen : x ≠ '{')
    {s rest : List Char} (h : FrontOf x s rest) :
    countFrom ['{', y, '}'] 0 s =
      (if x = y then 1 else 0) + countFrom ['{', y, '}'] 0 rest := by
  obtain ⟨a, b, c, rfl, ha, hb, hc⟩ := h
  have hnone : ∀ {d : Char} {t : List Char}, d.toLower ≠ '{' →
      startsWith ['{', y, '}'] (d :: t) = false := by
    intro d t hd
    rw [← Bool.not_eq_true, startsWith_iff hy]
    rintro ⟨_, a', b', c', heq, ha', -, -⟩
    rw [(List.cons.inj heq).1] at hd
    exact hd ha'
  by_cases hxy : x = y
  · subst hxy
    have hstart : startsWith ['{', x, '}'] (a :: b :: c :: rest) = true :=
      (startsWith_iff hx).mpr ⟨rest, a, b, c, rfl, ha, hb, hc⟩
    rw [if_pos rfl, countFrom, if_pos hstart, countFrom_drop, Nat.add_comm]
    rfl
  · have hother : startsWith ['{', y, '}'] (a :: b :: c :: rest) = false := by
      rw [← Bool.not_eq_true, startsWith_iff hy]
      rintro ⟨_, a', b', c', heq, -, hb', -⟩
      simp only [List.cons.injEq] at heq
      exact hxy (by rw [← hb, heq.2.1, hb'])
    rw [if_neg hxy, Nat.zero_add, countFrom_none hother,
      countFrom_none (hnone (by rw [hb]; exact hopen)),
      countFrom_none (hnone (by rw [hc]; decide))]

/-- Each path as often as its placeholder is in a template. -/
def named (old new : String) (diff : Option String) (s : List Char) : List (List Char) :=
  List.replicate (countFrom ofa.toList 0 s) old.toList ++
    (List.replicate (countFrom nfa.toList 0 s) new.toList ++
      (diff.map fun text => List.replicate (countFrom pfa.toList 0 s) text.toList).getD [])

theorem ofa_toList : ofa.toList = ['{', 'o', '}'] := by decide

theorem nfa_toList : nfa.toList = ['{', 'n', '}'] := by decide

theorem pfa_toList : pfa.toList = ['{', 'p', '}'] := by decide

section Named

variable {old new : String} {diff : Option String} {s rest : List Char}

theorem named_old (h : FrontOf 'o' s rest) :
    named old new diff s = old.toList :: named old new diff rest := by
  have hcount := fun y hy => countFrom_front (x := 'o') (y := y) (by decide) hy (by decide) h
  simp [named, ofa_toList, nfa_toList, pfa_toList, hcount, Nat.add_comm 1, List.replicate_succ]

theorem named_new (h : FrontOf 'n' s rest) :
    (new.toList :: named old new diff rest).Perm (named old new diff s) := by
  have hcount := fun y hy => countFrom_front (x := 'n') (y := y) (by decide) hy (by decide) h
  simp only [named, ofa_toList, nfa_toList, pfa_toList, hcount 'o' (by decide),
    hcount 'n' (by decide), hcount 'p' (by decide), Char.reduceEq, if_true, if_false, Nat.zero_add,
    Nat.add_comm 1, List.replicate_succ, List.cons_append]
  exact List.perm_middle.symm

theorem named_diff {text : String} (h : FrontOf 'p' s rest) :
    (text.toList :: named old new (some text) rest).Perm (named old new (some text) s) := by
  have hcount := fun y hy => countFrom_front (x := 'p') (y := y) (by decide) hy (by decide) h
  simp only [named, ofa_toList, nfa_toList, pfa_toList, hcount 'o' (by decide),
    hcount 'n' (by decide), hcount 'p' (by decide), Char.reduceEq, if_true, if_false, Nat.zero_add,
    Nat.add_comm 1, List.replicate_succ, Option.map_some, Option.getD_some]
  rw [← List.append_assoc, ← List.append_assoc]
  exact List.perm_middle.symm

theorem named_kept {c : Char} (ho : startsWith ofa.toList (c :: s) = false)
    (hn : startsWith nfa.toList (c :: s) = false)
    (hp : diff.isSome = true → startsWith pfa.toList (c :: s) = false) :
    named old new diff (c :: s) = named old new diff s := by
  unfold named
  rw [countFrom_none ho, countFrom_none hn]
  cases diff with
  | none => rfl
  | some text => rw [countFrom_none (hp rfl)]

/-- The paths of an expanded template are those of its placeholders. -/
theorem paths_partsFrom (skip : Nat) (s : List Char) :
    (paths (partsFrom (some old) (some new) diff skip s)).Perm
      (named old new diff (s.drop skip)) := by
  induction s generalizing skip with
  | nil => cases skip <;> cases diff <;> exact .refl _
  | cons c s ih =>
      cases skip with
      | succ skip => exact ih skip
      | zero =>
          have hnext : ∀ {x : Char} {rest : List Char}, FrontOf x (c :: s) rest →
              s.drop 2 = rest := by
            rintro x rest ⟨a, b, d, heq, -⟩
            rw [(List.cons.inj heq).2]
            rfl
          rw [partsFrom, List.drop_zero]
          by_cases ho : startsWith ofa.toList (c :: s) = true
          · obtain ⟨rest, hfront⟩ := (startsWith_iff (by decide)).mp (ofa_toList ▸ ho)
            have hplace : placeholderAt (some old) (some new) diff (c :: s) = some (old, ofa) := by
              simp [placeholderAt, ho]
            have hrest := ih 2
            rw [hnext hfront] at hrest
            rw [hplace, named_old hfront]
            exact hrest.cons _
          by_cases hn : startsWith nfa.toList (c :: s) = true
          · obtain ⟨rest, hfront⟩ := (startsWith_iff (by decide)).mp (nfa_toList ▸ hn)
            have hplace : placeholderAt (some old) (some new) diff (c :: s) = some (new, nfa) := by
              simp [placeholderAt, ho, hn]
            have hrest := ih 2
            rw [hnext hfront] at hrest
            rw [hplace]
            exact (hrest.cons _).trans (named_new hfront)
          rw [Bool.not_eq_true] at ho hn
          by_cases hp : diff.isSome = true ∧ startsWith pfa.toList (c :: s) = true
          · obtain ⟨text, rfl⟩ := Option.isSome_iff_exists.mp hp.1
            obtain ⟨rest, hfront⟩ := (startsWith_iff (by decide)).mp (pfa_toList ▸ hp.2)
            have hplace : placeholderAt (some old) (some new) (some text) (c :: s) =
                some (text, pfa) := by
              simp [placeholderAt, ho, hn, hp.2]
            have hrest := ih 2
            rw [hnext hfront] at hrest
            rw [hplace]
            exact (hrest.cons _).trans (named_diff hfront)
          · have hplace : placeholderAt (some old) (some new) diff (c :: s) = none := by
              simp only [placeholderAt, ho, hn, Option.isSome_some, Bool.and_false,
                Bool.false_eq_true, if_false]
              exact if_neg (by simpa using hp)
            rw [hplace, named_kept ho hn fun hdiff => by simpa [hdiff] using hp]
            exact ih 0

end Named

/-- The paths of a command of a tool that was added. -/
theorem paths_of_template {isPatchTool : Bool} {e : ToolExec} (h : Template isPatchTool e.tool)
    (hdiff : e.diff.isSome = isPatchTool) :
    (paths e.parts).Perm (e.old.toList :: e.new.toList :: (e.diff.map String.toList).toList) := by
  have hchars : ∀ text : List Char, paths (text.map .char) = [] := by
    intro text
    simp [paths]
  have hparts : paths e.parts =
      paths (partsFrom (some e.old) (some e.new) e.diff 0 e.tool.args.toList) := by
    rw [ToolExec.parts]
    unfold paths at hchars ⊢
    rw [List.filterMap_append, hchars, List.nil_append]
  have hold : countFrom ofa.toList 0 e.tool.args.toList = 1 := h.old
  have hnew : countFrom nfa.toList 0 e.tool.args.toList = 1 := h.new
  have hpatch : countFrom pfa.toList 0 e.tool.args.toList = if isPatchTool then 1 else 0 := h.diff
  rw [hparts]
  refine (paths_partsFrom 0 _).trans ?_
  rw [List.drop_zero, named, hold, hnew, hpatch, ← hdiff]
  cases e.diff with
  | none => exact .refl _
  | some text => exact .refl _

end Placeholders

section Settings

variable {p : Platform} {cacheDir : Option String} {cfg : Option DeltaCfg} {stg : DeltaSettings}

/-- The tools of one kind that a configuration gives. -/
def givenTools (given : Option (List ToolCfg)) : List ToolCfg := given.getD []

/-- A table of delta_stg: one tool for each algorithm, the last one that can be used. -/
structure ToolTable (p : Platform) (isPatchTool : Bool) (configured : List ToolCfg)
    (hash : List DeltaTool) : Prop where
  distinct : Distinct hash
  found : ∀ algo, findTool hash algo = lastTool (usable p isPatchTool configured) algo
  template : ∀ tool ∈ hash, Template isPatchTool tool

theorem toolTable_usable (p : Platform) (isPatchTool : Bool) (configured : List ToolCfg) :
    ToolTable p isPatchTool configured ((usable p isPatchTool configured).foldl put []) where
  distinct := distinct_foldl distinct_nil _
  found := fun algo => by
    rw [findTool_foldl distinct_nil]
    exact Option.or_none
  template := by
    intro tool htool
    rcases mem_foldl htool with hempty | husable
    · cases hempty
    · obtain ⟨given, -, hgiven⟩ := List.mem_filterMap.mp husable
      exact template_of_toolOf hgiven

theorem tools_eq (isPatchTool : Bool) (deflt : List ToolCfg) (given : Option (List ToolCfg))
    (err : Rc) :
    tools p isPatchTool deflt given err =
      if ∀ tool ∈ givenTools given, (toolOf p isPatchTool tool).isSome then
        .ok ((usable p isPatchTool (deflt ++ givenTools given)).foldl put [])
      else .error err := by
  have husable : usable p isPatchTool (deflt ++ givenTools given) =
      usable p isPatchTool deflt ++ usable p isPatchTool (givenTools given) :=
    List.filterMap_append
  rw [husable, List.foldl_append]
  unfold tools
  rw [addDeltaTool_eq, if_pos (.inl rfl)]
  change (match addDeltaTool p false isPatchTool _ (givenTools given) with
    | .ok hash => Except.ok hash
    | .error _ => Except.error err) = _
  rw [addDeltaTool_eq]
  by_cases h : ∀ tool ∈ givenTools given, (toolOf p isPatchTool tool).isSome
  · rw [if_pos (.inr h), if_pos h]
  · rw [if_neg (by simpa using h), if_neg h]

/-- The configuration can be used: there is a cache directory, and each of its tools is added. -/
structure Accepted (p : Platform) (cacheDir : Option String) (cfg : Option DeltaCfg) : Prop where
  dir : ∃ dir, s? cacheDir = some dir ∧ p.chkdirp dir = true
  patch : ∀ tool ∈ givenTools (cfg.bind DeltaCfg.patchTools), (toolOf p true tool).isSome
  decomp : ∀ tool ∈ givenTools (cfg.bind DeltaCfg.decompTools), (toolOf p false tool).isSome

/-- The text that the agent announces, and whether it names an external algorithm. -/
def capability (p : Platform) (cfg : Option DeltaCfg) (patchTool decompTool : List DeltaTool) :
    String × Bool :=
  match s? (cfg.bind DeltaCfg.deltaCap) with
  | some deltaCap => getConfigDeltaCap p deltaCap
  | none => (getDefltDeltaCap p patchTool decompTool, false)

theorem deltaInit_accepted (h : Accepted p cacheDir cfg) :
    ∃ dir patchTool decompTool,
      deltaInit p cacheDir cfg = (eUaOk, ⟨⟨dir, patchTool, decompTool⟩,
        some (capability p cfg patchTool decompTool).1,
        (capability p cfg patchTool decompTool).2⟩) ∧
      ToolTable p true (defltPatchTools ++ givenTools (cfg.bind DeltaCfg.patchTools)) patchTool ∧
      ToolTable p false (defltDecompTools ++ givenTools (cfg.bind DeltaCfg.decompTools))
        decompTool := by
  obtain ⟨⟨dir, hdir, hthere⟩, hpatch, hdecomp⟩ := h
  refine ⟨dir, _, _, ?_, toolTable_usable p true _, toolTable_usable p false _⟩
  unfold deltaInit capability
  rw [hdir, tools_eq, tools_eq, if_pos hpatch, if_pos hdecomp]
  simp only [hthere, not_true_eq_false, if_false]
  cases s? (cfg.bind DeltaCfg.deltaCap) with
  | none => rfl
  | some deltaCap => rfl

theorem deltaInit_not_accepted (h : ¬ Accepted p cacheDir cfg) :
    ∃ dir, deltaInit p cacheDir cfg = (eUaArg, ⟨⟨dir, [], []⟩, none, false⟩) := by
  unfold deltaInit
  cases hdir : s? cacheDir with
  | none => exact ⟨"", rfl⟩
  | some dir =>
      refine ⟨dir, ?_⟩
      by_cases hthere : p.chkdirp dir = true
      · rw [tools_eq, tools_eq]
        simp only [hthere, not_true_eq_false, if_false]
        by_cases hpatch : ∀ tool ∈ givenTools (cfg.bind DeltaCfg.patchTools),
            (toolOf p true tool).isSome
        · have hdecomp : ¬ ∀ tool ∈ givenTools (cfg.bind DeltaCfg.decompTools),
              (toolOf p false tool).isSome :=
            fun hdecomp => h ⟨⟨dir, hdir, hthere⟩, hpatch, hdecomp⟩
          rw [if_pos hpatch, if_neg hdecomp]
          rfl
        · rw [if_neg hpatch]
          rfl
      · simp only [hthere, Bool.false_eq_true, not_false_eq_true, if_true]
        rfl

theorem deltaInit_ok_iff : (deltaInit p cacheDir cfg).1 = eUaOk ↔ Accepted p cacheDir cfg := by
  constructor
  · intro hok
    by_contra h
    obtain ⟨dir, hinit⟩ := deltaInit_not_accepted h
    rw [hinit] at hok
    change eUaArg = eUaOk at hok
    cases hok
  · intro h
    obtain ⟨dir, patchTool, decompTool, hinit, -⟩ := deltaInit_accepted h
    rw [hinit]

/-- The tools of the commands that delta_patch runs are those of the tables. -/
theorem tool_of_toolExecs {stg : DeltaStg} {diffInfo : DiffInfo} {old new diff : String}
    {decompressed : Bool} {e : ToolExec}
    (h : e ∈ toolExecs stg diffInfo old new diff decompressed) :
    e.tool ∈ if e.diff.isSome then stg.patchTool else stg.decompTool := by
  have hpatch : ∀ {tool}, patchdth stg (diffInfo.format.getD "") = .ok (some tool) →
      tool ∈ stg.patchTool := by
    intro tool hfind
    unfold patchdth at hfind
    split at hfind
    · cases hfind
    · split at hfind
      · rename_i found hfound
        cases hfind
        exact List.mem_of_find?_eq_some hfound
      · cases hfind
  unfold toolExecs at h
  split at h
  · cases h
  · rename_i tool htool
    have happlied : ∀ {file : String},
        e ∈ (tool.map fun tool => ToolExec.mk tool old new (some file)).toList →
          e.tool ∈ if e.diff.isSome then stg.patchTool else stg.decompTool := by
      intro file hmem
      obtain ⟨found, rfl, rfl⟩ := Option.map_eq_some_iff.mp (Option.mem_toList.mp hmem)
      exact hpatch htool
    split at h
    · split at h
      · cases h
      · rename_i decompdth hfound
        rcases List.mem_cons.mp h with rfl | h
        · exact List.mem_of_find?_eq_some hfound
        · split at h
          · exact happlied h
          · cases h
    · exact happlied h

/-- delta_init succeeds exactly if the configuration can be used, and leaves no tool otherwise.
After a success the tool found for an algorithm is the last one that can be used, defaults
first; and every command that delta_patch makes for a tool names each of its paths once. -/
theorem commands_of_configuration (p : Platform) (cacheDir : Option String)
    (cfg : Option DeltaCfg) :
    ((deltaInit p cacheDir cfg).1 = eUaOk ↔ Accepted p cacheDir cfg) ∧
      ((deltaInit p cacheDir cfg).1 ≠ eUaOk → ∀ diffInfo old new diff decompressed,
        toolExecs (deltaInit p cacheDir cfg).2.toDeltaStg diffInfo old new diff decompressed =
          []) ∧
      ((deltaInit p cacheDir cfg).1 = eUaOk →
        (∀ algo, findTool (deltaInit p cacheDir cfg).2.patchTool algo =
          lastTool (usable p true
            (defltPatchTools ++ givenTools (cfg.bind DeltaCfg.patchTools))) algo) ∧
        (∀ algo, findTool (deltaInit p cacheDir cfg).2.decompTool algo =
          lastTool (usable p false
            (defltDecompTools ++ givenTools (cfg.bind DeltaCfg.decompTools))) algo) ∧
        ∀ diffInfo old new diff decompressed,
          ∀ e ∈ toolExecs (deltaInit p cacheDir cfg).2.toDeltaStg diffInfo old new diff
              decompressed,
            (paths e.parts).Perm
              (e.old.toList :: e.new.toList :: (e.diff.map String.toList).toList)) := by
  refine ⟨deltaInit_ok_iff, fun herr => ?_, fun hok => ?_⟩
  · obtain ⟨dir, hinit⟩ := deltaInit_not_accepted fun h => herr (deltaInit_ok_iff.mpr h)
    rw [hinit]
    intro diffInfo old new diff decompressed
    refine List.eq_nil_iff_forall_not_mem.mpr fun e he => ?_
    have htool := tool_of_toolExecs he
    split at htool
    · cases htool
    · cases htool
  · obtain ⟨dir, patchTool, decompTool, hinit, hpatch, hdecomp⟩ :=
      deltaInit_accepted (deltaInit_ok_iff.mp hok)
    rw [hinit]
    refine ⟨hpatch.found, hdecomp.found, ?_⟩
    intro diffInfo old new diff decompressed e he
    have htool := tool_of_toolExecs he
    cases hdiff : e.diff with
    | none =>
        rw [hdiff] at htool
        have hperm := paths_of_template (hdecomp.template e.tool htool) (by rw [hdiff]; rfl)
        rwa [hdiff] at hperm
    | some text =>
        rw [hdiff] at htool
        have hperm := paths_of_template (hpatch.template e.tool htool) (by rw [hdiff]; rfl)
        rwa [hdiff] at hperm

/-- A system with every command but bspatch. -/
def withoutBspatch : Platform where
  chkdirp := fun _ => true
  isCmdRunnable := fun path => path ≠ "bspatch"
  espatchOutput := some "espatch version: 2.6\n"

/-- A configuration with a tool of its own. -/
def ownTool : DeltaCfg :=
  ⟨none, some [⟨some "BSDIFF", some "/opt/patch", some "-o {O} {n} {P}", true⟩], none⟩

theorem commands_of_configuration_example :
    findTool (deltaInit withoutBspatch (some "/ca") (some ownTool)).2.patchTool "bsdiff" =
        some ⟨"bsdiff", "/opt/patch", "-o {O} {n} {P}", true⟩ ∧
      (deltaInit withoutBspatch (some "/ca") (some ownTool)).2.decompTool.length = 3 := by
  obtain ⟨-, -, hused⟩ := commands_of_configuration withoutBspatch (some "/ca") (some ownTool)
  refine ⟨((hused (by decide)).1 "bsdiff").trans (by decide), by decide⟩

end Settings

section Capability

/-- The formats of patches, as the capability numbers them. -/
def formats : List (String × String) := [("1", "bsdiff"), ("2", "rfc3284"), ("3", "esdiff")]

def compressions : List (String × String) := [("1", "gzip"), ("2", "bzip2"), ("3", "xz")]

/-- The numbers in a field of a capability: the first field with this letter. -/
def announced (cap : String) (field : Char) : List String :=
  match (cap.toList.splitOn ';').find? fun text => [field, ':'].isPrefixOf text with
  | some text => ((text.drop 2).splitOn ',').map String.ofList
  | none => []

/-- A field with the numbers that are chosen. -/
def fieldText (field : Char) (a b c : Bool) : List Char :=
  let numbers := (if a then [['1']] else []) ++ (if b then [['2']] else []) ++
    (if c then [['3']] else [])
  field :: ':' :: (if numbers = [] then ['0'] else [','].intercalate numbers)

def chosen (a : Bool) (number : String) : String := if a then number ++ "," else ""

theorem terminated_A : ∀ a b c : Bool,
    (terminated ("A:" ++ chosen a "1" ++ chosen b "2" ++ chosen c "3") "A:0;").toList =
      fieldText 'A' a b c ++ [';'] := by decide

theorem terminated_B : ∀ a b c : Bool,
    (terminated ("B:" ++ chosen a "1" ++ chosen b "2" ++ chosen c "3") "B:0;").toList =
      fieldText 'B' a b c ++ [';'] := by decide

theorem fieldText_plain : ∀ a b c : Bool,
    ';' ∉ fieldText 'A' a b c ∧ ';' ∉ fieldText 'B' a b c := by decide

theorem mem_fieldText (field : Char) (a b c : Bool) :
    ("1" ∈ (((fieldText field a b c).drop 2).splitOn ',').map String.ofList ↔ a = true) ∧
      ("2" ∈ (((fieldText field a b c).drop 2).splitOn ',').map String.ofList ↔ b = true) ∧
      ("3" ∈ (((fieldText field a b c).drop 2).splitOn ',').map String.ofList ↔ c = true) := by
  have hdrop : (fieldText field a b c).drop 2 = (fieldText 'A' a b c).drop 2 := rfl
  rw [hdrop]
  cases a <;> cases b <;> cases c <;> decide

theorem splitOn_plain {text rest : List Char} (h : ';' ∉ text) :
    (text ++ ';' :: rest).splitOn ';' = text :: rest.splitOn ';' := by
  have hnone : ∀ c ∈ text, (c == ';') = false := by
    intro c hc
    rw [beq_eq_false_iff_ne]
    exact fun heq => h (heq ▸ hc)
  rw [List.splitOn_append_cons_self]
  have hsplit : text.splitOn ';' = [text] := List.splitOnP_eq_singleton hnone
  rw [hsplit]
  rfl

/-- The numbers of the default capability are those of the tools that are found. -/
theorem announced_default (p : Platform) (patchTool decompTool : List DeltaTool) :
    (∀ entry ∈ formats, entry.1 ∈ announced (getDefltDeltaCap p patchTool decompTool) 'A' ↔
        (findTool patchTool entry.2).isSome = true) ∧
      ∀ entry ∈ compressions, entry.1 ∈ announced (getDefltDeltaCap p patchTool decompTool) 'B' ↔
        (findTool decompTool entry.2).isSome = true := by
  let a := (findTool patchTool "bsdiff").isSome
  let b := (findTool patchTool "rfc3284").isSome
  let c := (findTool patchTool "esdiff").isSome
  let d := (findTool decompTool "gzip").isSome
  let e := (findTool decompTool "bzip2").isSome
  let f := (findTool decompTool "xz").isSome
  obtain ⟨rest, hcap⟩ : ∃ rest, (getDefltDeltaCap p patchTool decompTool).toList =
      fieldText 'A' a b c ++ ';' :: (fieldText 'B' d e f ++ ';' :: rest) := by
    refine ⟨("C:100" ++ ((if c then getEspatchVersion p else none).map (";E:" ++ ·)).getD
      "").toList, ?_⟩
    have hA := terminated_A a b c
    have hB := terminated_B d e f
    unfold getDefltDeltaCap
    simp only [String.toList_append]
    change (terminated ("A:" ++ chosen a "1" ++ chosen b "2" ++ chosen c "3") "A:0;").toList ++
      (terminated ("B:" ++ chosen d "1" ++ chosen e "2" ++ chosen f "3") "B:0;").toList ++ _ ++ _ =
        _
    rw [hA, hB]
    simp only [List.append_assoc, List.cons_append]
    rfl
  have hfields : (getDefltDeltaCap p patchTool decompTool).toList.splitOn ';' =
      fieldText 'A' a b c :: fieldText 'B' d e f :: rest.splitOn ';' := by
    rw [hcap, splitOn_plain (fieldText_plain a b c).1, splitOn_plain (fieldText_plain d e f).2]
  have hannouncedA : announced (getDefltDeltaCap p patchTool decompTool) 'A' =
      (((fieldText 'A' a b c).drop 2).splitOn ',').map String.ofList := by
    unfold announced
    rw [hfields]
    rfl
  have hannouncedB : announced (getDefltDeltaCap p patchTool decompTool) 'B' =
      (((fieldText 'B' d e f).drop 2).splitOn ',').map String.ofList := by
    unfold announced
    rw [hfields]
    rfl
  rw [hannouncedA, hannouncedB]
  obtain ⟨hbsdiff, hrfc3284, hesdiff⟩ := mem_fieldText 'A' a b c
  obtain ⟨hgzip, hbzip2, hxz⟩ := mem_fieldText 'B' d e f
  constructor
  · intro entry hentry
    simp only [formats, List.mem_cons, List.not_mem_nil, or_false] at hentry
    rcases hentry with rfl | rfl | rfl
    · exact hbsdiff
    · exact hrfc3284
    · exact hesdiff
  · intro entry hentry
    simp only [compressions, List.mem_cons, List.not_mem_nil, or_false] at hentry
    rcases hentry with rfl | rfl | rfl
    · exact hgzip
    · exact hbzip2
    · exact hxz

variable {p : Platform} {cacheDir : Option String} {cfg : Option DeltaCfg}

/-- Without a capability in the configuration the agent announces a format exactly if delta_patch
has a tool for it, and a compression exactly if there is one to unpack it. -/
theorem announces_what_it_patches (hok : (deltaInit p cacheDir cfg).1 = eUaOk)
    (hcap : s? (cfg.bind DeltaCfg.deltaCap) = none) :
    ∃ cap, (deltaInit p cacheDir cfg).2.deltaCap = some cap ∧
      (∀ entry ∈ formats, entry.1 ∈ announced cap 'A' ↔
        ∃ tool, patchdth (deltaInit p cacheDir cfg).2.toDeltaStg entry.2 = .ok (some tool)) ∧
      ∀ entry ∈ compressions, entry.1 ∈ announced cap 'B' ↔
        ∃ tool, findTool (deltaInit p cacheDir cfg).2.decompTool entry.2 = some tool := by
  obtain ⟨dir, patchTool, decompTool, hinit, -⟩ := deltaInit_accepted (deltaInit_ok_iff.mp hok)
  have hdeflt : capability p cfg patchTool decompTool =
      (getDefltDeltaCap p patchTool decompTool, false) := by
    unfold capability
    rw [hcap]
  obtain ⟨hformats, hcompressions⟩ := announced_default p patchTool decompTool
  rw [hinit, hdeflt]
  refine ⟨_, rfl, fun entry hentry => ?_, fun entry hentry => ?_⟩
  · have hnamed : entry.2 ≠ "none" := by
      have hall : ∀ entry ∈ formats, entry.2 ≠ "none" := by decide
      exact hall entry hentry
    rw [hformats entry hentry]
    simp only [patchdth, hnamed, if_false]
    cases findTool patchTool entry.2 with
    | none => simp
    | some tool => simp
  · rw [hcompressions entry hentry, Option.isSome_iff_exists]

theorem announces_what_it_patches_example :
    ∃ cap, (deltaInit withoutBspatch (some "/ca") none).2.deltaCap = some cap ∧
      cap = "A:2,3;B:1,2,3;C:100;E:2.6" ∧ ("1" ∈ announced cap 'A' ↔
        ∃ tool, patchdth (deltaInit withoutBspatch (some "/ca") none).2.toDeltaStg "bsdiff" =
          .ok (some tool)) := by
  have hok : (deltaInit withoutBspatch (some "/ca") none).1 = eUaOk := by decide
  obtain ⟨cap, hcap, hformats, -⟩ := announces_what_it_patches hok rfl
  refine ⟨cap, hcap, ?_, hformats ("1", "bsdiff") (by decide)⟩
  have hdeflt : (deltaInit withoutBspatch (some "/ca") none).2.deltaCap =
      some "A:2,3;B:1,2,3;C:100;E:2.6" := by decide
  exact Option.some.inj (hcap.symm.trans hdeflt)

end Capability

end EsyncUa.DeltaTools
