import EsyncUa.LastWrites
import EsyncUa.PropertyLookups

/-!
The archive of a package in the stored query-updates document (`ua_get_package_path` in
`handler.c`). The name and the version of a target are kept from one target to the next when they
are not texts, and the requested version is not looked at: the first file under the name is taken.
-/
namespace EsyncUa.CampaignPackages

open JsonProperties PropertyLookups LastWrites

/-- A pointer without an initial value: nothing, NULL or a value. -/
abbrev Variable (α : Type) : Type := Option (Option α)

/-- A lookup into such a pointer. -/
def lookupInto {α : Type} (typ : JsonType) (decode : Json → Option α) (json : Json)
    (path : List String) (old : Variable α) : Variable α :=
  match jsonGetProperty typ json (path.map some) none with
  | (err, value) => if err = eUaOk then (value.bind decode).map some <|> old else some none

def targetName (target : Json) (old : Option String) : Option String :=
  (getString target (["package", "name"].map some) old).2

def targetVersion (target : Json) (old : Option String) : Option String :=
  (getString target (["package", "version"].map some) old).2

/-- The file of the version, if there is a version. -/
def targetFile (target : Json) (version : Option String) : Option String :=
  version.bind fun version =>
    (getString target (["package", "version-list", version, "file"].map some) none).2

/-- The loop over the targets, with the name and the version of the last one. -/
def searchTargets (pkgName : Option String) :
    List Json → (name version : Option String) → Option String
  | [], _, _ => none
  | target :: rest, name, version =>
      let name := targetName target name
      if name.isSome ∧ pkgName.isSome ∧ pkgName = name then
        let version := targetVersion target version
        match targetFile target version with
        | some file => some file
        | none => searchTargets pkgName rest name version
      else searchTargets pkgName rest name version

/-- The comparison of a campaign's id; a pointer without a value cannot be compared. -/
def sameCampaign (campaignsId : Variable String) (curCampaignId : Option String) : Option Bool :=
  match campaignsId, curCampaignId with
  | _, none => some false
  | none, some _ => none
  | some id, some cur => some (decide (id = some cur))

/-- The loop over the campaigns, which ends at the current one; `none` is an invalid access. -/
def searchCampaigns (curCampaignId pkgName : Option String) :
    List Json → Variable String → Option (Option String)
  | [], _ => some none
  | campaign :: rest, campaignsId => do
      let campaignsId := lookupInto .string Json.string? campaign ["id"] campaignsId
      let found ← sameCampaign campaignsId curCampaignId
      if found then
        -- the length of NULL is an invalid access, too
        let targets ← (getArray campaign (["targets"].map some) none).2
        pure (searchTargets pkgName targets none none)
      else searchCampaigns curCampaignId pkgName rest campaignsId

/-- `ua_get_package_path`; the document is null if none has been stored. -/
def uaGetPackagePath (queryUpdates : Json) (curCampaignId pkgName _pkgVersion : Option String) :
    Option (Option String) := do
  let campaigns ← lookupInto .array Json.array? queryUpdates ["body", "campaigns"] none
  searchCampaigns curCampaignId pkgName (campaigns.getD []) none

/-- A target of the package in the version, with the file that it gives for the version. -/
structure TargetOf (target : Json) (name version file : String) : Prop where
  has_name : follow target ["package", "name"] = some (.string name)
  has_version : follow target ["package", "version"] = some (.string version)
  has_file : follow target ["package", "version-list", version, "file"] = some (.string file)

/-- A campaign of the document with the id. -/
structure CampaignOf (queryUpdates : Json) (id : String) (campaign : Json) : Prop where
  mem : ∃ campaigns, follow queryUpdates ["body", "campaigns"] = some (.array campaigns) ∧
    campaign ∈ campaigns
  has_id : follow campaign ["id"] = some (.string id)

/-- The current campaign has the package in the version, with this file. -/
def Located (queryUpdates : Json) (curCampaignId pkgName pkgVersion : Option String)
    (file : String) : Prop :=
  ∃ id name version campaign targets target,
    curCampaignId = some id ∧ pkgName = some name ∧ pkgVersion = some version ∧
      CampaignOf queryUpdates id campaign ∧ follow campaign ["targets"] = some (.array targets) ∧
      target ∈ targets ∧ TargetOf target name version file

/-- A path only if the current campaign has it for the name and the version, else NULL. -/
def Answers (queryUpdates : Json) (curCampaignId pkgName pkgVersion : Option String) : Prop :=
  ∃ path, uaGetPackagePath queryUpdates curCampaignId pkgName pkgVersion = some path ∧
    (∀ file, path = some file →
      Located queryUpdates curCampaignId pkgName pkgVersion file) ∧
    ((¬∃ file, Located queryUpdates curCampaignId pkgName pkgVersion file) → path = none)

/-- What a property stores into a `char*`: NULL if it is missing, nothing if it is not a text. -/
def stated (property : Option Json) : Option (Option String) :=
  match property with
  | none => some none
  | some v => v.string?.map some

def statedName (target : Json) : Option (Option String) :=
  stated (follow target ["package", "name"])

def statedVersion (target : Json) : Option (Option String) :=
  stated (follow target ["package", "version"])

/-- The targets that are taken for the name: they state it, or what they state is not a text and
the target before was taken for it. -/
def takenFor (pkgName : String) : Option String → List Json → List Json
  | _, [] => []
  | name, target :: rest =>
      let name := (statedName target).getD name
      if name = some pkgName then target :: takenFor pkgName name rest
      else takenFor pkgName name rest

/-- The target gives the file for the version that it states, or else for the last one stated. -/
def Offers (version : Option String) (before : List Json) (target : Json) (file : String) : Prop :=
  ∃ ver, assigned statedVersion version (before ++ [target]) = some ver ∧
    follow target ["package", "version-list", ver, "file"] = some (.string file)

/-- The first of the targets that gives a file gives this one. -/
def FirstOffer (version : Option String) (targets : List Json) (file : String) : Prop :=
  ∃ before target after, targets = before ++ target :: after ∧
    Offers version before target file ∧
    ∀ earlier other later, before = earlier ++ other :: later →
      ∀ file', ¬Offers version earlier other file'

def hasId (id : String) (campaign : Json) : Bool :=
  decide (follow campaign ["id"] = some (.string id))

/-- A document that the search gets through without an invalid access. -/
structure Readable (queryUpdates : Json) (curCampaignId : Option String) : Prop where
  campaigns : ∀ v, follow queryUpdates ["body", "campaigns"] = some v →
    ∃ campaigns, v = .array campaigns
  first_id : ∀ id campaign rest v, curCampaignId = some id →
    follow queryUpdates ["body", "campaigns"] = some (.array (campaign :: rest)) →
    follow campaign ["id"] = some v → ∃ text, v = .string text
  targets : ∀ id campaigns campaign, curCampaignId = some id →
    follow queryUpdates ["body", "campaigns"] = some (.array campaigns) →
    campaigns.find? (hasId id) = some campaign →
    ∃ targets, follow campaign ["targets"] = some (.array targets)

/-- The first file under the name in the first campaign with the current id. -/
def FirstFile (queryUpdates : Json) (curCampaignId pkgName : Option String) (file : String) :
    Prop :=
  ∃ id name campaigns campaign targets, curCampaignId = some id ∧ pkgName = some name ∧
    follow queryUpdates ["body", "campaigns"] = some (.array campaigns) ∧
    campaigns.find? (hasId id) = some campaign ∧
    follow campaign ["targets"] = some (.array targets) ∧
    FirstOffer none (takenFor name none targets) file

theorem lookupInto_string (json : Json) (path : List String) (hpath : path ≠ [])
    (old : Variable String) :
    lookupInto .string Json.string? json path old = (stated (follow json path) <|> old) := by
  have herr := jsonGetProperty_err .string json path none
  unfold lookupInto stated
  cases h : follow json path with
  | none =>
    rcases hwalk : jsonGetProperty .string json (path.map some) none with ⟨err, value⟩
    rw [h, hwalk] at herr
    obtain rfl : err = eUaErr := herr
    rfl
  | some v =>
    have hvalue := jsonGetProperty_end .string nofun none hpath h
    rcases hwalk : jsonGetProperty .string json (path.map some) none with ⟨err, value⟩
    rw [h, hwalk] at herr
    rw [hwalk] at hvalue
    obtain rfl : err = eUaOk := herr
    obtain rfl : value = _ := hvalue
    cases v <;> rfl

theorem targetName_eq (target : Json) (old : Option String) :
    targetName target old = (statedName target).getD old := by
  unfold targetName statedName stated
  cases h : follow target ["package", "name"] with
  | none =>
    rw [getString_absent old h]
    rfl
  | some v =>
    rw [getString_present old (List.cons_ne_nil _ _) h]
    cases v <;> rfl

theorem targetVersion_eq (target : Json) (old : Option String) :
    targetVersion target old = (statedVersion target).getD old := by
  unfold targetVersion statedVersion stated
  cases h : follow target ["package", "version"] with
  | none =>
    rw [getString_absent old h]
    rfl
  | some v =>
    rw [getString_present old (List.cons_ne_nil _ _) h]
    cases v <;> rfl

theorem targetFile_eq_some_iff (target : Json) (version : Option String) (file : String) :
    targetFile target version = some file ↔ ∃ ver, version = some ver ∧
      follow target ["package", "version-list", ver, "file"] = some (.string file) := by
  unfold targetFile
  cases version with
  | none => simp
  | some ver =>
    simp only [Option.bind_some, Option.some.injEq, exists_eq_left']
    cases h : follow target ["package", "version-list", ver, "file"] with
    | none =>
      rw [getString_absent none h]
      simp
    | some v =>
      rw [getString_present none (List.cons_ne_nil _ _) h]
      cases v <;> simp [Json.string?]

theorem offers_nil_iff (version : Option String) (target : Json) (file : String) :
    Offers version [] target file ↔
      targetFile target (targetVersion target version) = some file := by
  rw [targetFile_eq_some_iff, targetVersion_eq]
  rfl

/-- The first file is that of the first target, or of the others with the version kept. -/
theorem firstOffer_cons (version : Option String) (target : Json) (rest : List Json)
    (file : String) :
    FirstOffer version (target :: rest) file ↔ Offers version [] target file ∨
      (∀ file', ¬Offers version [] target file') ∧
        FirstOffer ((statedVersion target).getD version) rest file := by
  constructor
  · rintro ⟨before, other, after, hsplit, hoffers, hfirst⟩
    cases before with
    | nil =>
      obtain ⟨rfl, rfl⟩ := List.cons.inj hsplit
      exact Or.inl hoffers
    | cons first before =>
      obtain ⟨rfl, rfl⟩ := List.cons.inj hsplit
      refine Or.inr ⟨hfirst [] target before rfl, before, other, after, rfl, hoffers, ?_⟩
      rintro earlier another later rfl
      exact hfirst (target :: earlier) another later rfl
  · rintro (hoffers | ⟨hnone, before, other, after, rfl, hoffers, hfirst⟩)
    · exact ⟨[], target, rest, rfl, hoffers, fun _ _ _ h => absurd h (by simp)⟩
    · refine ⟨target :: before, other, after, rfl, hoffers, ?_⟩
      intro earlier another later hsplit
      cases earlier with
      | nil =>
        obtain ⟨rfl, -⟩ := List.cons.inj hsplit
        exact hnone
      | cons first earlier =>
        obtain ⟨rfl, rfl⟩ := List.cons.inj hsplit
        exact hfirst earlier another later rfl

theorem not_firstOffer_nil (version : Option String) (file : String) :
    ¬FirstOffer version [] file := by
  rintro ⟨before, target, after, h, -⟩
  simp at h

/-- The loop over the targets finds the first file under the name. -/
theorem searchTargets_eq_some_iff (pkgName : String) (targets : List Json)
    (name version : Option String) (file : String) :
    searchTargets (some pkgName) targets name version = some file ↔
      FirstOffer version (takenFor pkgName name targets) file := by
  induction targets generalizing name version with
  | nil => simp [searchTargets, takenFor, not_firstOffer_nil]
  | cons target rest ih =>
    rw [searchTargets, takenFor, targetName_eq]
    by_cases hname : (statedName target).getD name = some pkgName
    · rw [if_pos (by simp [hname]), if_pos hname, firstOffer_cons]
      cases hfile : targetFile target (targetVersion target version) with
      | some found =>
        simp [offers_nil_iff, hfile]
      | none =>
        simp only [offers_nil_iff, hfile]
        rw [ih, targetVersion_eq]
        simp
    · rw [if_neg (by rintro ⟨-, -, h⟩; exact hname h.symm), if_neg hname]
      exact ih _ version

theorem searchTargets_none (targets : List Json) (name version : Option String) :
    searchTargets none targets name version = none := by
  induction targets generalizing name version with
  | nil => rfl
  | cons target rest ih =>
    rw [searchTargets, if_neg (by simp)]
    exact ih _ version

/-- What the search makes of the campaign that it stops at. -/
def inCampaign (pkgName : Option String) (campaign : Json) : Option (Option String) :=
  (getArray campaign (["targets"].map some) none).2.map (searchTargets pkgName · none none)

theorem getArray_eq_some_iff (campaign : Json) (targets : List Json) :
    (getArray campaign (["targets"].map some) none).2 = some targets ↔
      follow campaign ["targets"] = some (.array targets) := by
  cases h : follow campaign ["targets"] with
  | none =>
    rw [getArray_absent none h]
    simp
  | some v =>
    rw [getArray_present none (List.cons_ne_nil _ _) h]
    cases v <;> simp [Json.array?]

theorem searchCampaigns_cons (curCampaignId pkgName : Option String) (campaign : Json)
    (rest : List Json) (campaignsId : Variable String) :
    searchCampaigns curCampaignId pkgName (campaign :: rest) campaignsId =
      (sameCampaign (stated (follow campaign ["id"]) <|> campaignsId) curCampaignId).bind
        fun found =>
          if found then inCampaign pkgName campaign
          else searchCampaigns curCampaignId pkgName rest
            (stated (follow campaign ["id"]) <|> campaignsId) := by
  rw [searchCampaigns, lookupInto_string _ _ (List.cons_ne_nil _ _)]
  unfold inCampaign
  rcases sameCampaign (stated (follow campaign ["id"]) <|> campaignsId) curCampaignId with
    _ | found
  · rfl
  · cases found with
    | false => rfl
    | true => cases (getArray campaign (["targets"].map some) none).2 <;> rfl

/-- Without a current campaign nothing is found. -/
theorem searchCampaigns_none (pkgName : Option String) (campaigns : List Json)
    (campaignsId : Variable String) :
    searchCampaigns none pkgName campaigns campaignsId = some none := by
  induction campaigns generalizing campaignsId with
  | nil => rfl
  | cons campaign rest ih =>
    rw [searchCampaigns_cons, sameCampaign]
    exact ih _

/-- An id that has been kept from the campaign before is not the current one. -/
theorem searchCampaigns_eq (id : String) (pkgName : Option String) (campaigns : List Json)
    (old : Option String) (hold : old ≠ some id) :
    searchCampaigns (some id) pkgName campaigns (some old) =
      match campaigns.find? (hasId id) with
      | none => some none
      | some campaign => inCampaign pkgName campaign := by
  induction campaigns generalizing old with
  | nil => rfl
  | cons campaign rest ih =>
    rw [searchCampaigns_cons]
    have hstated : hasId id campaign = true ↔ stated (follow campaign ["id"]) = some (some id) := by
      unfold hasId stated
      rw [decide_eq_true_iff]
      cases follow campaign ["id"] with
      | none => simp
      | some v => cases v <;> simp [Json.string?]
    by_cases hid : hasId id campaign = true
    · rw [List.find?_cons_of_pos hid, hstated.mp hid]
      simp [sameCampaign]
    · rw [List.find?_cons_of_neg hid]
      obtain ⟨next, hnext, hne⟩ :
          ∃ next, (stated (follow campaign ["id"]) <|> some old) = some next ∧ next ≠ some id := by
        cases h : stated (follow campaign ["id"]) with
        | none => exact ⟨old, rfl, hold⟩
        | some next => exact ⟨next, rfl, fun hsame => hid (hstated.mpr (by rw [h, hsame]))⟩
      rw [hnext]
      simp only [sameCampaign, hne, decide_false, Option.bind_some, Bool.false_eq_true, if_false]
      exact ih next hne

/-- Only the id of the first campaign can be without a value. -/
theorem searchCampaigns_start (id : String) (pkgName : Option String) (campaign : Json)
    (rest : List Json) :
    searchCampaigns (some id) pkgName (campaign :: rest) none =
      (stated (follow campaign ["id"])).bind fun _ =>
        match (campaign :: rest).find? (hasId id) with
        | none => some none
        | some found => inCampaign pkgName found := by
  rw [← searchCampaigns_eq id pkgName (campaign :: rest) none nofun, searchCampaigns_cons,
    searchCampaigns_cons]
  cases stated (follow campaign ["id"]) <;> rfl

theorem lookupInto_campaigns (queryUpdates : Json) :
    lookupInto .array Json.array? queryUpdates ["body", "campaigns"] none =
      match follow queryUpdates ["body", "campaigns"] with
      | none => some none
      | some v => v.array?.map some := by
  have herr := jsonGetProperty_err .array queryUpdates ["body", "campaigns"] none
  unfold lookupInto
  cases h : follow queryUpdates ["body", "campaigns"] with
  | none =>
    rcases hwalk : jsonGetProperty .array queryUpdates (["body", "campaigns"].map some) none with
      ⟨err, value⟩
    rw [h, hwalk] at herr
    obtain rfl : err = eUaErr := herr
    rfl
  | some v =>
    have hvalue := jsonGetProperty_end .array nofun none (List.cons_ne_nil _ _) h
    rcases hwalk : jsonGetProperty .array queryUpdates (["body", "campaigns"].map some) none with
      ⟨err, value⟩
    rw [h, hwalk] at herr
    rw [hwalk] at hvalue
    obtain rfl : err = eUaOk := herr
    obtain rfl : value = _ := hvalue
    cases v <;> rfl

section Results

variable {queryUpdates : Json} {curCampaignId : Option String}

theorem path_of_absent (pkgName pkgVersion : Option String)
    (h : follow queryUpdates ["body", "campaigns"] = none) :
    uaGetPackagePath queryUpdates curCampaignId pkgName pkgVersion = some none := by
  rw [uaGetPackagePath, lookupInto_campaigns, h]
  rfl

theorem path_of_campaigns (pkgName pkgVersion : Option String) {campaigns : List Json}
    (h : follow queryUpdates ["body", "campaigns"] = some (.array campaigns)) :
    uaGetPackagePath queryUpdates curCampaignId pkgName pkgVersion =
      searchCampaigns curCampaignId pkgName campaigns none := by
  rw [uaGetPackagePath, lookupInto_campaigns, h]
  rfl

/-- On a readable document the search returns the first file, or NULL without one. -/
theorem Readable.path (h : Readable queryUpdates curCampaignId)
    (pkgName pkgVersion : Option String) :
    ∃ path, uaGetPackagePath queryUpdates curCampaignId pkgName pkgVersion = some path ∧
      ∀ file, path = some file ↔ FirstFile queryUpdates curCampaignId pkgName file := by
  cases hcampaigns : follow queryUpdates ["body", "campaigns"] with
  | none =>
    refine ⟨none, path_of_absent pkgName pkgVersion hcampaigns, fun file => ?_⟩
    refine iff_of_false nofun ?_
    rintro ⟨id, name, campaigns, campaign, targets, -, -, hsome, -⟩
    rw [hcampaigns] at hsome
    cases hsome
  | some v =>
    obtain ⟨campaigns, rfl⟩ := h.campaigns v hcampaigns
    rw [path_of_campaigns pkgName pkgVersion hcampaigns]
    cases curCampaignId with
    | none =>
      refine ⟨none, searchCampaigns_none pkgName campaigns none, fun file => ?_⟩
      refine iff_of_false nofun ?_
      rintro ⟨id, name, campaigns, campaign, targets, hid, -⟩
      cases hid
    | some id =>
      have hfound : searchCampaigns (some id) pkgName campaigns none =
          match campaigns.find? (hasId id) with
          | none => some none
          | some campaign => inCampaign pkgName campaign := by
        cases campaigns with
        | nil => rfl
        | cons campaign rest =>
          rw [searchCampaigns_start]
          cases hstated : follow campaign ["id"] with
          | none => rfl
          | some v =>
            obtain ⟨text, rfl⟩ := h.first_id id campaign rest v rfl hcampaigns hstated
            rfl
      rw [hfound]
      cases hfind : campaigns.find? (hasId id) with
      | none =>
        refine ⟨none, rfl, fun file => iff_of_false nofun ?_⟩
        rintro ⟨id', name, campaigns', campaign, targets, hid, -, hsome, hsearch, -⟩
        obtain rfl := Option.some.inj hid
        obtain rfl := Json.array.inj (Option.some.inj (hcampaigns.symm.trans hsome))
        rw [hfind] at hsearch
        cases hsearch
      | some campaign =>
        obtain ⟨targets, htargets⟩ := h.targets id campaigns campaign rfl hcampaigns hfind
        refine ⟨searchTargets pkgName targets none none, ?_, fun file => ?_⟩
        · simp only [inCampaign, (getArray_eq_some_iff campaign targets).mpr htargets,
            Option.map_some]
        · constructor
          · intro hpath
            cases pkgName with
            | none =>
              rw [searchTargets_none] at hpath
              cases hpath
            | some name =>
              exact ⟨id, name, campaigns, campaign, targets, rfl, rfl, hcampaigns, hfind, htargets,
                (searchTargets_eq_some_iff name targets none none file).mp hpath⟩
          · rintro ⟨id', name, campaigns', campaign', targets', hid, rfl, hsome, hfind', htargets',
              hoffer⟩
            obtain rfl := Option.some.inj hid
            obtain rfl := Json.array.inj (Option.some.inj (hcampaigns.symm.trans hsome))
            obtain rfl := Option.some.inj (hfind.symm.trans hfind')
            obtain rfl := Json.array.inj (Option.some.inj (htargets.symm.trans htargets'))
            exact (searchTargets_eq_some_iff name targets none none file).mpr hoffer

/-- The search gets through only the readable documents. -/
theorem readable_of_path {pkgName pkgVersion path : Option String}
    (h : uaGetPackagePath queryUpdates curCampaignId pkgName pkgVersion = some path) :
    Readable queryUpdates curCampaignId := by
  refine ⟨?_, ?_, ?_⟩
  · intro v hv
    rw [uaGetPackagePath, lookupInto_campaigns, hv] at h
    cases v with
    | array campaigns => exact ⟨campaigns, rfl⟩
    | _ => cases h
  · rintro id campaign rest v rfl hcampaigns hid
    rw [path_of_campaigns pkgName pkgVersion hcampaigns, searchCampaigns_start, hid] at h
    cases v with
    | string text => exact ⟨text, rfl⟩
    | _ => cases h
  · rintro id campaigns campaign rfl hcampaigns hfind
    rw [path_of_campaigns pkgName pkgVersion hcampaigns] at h
    cases campaigns with
    | nil => cases hfind
    | cons first rest =>
      rw [searchCampaigns_start, hfind] at h
      obtain ⟨_, -, h⟩ := Option.bind_eq_some_iff.mp h
      obtain ⟨targets, htargets, -⟩ := Option.map_eq_some_iff.mp h
      exact ⟨targets, (getArray_eq_some_iff campaign targets).mp htargets⟩

end Results

/-- A path is returned for the requested version exactly when the document is readable and the
first file under the name is also given for this version. -/
theorem path_answers_iff (queryUpdates : Json)
    (curCampaignId pkgName pkgVersion : Option String) :
    Answers queryUpdates curCampaignId pkgName pkgVersion ↔
      Readable queryUpdates curCampaignId ∧
        ∀ file, FirstFile queryUpdates curCampaignId pkgName file →
          Located queryUpdates curCampaignId pkgName pkgVersion file := by
  constructor
  · rintro ⟨path, hpath, hlocated, -⟩
    have hreadable := readable_of_path hpath
    obtain ⟨path', hpath', hfile⟩ := hreadable.path pkgName pkgVersion
    obtain rfl := Option.some.inj (hpath.symm.trans hpath')
    exact ⟨hreadable, fun file hfirst => hlocated file ((hfile file).mpr hfirst)⟩
  · rintro ⟨hreadable, hlocated⟩
    obtain ⟨path, hpath, hfile⟩ := hreadable.path pkgName pkgVersion
    refine ⟨path, hpath, fun file h => hlocated file ((hfile file).mp h), fun hnone => ?_⟩
    cases path with
    | none => rfl
    | some file => exact absurd ⟨file, hlocated file ((hfile file).mp rfl)⟩ hnone

/-- A campaign whose only target is of version 1. -/
def olderTarget : Json :=
  .object [("body", .object [("campaigns", .array [.object [("id", .string "7"),
    ("targets", .array [.object [("package", .object [("name", .string "p"),
      ("version", .string "1"),
      ("version-list", .object [("1", .object [("file", .string "/p1")])])])]])]])])]

/-- The archive of version 1 is returned for version 2. -/
theorem other_version_returned : ¬Answers olderTarget (some "7") (some "p") (some "2") := by
  rintro ⟨path, hpath, hlocated, -⟩
  have hfile : uaGetPackagePath olderTarget (some "7") (some "p") (some "2") =
      some (some "/p1") := by decide
  obtain rfl := Option.some.inj (hpath.symm.trans hfile)
  obtain ⟨id, name, version, campaign, targets, target, -, -, hversion, ⟨⟨campaigns, hcampaigns,
    hcampaign⟩, -⟩, htargets, htarget, hof⟩ := hlocated "/p1" rfl
  obtain rfl := Option.some.inj hversion
  obtain rfl := Json.array.inj (Option.some.inj hcampaigns)
  obtain rfl := List.mem_singleton.mp hcampaign
  obtain rfl := Json.array.inj (Option.some.inj htargets)
  obtain rfl := List.mem_singleton.mp htarget
  exact absurd hof.has_version (by decide)

end EsyncUa.CampaignPackages
