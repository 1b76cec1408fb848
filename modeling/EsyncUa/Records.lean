import EsyncUa.Components

/-!
The update record of `updater.c`: what `update_record_save` writes about a component and
what `update_set_comp_context` restores from it after a reboot. The record is a JSON text,
so an absent or empty string is written as the text `null` and read back as that text.
-/
namespace EsyncUa.Records

open EsyncUa.JsonProperties EsyncUa.Components

/-- `json_object_object_add` of an optional property. -/
def optionalField (name : String) (value : Option Json) : List (String × Json) :=
  match value with
  | some value => [(name, value)]
  | none => []

def updateGetPkgInfoJo (pkg : PkgInfo) : Json :=
  .object <|
    [("type", .string (nullStr pkg.type)), ("name", .string (nullStr pkg.name)),
      ("version", .string (nullStr pkg.version))] ++
    optionalField "rollback-version"
      (pkg.rollbackVersion.map fun _ => .string (nullStr pkg.rollbackVersion)) ++
    optionalField "rollback-versions" (pkg.rollbackVersions.map Json.array)

def updateSetPkgInfo (joPkg : Json) (pkg : PkgInfo) : Rc × PkgInfo :=
  let type := getString joPkg [some "package", some "type"] pkg.type
  let pkg := { pkg with type := type.2 }
  if type.1 ≠ eUaOk then (type.1, pkg) else
  let name := getString joPkg [some "package", some "name"] pkg.name
  let pkg := { pkg with name := name.2 }
  if name.1 ≠ eUaOk then (name.1, pkg) else
  let version := getString joPkg [some "package", some "version"] pkg.version
  let pkg := { pkg with version := version.2 }
  if version.1 ≠ eUaOk then (version.1, pkg) else
  let rollbackVersion :=
    getString joPkg [some "package", some "rollback-version"] pkg.rollbackVersion
  let rollbackVersions :=
    getArray joPkg [some "package", some "rollback-versions"] pkg.rollbackVersions
  (eUaOk, { pkg with
    rollbackVersion := rollbackVersion.2, rollbackVersions := rollbackVersions.2 })

def updateGetUpdateFileInfoJo (updateInf : PkgFile) : Json :=
  .object
    [("file", .string (nullStr updateInf.file)), ("version", .string (nullStr updateInf.version)),
      ("sha256", .string (nullStr (some updateInf.sha256b64.val))),
      ("downloaded", .int updateInf.downloaded.toInt64),
      ("rollback-order", .int updateInf.rollbackOrder.toInt64)]

/-- The string and the number read last stay in `tmp_str` and `tmp` for the next property. -/
def updateSetUpdateFileInfo (joUpdateInf : Json) (updateInf : PkgFile) : Rc × PkgFile :=
  let file := getString joUpdateInf [some "update-file-info", some "file"] none
  let updateInf := if file.1 = eUaOk then { updateInf with file := file.2 } else updateInf
  let version := getString joUpdateInf [some "update-file-info", some "version"] file.2
  let updateInf := if version.1 = eUaOk then { updateInf with version := version.2 } else updateInf
  let sha256 := getString joUpdateInf [some "update-file-info", some "sha256"] version.2
  let updateInf :=
    match sha256.2 with
    | some tmpStr => { updateInf with sha256b64 := .copy tmpStr }
    | none => updateInf
  let downloaded := getInt joUpdateInf [some "update-file-info", some "downloaded"] 0
  let updateInf :=
    if downloaded.1 = eUaOk then { updateInf with downloaded := downloaded.2.toInt32 }
    else updateInf
  let rollbackOrder :=
    getInt joUpdateInf [some "update-file-info", some "rollback-order"] downloaded.2
  let updateInf :=
    if rollbackOrder.1 = eUaOk then { updateInf with rollbackOrder := rollbackOrder.2.toInt32 }
    else updateInf
  (rollbackOrder.1, updateInf)

/-- `update_get_comp_context_jo`, with `ctrl` for `ua_intl.component_ctrl`. -/
def updateGetCompContextJo (uacc : UaComponentContext) (ctrl : Table CompCtrl) : Json :=
  .object <|
    [("package", updateGetPkgInfoJo uacc.updatePkg),
      ("update-file-info", updateGetUpdateFileInfoJo uacc.updateFileInfo),
      ("rb-type", .int (compGetRbType ctrl uacc.updatePkg.name).code),
      ("update-state", .int (compGetUpdateStage uacc.stInfo uacc.updatePkg.name).code),
      ("update-error", .int uacc.updateError.code),
      ("update-retry-cnt", .int uacc.retryCnt.toInt64)] ++
    optionalField "update-command-sequence"
      ((uacc.updatePkg.name.bind uacc.seqIn).map fun num => .int num.toInt64)

/-- `update_set_comp_context`: each property that is read decides the result anew. -/
def updateSetCompContext (uacc : UaComponentContext) (ctrl : Table CompCtrl) (updateCc : Json) :
    Rc × UaComponentContext × Table CompCtrl :=
  let uacc := { uacc with
    updateFileInfo := (updateSetUpdateFileInfo updateCc uacc.updateFileInfo).2 }
  let uacc := { uacc with updatePkg := (updateSetPkgInfo updateCc uacc.updatePkg).2 }
  let name := uacc.updatePkg.name
  let rbType := getInt updateCc [some "rb-type"] 0
  let ctrl := if rbType.1 = eUaOk then compSetRbType ctrl name (.ofCode rbType.2) else ctrl
  let state := getInt updateCc [some "update-state"] rbType.2
  let uacc :=
    if state.1 = eUaOk then
      { uacc with stInfo := compSetUpdateStage uacc.stInfo name (.ofCode state.2) }
    else uacc
  let error := getInt updateCc [some "update-error"] state.2
  let uacc := if error.1 = eUaOk then { uacc with updateError := .ofCode error.2 } else uacc
  let retry := getInt updateCc [some "update-retry-cnt"] error.2
  let uacc := if retry.1 = eUaOk then { uacc with retryCnt := retry.2.toInt32 } else uacc
  let seq := getInt updateCc [some "update-command-sequence"] retry.2
  let uacc :=
    match name with
    | some name =>
        if seq.1 = eUaOk then
          { uacc with seqIn := (handlerChkIncomingSeqOutdated uacc.seqIn name seq.2.toInt32).1 }
        else uacc
    | none => uacc
  (seq.1, uacc, ctrl)

/-- `update_record_get_type`. -/
def updateRecordGetType (joCc : Json) : Option String :=
  match updateSetPkgInfo joCc .zero with
  | (err, pkg) => if err = eUaOk then pkg.type else none

/-! What is read back from a written record. -/

section ReadBack

variable (uacc : UaComponentContext) (ctrl : Table CompCtrl)

@[simp] theorem lookup_optionalField (name key : String) (value : Option Json) :
    (optionalField name value).lookup key = if key = name then value else none := by
  cases value with
  | none => simp [optionalField]
  | some value =>
      by_cases h : key = name
      · simp [optionalField, h]
      · simp [optionalField, List.lookup_cons, h, beq_eq_false_iff_ne.mpr h]

/-- The string that stands for an optional string of the context in the record. -/
def recorded (s : Option String) : Option String := some (nullStr s)

theorem updateSetPkgInfo_record (pkg : PkgInfo) :
    updateSetPkgInfo (updateGetCompContextJo uacc ctrl) pkg =
      (eUaOk, ⟨recorded uacc.updatePkg.type, recorded uacc.updatePkg.name,
        recorded uacc.updatePkg.version,
        uacc.updatePkg.rollbackVersion.bind fun v => recorded (some v),
        uacc.updatePkg.rollbackVersions⟩) := by
  have hrollback : ∀ old, (getString (updateGetCompContextJo uacc ctrl)
      [some "package", some "rollback-version"] old).2 =
        uacc.updatePkg.rollbackVersion.bind fun v => recorded (some v) := by
    intro old
    cases h : uacc.updatePkg.rollbackVersion <;>
      simp [getString, jsonGetProperty, updateGetCompContextJo, updateGetPkgInfoJo, Json.field?,
        Json.isType, Json.string?, List.lookup_cons, List.lookup_append, recorded, h]
  have hversions : ∀ old, (getArray (updateGetCompContextJo uacc ctrl)
      [some "package", some "rollback-versions"] old).2 = uacc.updatePkg.rollbackVersions := by
    intro old
    cases h : uacc.updatePkg.rollbackVersions <;>
      simp [getArray, jsonGetProperty, updateGetCompContextJo, updateGetPkgInfoJo, Json.field?,
        Json.isType, Json.array?, List.lookup_cons, List.lookup_append, h]
  have hrequired : ∀ key value old, (key, Json.string value) ∈
      [("type", Json.string (nullStr uacc.updatePkg.type)),
        ("name", .string (nullStr uacc.updatePkg.name)),
        ("version", .string (nullStr uacc.updatePkg.version))] →
      getString (updateGetCompContextJo uacc ctrl) [some "package", some key] old =
        (eUaOk, some value) := by
    intro key value old hmem
    simp only [List.mem_cons, Prod.mk.injEq, Json.string.injEq, List.not_mem_nil, or_false]
      at hmem
    rcases hmem with ⟨rfl, rfl⟩ | ⟨rfl, rfl⟩ | ⟨rfl, rfl⟩ <;>
      simp [getString, jsonGetProperty, updateGetCompContextJo, updateGetPkgInfoJo, Json.field?,
        Json.isType, Json.string?, List.lookup_cons]
  simp [updateSetPkgInfo, hrequired "type" (nullStr uacc.updatePkg.type),
    hrequired "name" (nullStr uacc.updatePkg.name),
    hrequired "version" (nullStr uacc.updatePkg.version), hrollback, hversions, recorded]

theorem updateSetUpdateFileInfo_record (updateInf : PkgFile) :
    updateSetUpdateFileInfo (updateGetCompContextJo uacc ctrl) updateInf =
      (eUaOk, { updateInf with
        file := recorded uacc.updateFileInfo.file
        version := recorded uacc.updateFileInfo.version
        sha256b64 := .copy (nullStr (some uacc.updateFileInfo.sha256b64.val))
        downloaded := uacc.updateFileInfo.downloaded
        rollbackOrder := uacc.updateFileInfo.rollbackOrder }) := by
  simp [updateSetUpdateFileInfo, getString, getInt, jsonGetProperty, updateGetCompContextJo,
    updateGetUpdateFileInfoJo, Json.field?, Json.isType, Json.string?, Json.int?,
    List.lookup_cons, recorded]

theorem getInt_record (key : String) (value old : Int64) (hmem : (key, value) ∈
    [("rb-type", (compGetRbType ctrl uacc.updatePkg.name).code),
      ("update-state", (compGetUpdateStage uacc.stInfo uacc.updatePkg.name).code),
      ("update-error", uacc.updateError.code), ("update-retry-cnt", uacc.retryCnt.toInt64)]) :
    getInt (updateGetCompContextJo uacc ctrl) [some key] old = (eUaOk, value) := by
  simp only [List.mem_cons, Prod.mk.injEq, List.not_mem_nil, or_false] at hmem
  rcases hmem with ⟨rfl, rfl⟩ | ⟨rfl, rfl⟩ | ⟨rfl, rfl⟩ | ⟨rfl, rfl⟩ <;>
    simp [getInt, jsonGetProperty, updateGetCompContextJo, Json.field?, Json.isType, Json.int?,
      List.lookup_cons]

theorem getInt_sequence_record (old : Int64) :
    getInt (updateGetCompContextJo uacc ctrl) [some "update-command-sequence"] old =
      match uacc.updatePkg.name.bind uacc.seqIn with
      | some num => (eUaOk, num.toInt64)
      | none => (eUaErr, old) := by
  cases h : uacc.updatePkg.name.bind uacc.seqIn <;>
    simp [getInt, jsonGetProperty, updateGetCompContextJo, Json.field?, Json.isType, Json.int?,
      List.lookup_cons, h]

/-- The context restored from a record, apart from the sequence numbers. -/
def restored (fresh : UaComponentContext) : UaComponentContext :=
  { fresh with
    updateFileInfo := (updateSetUpdateFileInfo (updateGetCompContextJo uacc ctrl)
      fresh.updateFileInfo).2
    updatePkg := (updateSetPkgInfo (updateGetCompContextJo uacc ctrl) fresh.updatePkg).2
    stInfo := compSetUpdateStage fresh.stInfo (recorded uacc.updatePkg.name)
      (compGetUpdateStage uacc.stInfo uacc.updatePkg.name)
    updateError := uacc.updateError
    retryCnt := uacc.retryCnt }

/-- Applying a written record stores everything, but its result is that of the last property,
the sequence number, which is not always there. -/
theorem updateSetCompContext_record (fresh : UaComponentContext) (ctrl₀ : Table CompCtrl) :
    updateSetCompContext fresh ctrl₀ (updateGetCompContextJo uacc ctrl) =
      match uacc.updatePkg.name.bind uacc.seqIn with
      | some num =>
          (eUaOk, { restored uacc ctrl fresh with
              seqIn := (handlerChkIncomingSeqOutdated fresh.seqIn
                (nullStr uacc.updatePkg.name) num).1 },
            compSetRbType ctrl₀ (recorded uacc.updatePkg.name)
              (compGetRbType ctrl uacc.updatePkg.name))
      | none =>
          (eUaErr, restored uacc ctrl fresh,
            compSetRbType ctrl₀ (recorded uacc.updatePkg.name)
              (compGetRbType ctrl uacc.updatePkg.name)) := by
  have hname : (updateSetPkgInfo (updateGetCompContextJo uacc ctrl) fresh.updatePkg).2.name =
      some (nullStr uacc.updatePkg.name) := by rw [updateSetPkgInfo_record]; rfl
  cases h : uacc.updatePkg.name.bind uacc.seqIn <;>
    simp [updateSetCompContext, getInt_sequence_record, h, hname, restored, recorded,
      getInt_record uacc ctrl "rb-type" (compGetRbType ctrl uacc.updatePkg.name).code,
      getInt_record uacc ctrl "update-state"
        (compGetUpdateStage uacc.stInfo uacc.updatePkg.name).code,
      getInt_record uacc ctrl "update-error" uacc.updateError.code,
      getInt_record uacc ctrl "update-retry-cnt" uacc.retryCnt.toInt64]

end ReadBack

/-- `json_tokener_parse_verbose`: a value, or nothing for a text that is no JSON value. -/
abbrev Tokener : Type := String → Option Json

/-- The record of a component, written as text, parsed and applied to the component as it is
registered after a restart, restores the installation in progress. -/
def RoundTrips (parse : Tokener) (uacc : UaComponentContext) (ctrl : Table CompCtrl)
    (fresh : UaComponentContext) (ctrl₀ : Table CompCtrl) : Prop :=
  ∃ jo, parse (updateGetCompContextJo uacc ctrl).text = some jo ∧
    match updateSetCompContext fresh ctrl₀ jo with
    | (err, uacc', ctrl') =>
      err = eUaOk ∧
      uacc'.updatePkg = uacc.updatePkg ∧
      uacc'.updateFileInfo.file = uacc.updateFileInfo.file ∧
      uacc'.updateFileInfo.version = uacc.updateFileInfo.version ∧
      uacc'.updateFileInfo.sha256b64 = uacc.updateFileInfo.sha256b64 ∧
      uacc'.updateFileInfo.downloaded = uacc.updateFileInfo.downloaded ∧
      uacc'.updateFileInfo.rollbackOrder = uacc.updateFileInfo.rollbackOrder ∧
      compGetRbType ctrl' uacc.updatePkg.name = compGetRbType ctrl uacc.updatePkg.name ∧
      compGetUpdateStage uacc'.stInfo uacc.updatePkg.name =
        compGetUpdateStage uacc.stInfo uacc.updatePkg.name ∧
      uacc'.updateError = uacc.updateError ∧
      uacc'.retryCnt = uacc.retryCnt ∧
      uacc.updatePkg.name.bind uacc'.seqIn = uacc.updatePkg.name.bind uacc.seqIn

/-- Every string of the context that the record keeps has its own text, and the package has
a sequence number. -/
def Recordable (uacc : UaComponentContext) : Prop :=
  (uacc.updatePkg.name.bind uacc.seqIn).isSome ∧
  uacc.updatePkg.rollbackVersion ≠ some "" ∧
  isSet uacc.updateFileInfo.file ∧
  isSet uacc.updateFileInfo.version ∧
  uacc.updateFileInfo.sha256b64.val ≠ ""

theorem recorded_eq_iff (s : Option String) : recorded s = s ↔ isSet s := by
  cases s with
  | none => simp [recorded, isSet]
  | some v => by_cases hv : v = "" <;> simp [recorded, isSet, nullStr, hv]

theorem copy_nullStr_eq_iff (sha : Sha256B64) :
    Sha256B64.copy (nullStr (some sha.val)) = sha ↔ sha.val ≠ "" := by
  by_cases hsha : sha.val = ""
  · have hcopy : (Sha256B64.copy "null").val = "null" := by decide
    simp only [nullStr, hsha, if_true, ne_eq, not_true_eq_false, iff_false]
    intro heq
    rw [← heq, hcopy] at hsha
    exact absurd hsha (by decide)
  · simp [nullStr, hsha]

theorem bind_recorded_eq_iff (s : Option String) :
    (s.bind fun v => recorded (some v)) = s ↔ s ≠ some "" := by
  cases s with
  | none => simp
  | some v => simpa [isSet] using recorded_eq_iff (some v)

theorem compGetRbType_set (ctrl : Table CompCtrl) (name : String) (rb : UpdateRollback) :
    compGetRbType (compSetRbType ctrl (some name) rb) (some name) = rb := by
  simp only [compSetRbType, compGetRbType, Option.bind_some]
  cases ctrl name <;> simp

/-- The record round trip succeeds exactly for the contexts whose strings are all present and
whose package has a sequence number. -/
theorem record_round_trip_iff (parse : Tokener) (uacc : UaComponentContext)
    (ctrl ctrl₀ : Table CompCtrl) (type : String) (uar : UaRoutine) (recordFile : Option String)
    (maxRetry : Int32) (htype : isSet uacc.updatePkg.type) (hname : isSet uacc.updatePkg.name)
    (hversion : isSet uacc.updatePkg.version)
    (hparse : parse (updateGetCompContextJo uacc ctrl).text =
      some (updateGetCompContextJo uacc ctrl)) :
    RoundTrips parse uacc ctrl (.registered type uar recordFile maxRetry) ctrl₀ ↔
      Recordable uacc := by
  have hrecordedName := (recorded_eq_iff _).mpr hname
  have hrecordedType := (recorded_eq_iff _).mpr htype
  have hrecordedVersion := (recorded_eq_iff _).mpr hversion
  obtain ⟨name, hsome⟩ : ∃ name, uacc.updatePkg.name = some name := by
    cases h : uacc.updatePkg.name with
    | none => simp [h, isSet] at hname
    | some name => exact ⟨name, rfl⟩
  have hnull : nullStr (some name) = name := Option.some.inj (hsome ▸ hrecordedName)
  have hrecorded : recorded (some name) = some name := congrArg some hnull
  have hpkg : ∀ fresh : UaComponentContext,
      (restored uacc ctrl fresh).updatePkg = uacc.updatePkg ↔
        uacc.updatePkg.rollbackVersion ≠ some "" := by
    intro fresh
    rw [restored, updateSetPkgInfo_record, hrecordedName, hrecordedType, hrecordedVersion,
      ← bind_recorded_eq_iff]
    exact ⟨congrArg PkgInfo.rollbackVersion, fun h => by rw [h]⟩
  simp only [RoundTrips, hparse, Option.some.injEq, exists_eq_left', Recordable,
    updateSetCompContext_record]
  cases hseq : uacc.updatePkg.name.bind uacc.seqIn with
  | none => simp
  | some num =>
      have hstage : compGetUpdateStage
          (compSetUpdateStage Table.empty (some name) (compGetUpdateStage uacc.stInfo (some name)))
          (some name) = compGetUpdateStage uacc.stInfo (some name) := by
        rw [compGetUpdateStage_set, if_pos rfl]
      have hfile := recorded_eq_iff uacc.updateFileInfo.file
      have hfileVersion := recorded_eq_iff uacc.updateFileInfo.version
      have hsha := copy_nullStr_eq_iff uacc.updateFileInfo.sha256b64
      simp only [hpkg]
      simp [restored, updateSetUpdateFileInfo_record, hfile, hfileVersion, hsha, hsome, hnull,
        hrecorded, compGetRbType_set, hstage, UaComponentContext.registered,
        handlerChkIncomingSeqOutdated, Table.empty]

/-- A component in the middle of an installation, with and without a sequence number. -/
def installing (seqIn : Table Int32) : UaComponentContext :=
  { UaComponentContext.registered "/ECU" ⟨true, false, false, true, false, false, false, false,
      false, false⟩ (some "/data/backup/update.rec") 0 with
    updatePkg := ⟨some "/ECU", some "pkg", some "2", some "1", some [.string "1"]⟩
    updateFileInfo := { PkgFile.zero with
      file := some "/file", version := some "1", sha256b64 := .copy "digest", downloaded := 1 }
    stInfo := compSetUpdateStage .empty (some "pkg") .readyUpdateStarted
    seqIn := seqIn
    retryCnt := 1 }

/-- The tokener on the text of one value. -/
def tokenerOf (jo : Json) : Tokener := fun text => if text = jo.text then some jo else none

theorem record_round_trip_iff_example :
    RoundTrips (tokenerOf (updateGetCompContextJo (installing (Table.empty.set "pkg" 5)) .empty))
        (installing (Table.empty.set "pkg" 5)) .empty
        (.registered "/ECU" (installing .empty).uar none 0) .empty ↔
      Recordable (installing (Table.empty.set "pkg" 5)) :=
  record_round_trip_iff _ _ _ _ _ _ _ _ rfl rfl rfl (by simp [tokenerOf])

/-- Without a sequence number the record is written, but it is not accepted when it is read. -/
theorem record_without_sequence_rejected :
    ∃ parse uacc ctrl ctrl₀ type uar recordFile maxRetry,
      isSet uacc.updatePkg.type ∧ isSet uacc.updatePkg.name ∧ isSet uacc.updatePkg.version ∧
      parse (updateGetCompContextJo uacc ctrl).text = some (updateGetCompContextJo uacc ctrl) ∧
      ¬RoundTrips parse uacc ctrl (.registered type uar recordFile maxRetry) ctrl₀ := by
  refine ⟨tokenerOf (updateGetCompContextJo (installing .empty) .empty), installing .empty,
    .empty, .empty, "/ECU", (installing .empty).uar, none, 0, rfl, rfl, rfl,
    by simp [tokenerOf], ?_⟩
  rintro ⟨jo, hjo, herr, -⟩
  simp only [tokenerOf, if_true, Option.some.injEq] at hjo
  subst hjo
  rw [getInt_sequence_record] at herr
  exact absurd herr (by decide)

end EsyncUa.Records
