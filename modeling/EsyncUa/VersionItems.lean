import EsyncUa.PropertyLookups

/-!
The version item of a start-download message (`get_pkg_version_item_from_json` in `utils.c`).
The loop over the downloadables writes the same fields for every element; a value of another type
leaves what an earlier element has stored, and the guard against an empty array never holds.
-/
namespace EsyncUa.VersionItems

open JsonProperties PropertyLookups

structure ViDownloadable where
  sha256 : Option String
  length : UInt64
  url : Option String
  againstSha256 : Option String
  deriving DecidableEq

structure ViEncryption where
  method : Option String
  key : Option String
  deriving DecidableEq

structure VersionItem where
  downloaded : Bool
  sha256 : Option String
  downloadable : ViDownloadable
  encryption : ViEncryption
  deriving DecidableEq

def VersionItem.setAgainst (vi : VersionItem) (againstSha256 : Option String) : VersionItem :=
  { vi with downloadable := { vi.downloadable with againstSha256 } }

/-- A lookup into a field: the result, and the item with the field written. -/
abbrev Lookup : Type := VersionItem → Rc × VersionItem

/-- Lookups one after the other; the first that fails ends them. -/
def inTurn : List Lookup → Lookup
  | [], vi => (eUaOk, vi)
  | lookup :: rest, vi =>
      match lookup vi with
      | (err, vi) => if err = eUaOk then inTurn rest vi else (eUaErr, vi)

/-- The names that lead to a property of the version. -/
def versionPath (version : String) (rest : List String) : List String :=
  ["body", "package", "version-list", version] ++ rest

/-- A lookup into a `char*` of the item. -/
def stringProperty (json : Json) (path : List String) (field : VersionItem → Option String)
    (store : VersionItem → Option String → VersionItem) : Lookup := fun vi =>
  match getString json (path.map some) (field vi) with
  | (err, value) => (err, store vi value)

section Lookups

variable (jsonObj : Json) (version : String) (jdl : Json)

def getSha256 : Lookup :=
  stringProperty jsonObj (versionPath version ["sha-256"]) (·.sha256)
    fun vi sha256 => { vi with sha256 }

def getDownloaded : Lookup := fun vi =>
  match getBool jsonObj ((versionPath version ["downloaded"]).map some) with
  | (err, downloaded) => (err, { vi with downloaded := downloaded.getD vi.downloaded })

def getDownloadableSha256 : Lookup :=
  stringProperty jdl ["sha-256"] (·.downloadable.sha256)
    fun vi sha256 => { vi with downloadable := { vi.downloadable with sha256 } }

/-- The number is stored through an `int64_t*`. -/
def getDownloadableLength : Lookup := fun vi =>
  match getInt jdl (["length"].map some) vi.downloadable.length.toInt64 with
  | (err, length) =>
      (err, { vi with downloadable := { vi.downloadable with length := length.toUInt64 } })

def getDownloadableUrl : Lookup :=
  stringProperty jdl ["url"] (·.downloadable.url)
    fun vi url => { vi with downloadable := { vi.downloadable with url } }

def getEncryptionMethod : Lookup :=
  stringProperty jsonObj (versionPath version ["encryption", "method"]) (·.encryption.method)
    fun vi method => { vi with encryption := { vi.encryption with method } }

def getEncryptionKey : Lookup :=
  stringProperty jsonObj (versionPath version ["encryption", "key"]) (·.encryption.key)
    fun vi key => { vi with encryption := { vi.encryption with key } }

def getAgainstSha256 : Lookup :=
  stringProperty jdl ["against-sha-256"] (·.downloadable.againstSha256) VersionItem.setAgainst

/-- The lookups of one pass of the loop that end the function when they fail. -/
def elementLookups : List Lookup :=
  [getDownloadableSha256 jdl, getDownloadableLength jdl, getDownloadableUrl jdl,
    getEncryptionMethod jsonObj version, getEncryptionKey jsonObj version]

end Lookups

/-- The loop over the downloadables; the URL of a delta ends it. -/
def readDownloadables (jsonObj : Json) (version : String) : List Json → Lookup
  | [], vi => (eUaOk, vi)
  | jdl :: rest, vi =>
      match inTurn (elementLookups jsonObj version jdl) vi with
      | (err, vi) =>
          if err = eUaOk then
            match getAgainstSha256 jdl vi with
            | (err, vi) =>
                if err = eUaOk then (eUaOk, vi) else readDownloadables jsonObj version rest vi
          else (err, vi)

/-- `json_object_array_length`, which asserts that it is given an array. -/
def jsonObjectArrayLength (jsonArr : Option (List Json)) : Option Nat := jsonArr.map List.length

/-- The part of the function behind the first two lookups. -/
def getDownloadables (jsonObj : Json) (version : String) (vi : VersionItem) :
    Option (Rc × VersionItem) := do
  let jdlArr := (getArray jsonObj ((versionPath version ["downloadables"]).map some) none).2
  let jdlArrNum ← jsonObjectArrayLength jdlArr
  if jdlArr.isNone ∧ ¬jdlArr.isSome ∧ jdlArrNum < 1 then pure (eUaErr, vi)
  else pure (readDownloadables jsonObj version (jdlArr.getD []) vi)

/-- `get_pkg_version_item_from_json`; `none` is a failed assertion. -/
def getPkgVersionItemFromJson (jsonObj : Option Json) (version : Option String)
    (vi : VersionItem) : Option (Rc × VersionItem) :=
  match jsonObj, version with
  | some jsonObj, some version =>
      match inTurn [getSha256 jsonObj version, getDownloaded jsonObj version] vi with
      | (err, vi) =>
          if err = eUaOk then getDownloadables jsonObj version vi else some (eUaErr, vi)
  | _, _ => some (eUaErr, vi)

/-- The element is the URL of a delta. -/
def hasAgainst (jdl : Json) : Bool := (jdl.field? "against-sha-256").isSome

/-- The element that a version item is made from. -/
def chosen (items : List Json) : Option Json := (items.find? hasAgainst).or items.getLast?

/-- The elements up to the one that ends the loop. -/
def visited : List Json → List Json
  | [] => []
  | jdl :: rest => if hasAgainst jdl then [jdl] else jdl :: visited rest

theorem chosen_of_against {jdl : Json} (rest : List Json) (h : hasAgainst jdl = true) :
    chosen (jdl :: rest) = some jdl := by
  rw [chosen, List.find?_cons_of_pos h]
  rfl

theorem chosen_singleton (jdl : Json) : chosen [jdl] = some jdl := by
  unfold chosen
  cases h : hasAgainst jdl <;> simp [h]

theorem chosen_cons {jdl : Json} (next : Json) (rest : List Json) (h : hasAgainst jdl = false) :
    chosen (jdl :: next :: rest) = chosen (next :: rest) := by
  unfold chosen
  rw [List.find?_cons_of_neg (by simp [h]), List.getLast?_cons_cons]

/-- The values of the properties, each of its type. -/
structure Element (jdl : Json) (sha256 : String) (length : Int64) (url : String) : Prop where
  sha256 : jdl.field? "sha-256" = some (.string sha256)
  length : jdl.field? "length" = some (.int length)
  url : jdl.field? "url" = some (.string url)

/-- The stored digest, length and URL are those of the element. -/
def FromElement (jdl : Json) (downloadable : ViDownloadable) : Prop :=
  ∃ sha256 length url, Element jdl sha256 length url ∧ downloadable.sha256 = some sha256 ∧
    downloadable.length = length.toUInt64 ∧ downloadable.url = some url

/-- Accepted with the digest, the length and the URL of the element that the message is for. -/
def Delivers (jsonObj : Option Json) (version : Option String) (vi : VersionItem) : Prop :=
  ∀ vi', getPkgVersionItemFromJson jsonObj version vi = some (eUaOk, vi') →
    ∃ doc ver items jdl, jsonObj = some doc ∧ version = some ver ∧
      follow doc (versionPath ver ["downloadables"]) = some (.array items) ∧ items ≠ [] ∧
      chosen items = some jdl ∧ FromElement jdl vi'.downloadable

/-- The properties that the loop looks for, of any type. -/
structure Complete (doc : Json) (version : String) (jdl : Json) : Prop where
  sha256 : (jdl.field? "sha-256").isSome
  length : (jdl.field? "length").isSome
  url : (jdl.field? "url").isSome
  method : (follow doc (versionPath version ["encryption", "method"])).isSome
  key : (follow doc (versionPath version ["encryption", "key"])).isSome

/-- A message in which the function finds every property that it looks for. -/
structure Accepted (doc : Json) (version : String) (items : List Json) : Prop where
  sha256 : (follow doc (versionPath version ["sha-256"])).isSome
  downloaded : (follow doc (versionPath version ["downloaded"])).isSome
  downloadables : follow doc (versionPath version ["downloadables"]) = some (.array items)
  complete : ∀ jdl ∈ visited items, Complete doc version jdl

theorem inTurn_cons_ok_iff (lookup : Lookup) (rest : List Lookup) (vi vi' : VersionItem) :
    inTurn (lookup :: rest) vi = (eUaOk, vi') ↔
      ∃ next, lookup vi = (eUaOk, next) ∧ inTurn rest next = (eUaOk, vi') := by
  rw [inTurn]
  rcases lookup vi with ⟨err, next⟩
  by_cases herr : err = eUaOk
  · simp [herr]
  · simp [herr]

theorem inTurn_nil_ok_iff (vi vi' : VersionItem) : inTurn [] vi = (eUaOk, vi') ↔ vi' = vi := by
  simp [inTurn, eq_comm]

theorem versionPath_ne_nil (version : String) (rest : List String) :
    versionPath version rest ≠ [] := List.cons_ne_nil _ _

theorem follow_singleton (json : Json) (node : String) :
    follow json [node] = json.field? node := by
  simp [follow]

section Lookups

variable (doc : Json) (version : String) (jdl : Json) (vi vi' : VersionItem)

theorem stringProperty_ok_iff (json : Json) (path : List String) (hpath : path ≠ [])
    (field : VersionItem → Option String) (store : VersionItem → Option String → VersionItem) :
    stringProperty json path field store vi = (eUaOk, vi') ↔
      ∃ v, follow json path = some v ∧ vi' = store vi (v.string? <|> field vi) := by
  unfold stringProperty
  have hiff := @getString_ok_iff json path (field vi)
  rcases h : getString json (path.map some) (field vi) with ⟨err, value⟩
  simp only [h, Prod.mk.injEq] at hiff ⊢
  constructor
  · rintro ⟨rfl, rfl⟩
    obtain ⟨v, hv, rfl⟩ := (hiff value hpath).mp ⟨rfl, rfl⟩
    exact ⟨v, hv, rfl⟩
  · rintro ⟨v, hv, rfl⟩
    obtain ⟨herr, hvalue⟩ := (hiff _ hpath).mpr ⟨v, hv, rfl⟩
    exact ⟨herr, by rw [hvalue]⟩

theorem getDownloadableLength_ok_iff : getDownloadableLength jdl vi = (eUaOk, vi') ↔
    ∃ v, follow jdl ["length"] = some v ∧ vi' = { vi with downloadable := { vi.downloadable with
      length := (v.int?.getD vi.downloadable.length.toInt64).toUInt64 } } := by
  unfold getDownloadableLength
  have hiff := @getInt_ok_iff jdl ["length"] vi.downloadable.length.toInt64
  rcases h : getInt jdl (["length"].map some) vi.downloadable.length.toInt64 with ⟨err, value⟩
  simp only [h, Prod.mk.injEq] at hiff ⊢
  constructor
  · rintro ⟨rfl, rfl⟩
    obtain ⟨v, hv, rfl⟩ := (hiff value (by simp)).mp ⟨rfl, rfl⟩
    exact ⟨v, hv, rfl⟩
  · rintro ⟨v, hv, rfl⟩
    obtain ⟨herr, hvalue⟩ := (hiff _ (by simp)).mpr ⟨v, hv, rfl⟩
    exact ⟨herr, by rw [hvalue]⟩

/-- A pass of the loop that finds everything, and what it stores. -/
theorem elementLookups_ok_iff :
    inTurn (elementLookups doc version jdl) vi = (eUaOk, vi') ↔
      ∃ sha256 length url method key,
        jdl.field? "sha-256" = some sha256 ∧ jdl.field? "length" = some length ∧
        jdl.field? "url" = some url ∧
        follow doc (versionPath version ["encryption", "method"]) = some method ∧
        follow doc (versionPath version ["encryption", "key"]) = some key ∧
        vi' = { vi with
          downloadable := { vi.downloadable with
            sha256 := sha256.string? <|> vi.downloadable.sha256
            length := (length.int?.getD vi.downloadable.length.toInt64).toUInt64
            url := url.string? <|> vi.downloadable.url }
          encryption := ⟨method.string? <|> vi.encryption.method,
            key.string? <|> vi.encryption.key⟩ } := by
  simp only [elementLookups, inTurn_cons_ok_iff, inTurn_nil_ok_iff, getDownloadableSha256,
    getDownloadableUrl, getEncryptionMethod, getEncryptionKey, getDownloadableLength_ok_iff,
    stringProperty_ok_iff _ _ _ _ (List.cons_ne_nil _ _),
    stringProperty_ok_iff _ _ _ _ (versionPath_ne_nil _ _), follow_singleton]
  constructor
  · rintro ⟨_, ⟨sha256, hsha256, rfl⟩, _, ⟨length, hlength, rfl⟩, _, ⟨url, hurl, rfl⟩, _,
      ⟨method, hmethod, rfl⟩, _, ⟨key, hkey, rfl⟩, rfl⟩
    exact ⟨sha256, length, url, method, key, hsha256, hlength, hurl, hmethod, hkey, rfl⟩
  · rintro ⟨sha256, length, url, method, key, hsha256, hlength, hurl, hmethod, hkey, rfl⟩
    exact ⟨_, ⟨sha256, hsha256, rfl⟩, _, ⟨length, hlength, rfl⟩, _, ⟨url, hurl, rfl⟩, _,
      ⟨method, hmethod, rfl⟩, _, ⟨key, hkey, rfl⟩, rfl⟩

/-- The last lookup of a pass ends the loop where the element is the URL of a delta. -/
theorem getAgainstSha256_eq :
    ∃ againstSha256, getAgainstSha256 jdl vi =
      (if hasAgainst jdl then eUaOk else eUaErr, vi.setAgainst againstSha256) := by
  unfold getAgainstSha256 stringProperty hasAgainst
  rw [← follow_singleton]
  cases h : follow jdl ["against-sha-256"] with
  | none =>
    rw [getString_absent _ h]
    exact ⟨_, rfl⟩
  | some v =>
    rw [getString_present _ (List.cons_ne_nil _ _) h]
    exact ⟨_, rfl⟩

end Lookups

/-- One pass of the loop: everything is found, and the loop ends or goes on. -/
theorem readDownloadables_cons (doc : Json) (version : String) (jdl : Json) (rest : List Json)
    (vi : VersionItem) :
    ∃ againstSha256 : VersionItem → Option String,
      ∀ vi', readDownloadables doc version (jdl :: rest) vi = (eUaOk, vi') ↔
        ∃ next, inTurn (elementLookups doc version jdl) vi = (eUaOk, next) ∧
          if hasAgainst jdl then vi' = next.setAgainst (againstSha256 next)
          else readDownloadables doc version rest (next.setAgainst (againstSha256 next)) =
            (eUaOk, vi') := by
  choose againstSha256 hagainst using getAgainstSha256_eq jdl
  refine ⟨againstSha256, fun vi' => ?_⟩
  rw [readDownloadables]
  rcases hpass : inTurn (elementLookups doc version jdl) vi with ⟨err, next⟩
  by_cases herr : err = eUaOk
  · subst herr
    simp only [if_true, hagainst, Prod.mk.injEq, true_and, exists_eq_left']
    by_cases hdelta : hasAgainst jdl = true
    · simp [hdelta, eq_comm]
    · simp [hdelta]
  · simp [herr]

theorem elementLookups_isOk_iff (doc : Json) (version : String) (jdl : Json) (vi : VersionItem) :
    (∃ next, inTurn (elementLookups doc version jdl) vi = (eUaOk, next)) ↔
      Complete doc version jdl := by
  simp only [elementLookups_ok_iff]
  constructor
  · rintro ⟨_, sha256, length, url, method, key, hsha256, hlength, hurl, hmethod, hkey, -⟩
    exact ⟨Option.isSome_of_eq_some hsha256, Option.isSome_of_eq_some hlength,
      Option.isSome_of_eq_some hurl, Option.isSome_of_eq_some hmethod,
      Option.isSome_of_eq_some hkey⟩
  · intro h
    obtain ⟨sha256, hsha256⟩ := Option.isSome_iff_exists.mp h.sha256
    obtain ⟨length, hlength⟩ := Option.isSome_iff_exists.mp h.length
    obtain ⟨url, hurl⟩ := Option.isSome_iff_exists.mp h.url
    obtain ⟨method, hmethod⟩ := Option.isSome_iff_exists.mp h.method
    obtain ⟨key, hkey⟩ := Option.isSome_iff_exists.mp h.key
    exact ⟨_, sha256, length, url, method, key, hsha256, hlength, hurl, hmethod, hkey, rfl⟩

/-- The loop succeeds exactly when every visited element has its properties. -/
theorem readDownloadables_isOk_iff (doc : Json) (version : String) (items : List Json)
    (vi : VersionItem) :
    (∃ vi', readDownloadables doc version items vi = (eUaOk, vi')) ↔
      ∀ jdl ∈ visited items, Complete doc version jdl := by
  induction items generalizing vi with
  | nil => simp [readDownloadables, visited]
  | cons jdl rest ih =>
    obtain ⟨againstSha256, hpass⟩ := readDownloadables_cons doc version jdl rest vi
    simp only [hpass]
    by_cases hdelta : hasAgainst jdl = true
    · simp only [hdelta, if_true, visited, List.forall_mem_singleton]
      rw [← elementLookups_isOk_iff doc version jdl vi, exists_comm]
      simp
    · simp only [hdelta, Bool.false_eq_true, if_false, visited, List.forall_mem_cons]
      rw [← elementLookups_isOk_iff doc version jdl vi]
      constructor
      · rintro ⟨vi', next, hnext, hrest⟩
        exact ⟨⟨next, hnext⟩, (ih _).mp ⟨vi', hrest⟩⟩
      · rintro ⟨⟨next, hnext⟩, hrest⟩
        obtain ⟨vi', hvi'⟩ := (ih _).mpr hrest
        exact ⟨vi', next, hnext, hvi'⟩

/-- What a pass stores comes from its element, if the values have their types. -/
theorem elementLookups_stored {doc : Json} {version : String} {jdl : Json} {vi next : VersionItem}
    {sha256 : String} {length : Int64} {url : String}
    (h : inTurn (elementLookups doc version jdl) vi = (eUaOk, next))
    (helement : Element jdl sha256 length url) (againstSha256 : Option String) :
    FromElement jdl (next.setAgainst againstSha256).downloadable := by
  obtain ⟨_, _, _, _, _, hsha256, hlength, hurl, -, -, rfl⟩ :=
    (elementLookups_ok_iff _ _ _ _ _).mp h
  obtain rfl := Option.some.inj (helement.sha256.symm.trans hsha256)
  obtain rfl := Option.some.inj (helement.length.symm.trans hlength)
  obtain rfl := Option.some.inj (helement.url.symm.trans hurl)
  exact ⟨sha256, length, url, helement, rfl, rfl, rfl⟩

/-- The chosen element is the last one that the loop reads. -/
theorem readDownloadables_stored {doc : Json} {version : String} {items : List Json}
    {vi vi' : VersionItem} {jdl : Json} {sha256 : String} {length : Int64} {url : String}
    (h : readDownloadables doc version items vi = (eUaOk, vi')) (hjdl : chosen items = some jdl)
    (helement : Element jdl sha256 length url) : FromElement jdl vi'.downloadable := by
  induction items generalizing vi with
  | nil => cases hjdl
  | cons first rest ih =>
    obtain ⟨againstSha256, hpass⟩ := readDownloadables_cons doc version first rest vi
    obtain ⟨next, hnext, hend⟩ := (hpass vi').mp h
    by_cases hdelta : hasAgainst first = true
    · rw [if_pos hdelta] at hend
      obtain rfl := Option.some.inj ((chosen_of_against rest hdelta).symm.trans hjdl)
      rw [hend]
      exact elementLookups_stored hnext helement _
    · rw [if_neg hdelta] at hend
      cases rest with
      | nil =>
        obtain rfl := Option.some.inj ((chosen_singleton first).symm.trans hjdl)
        obtain rfl := (Prod.mk.inj hend).2
        exact elementLookups_stored hnext helement _
      | cons second rest =>
        rw [chosen_cons second rest (by simpa using hdelta)] at hjdl
        exact ih hend hjdl

/-- The function succeeds exactly on the messages that it finds every property in. -/
theorem getPkgVersionItemFromJson_ok_iff (doc : Json) (version : String) (vi vi' : VersionItem) :
    getPkgVersionItemFromJson (some doc) (some version) vi = some (eUaOk, vi') ↔
      ∃ next items, inTurn [getSha256 doc version, getDownloaded doc version] vi = (eUaOk, next) ∧
        follow doc (versionPath version ["downloadables"]) = some (.array items) ∧
        readDownloadables doc version items next = (eUaOk, vi') := by
  rw [getPkgVersionItemFromJson]
  rcases hfirst : inTurn [getSha256 doc version, getDownloaded doc version] vi with ⟨err, next⟩
  by_cases herr : err = eUaOk
  · subst herr
    simp only [if_true, Prod.mk.injEq, true_and, exists_and_left, exists_eq_left']
    unfold getDownloadables
    cases hdownloadables : follow doc (versionPath version ["downloadables"]) with
    | none =>
      rw [getArray_absent _ hdownloadables]
      simp [jsonObjectArrayLength]
    | some v =>
      rw [getArray_present _ (versionPath_ne_nil _ _) hdownloadables]
      cases v <;> simp [jsonObjectArrayLength, Json.array?]
  · simp [herr]

theorem first_lookups_isOk_iff (doc : Json) (version : String) (vi : VersionItem) :
    (∃ next, inTurn [getSha256 doc version, getDownloaded doc version] vi = (eUaOk, next)) ↔
      (follow doc (versionPath version ["sha-256"])).isSome ∧
        (follow doc (versionPath version ["downloaded"])).isSome := by
  have hdownloaded (next : VersionItem) : (∃ last, getDownloaded doc version next = (eUaOk, last)) ↔
      (follow doc (versionPath version ["downloaded"])).isSome := by
    rw [← getBool_ok_iff]
    unfold getDownloaded
    rcases getBool doc ((versionPath version ["downloaded"]).map some) with ⟨err, value⟩
    simp
  simp only [inTurn_cons_ok_iff, inTurn_nil_ok_iff, getSha256,
    stringProperty_ok_iff _ _ _ _ (versionPath_ne_nil _ _)]
  constructor
  · rintro ⟨_, first, ⟨v, hv, -⟩, second, hsecond, -⟩
    exact ⟨Option.isSome_of_eq_some hv, (hdownloaded first).mp ⟨second, hsecond⟩⟩
  · rintro ⟨hsha256, hpresent⟩
    obtain ⟨v, hv⟩ := Option.isSome_iff_exists.mp hsha256
    obtain ⟨last, hlast⟩ := (hdownloaded _).mpr hpresent
    exact ⟨last, _, ⟨v, hv, rfl⟩, last, hlast, rfl⟩

/-- An accepted message, on the properties of the message. -/
theorem accepted_iff (doc : Json) (version : String) (vi : VersionItem) :
    (∃ vi', getPkgVersionItemFromJson (some doc) (some version) vi = some (eUaOk, vi')) ↔
      ∃ items, Accepted doc version items := by
  simp only [getPkgVersionItemFromJson_ok_iff]
  constructor
  · rintro ⟨vi', next, items, hnext, hitems, hread⟩
    obtain ⟨hsha256, hdownloaded⟩ := (first_lookups_isOk_iff doc version vi).mp ⟨next, hnext⟩
    exact ⟨items, hsha256, hdownloaded, hitems,
      (readDownloadables_isOk_iff doc version items next).mp ⟨vi', hread⟩⟩
  · rintro ⟨items, h⟩
    obtain ⟨next, hnext⟩ := (first_lookups_isOk_iff doc version vi).mpr ⟨h.sha256, h.downloaded⟩
    obtain ⟨vi', hread⟩ := (readDownloadables_isOk_iff doc version items next).mpr h.complete
    exact ⟨vi', next, items, hnext, h.downloadables, hread⟩

/-- The array is not empty, and the values of the element it is read for have their types. -/
def Sound (items : List Json) : Prop :=
  ∃ jdl sha256 length url, chosen items = some jdl ∧ Element jdl sha256 length url

theorem Sound.ne_nil {items : List Json} (h : Sound items) : items ≠ [] := by
  rintro rfl
  obtain ⟨jdl, -, -, -, hjdl, -⟩ := h
  cases hjdl

/-- The function keeps its promise exactly on the messages that it does not accept and on those
whose chosen element is there and well typed. -/
theorem delivers_iff (jsonObj : Option Json) (version : Option String) (vi : VersionItem) :
    Delivers jsonObj version vi ↔
      ∀ doc ver items, jsonObj = some doc → version = some ver → Accepted doc ver items →
        Sound items := by
  constructor
  · rintro h doc ver items rfl rfl haccepted
    obtain ⟨vi', hvi'⟩ := (accepted_iff doc ver vi).mpr ⟨items, haccepted⟩
    obtain ⟨doc', ver', items', jdl, hdoc, hver, hitems, -, hjdl, hfrom⟩ := h vi' hvi'
    obtain rfl := Option.some.inj hdoc
    obtain rfl := Option.some.inj hver
    obtain rfl := Json.array.inj (Option.some.inj (haccepted.downloadables.symm.trans hitems))
    obtain ⟨sha256, length, url, helement, -⟩ := hfrom
    exact ⟨jdl, sha256, length, url, hjdl, helement⟩
  · intro h vi' hvi'
    cases jsonObj with
    | none => simp [getPkgVersionItemFromJson] at hvi'
    | some doc =>
      cases version with
      | none => simp [getPkgVersionItemFromJson] at hvi'
      | some ver =>
        obtain ⟨items, haccepted⟩ := (accepted_iff doc ver vi).mp ⟨vi', hvi'⟩
        obtain ⟨jdl, sha256, length, url, hjdl, helement⟩ := h doc ver items rfl rfl haccepted
        obtain ⟨next, items', -, hitems, hread⟩ :=
          (getPkgVersionItemFromJson_ok_iff doc ver vi vi').mp hvi'
        obtain rfl := Json.array.inj (Option.some.inj (haccepted.downloadables.symm.trans hitems))
        exact ⟨doc, ver, items, jdl, rfl, rfl, haccepted.downloadables,
          (h doc ver items rfl rfl haccepted).ne_nil, hjdl,
          readDownloadables_stored hread hjdl helement⟩

/-- A version without downloadables. -/
def emptyDownloadables : Json :=
  .object [("body", .object [("package", .object [("version-list", .object
    [("1", .object [("sha-256", .string "digest"), ("downloaded", .bool false),
      ("downloadables", .array [])])])])])]

def noVersionItem : VersionItem := ⟨false, none, ⟨none, 0, none, none⟩, ⟨none, none⟩⟩

/-- An empty array is accepted, and nothing is stored. -/
theorem empty_downloadables_accepted :
    ¬Delivers (some emptyDownloadables) (some "1") noVersionItem := by
  intro h
  obtain ⟨doc, ver, items, jdl, hdoc, hver, hitems, hne, -⟩ :=
    h { noVersionItem with sha256 := some "digest" } (by decide)
  obtain rfl := Option.some.inj hdoc
  obtain rfl := Option.some.inj hver
  exact hne (Json.array.inj (Option.some.inj hitems)).symm

end EsyncUa.VersionItems
