import EsyncUa.JsonProperties
import Mathlib.Data.List.Infix

/-!
The contract of `json_get_property`: a property is found where the names lead through nested
objects to a value of the requested type. A value of another type there is no error to the code,
and an output for a scalar keeps what was found on the way.
-/
namespace EsyncUa.PropertyLookups

open EsyncUa.JsonProperties

/-- The value that the names lead to, one object inside the other. -/
def follow : Json → List String → Option Json
  | json, [] => some json
  | json, node :: names => (json.field? node).bind fun aux => follow aux names

/-- The names of an argument list, which ends at the first NULL. -/
def names : List (Option String) → List String
  | some node :: path => node :: names path
  | _ => []

/-- The outputs that an error sets to NULL. -/
def cleared : JsonType → Bool
  | .string | .object | .array => true
  | .boolean | .int => false

/-- json_get_property with the output before the call and after it; NULL is no value. -/
def getProperty (typ : JsonType) (json : Json) (path : List (Option String))
    (old : Option Json) : Rc × Option Json :=
  match jsonGetProperty typ json path old with
  | (err, value) => if err ≠ eUaOk ∧ cleared typ = true then (err, none) else (err, value)

attribute [local simp] jsonGetProperty names follow

theorem jsonGetProperty_names (typ : JsonType) (json : Json) (path : List (Option String))
    (value : Option Json) :
    jsonGetProperty typ json path value =
      jsonGetProperty typ json ((names path).map some) value := by
  induction path generalizing json value with
  | nil => rfl
  | cons node path ih =>
      cases node with
      | none => rfl
      | some node =>
          simp only [names, List.map_cons, jsonGetProperty]
          cases json.field? node with
          | none => rfl
          | some aux => exact ih aux _

/-- The walk fails exactly where the names lead nowhere. -/
theorem jsonGetProperty_err (typ : JsonType) (json : Json) (path : List String)
    (value : Option Json) :
    (jsonGetProperty typ json (path.map some) value).1 =
      (follow json path).elim eUaErr fun _ => eUaOk := by
  induction path generalizing json value with
  | nil => simp [jsonGetProperty, follow]
  | cons node path ih =>
      simp only [List.map_cons, jsonGetProperty, follow]
      cases json.field? node with
      | none => rfl
      | some aux => exact ih aux _

/-- The walk goes on from where the first names lead, with what it has stored on the way. -/
theorem jsonGetProperty_append (typ : JsonType) {json v : Json} {front : List String}
    (rest : List String) (value : Option Json) (h : follow json front = some v) :
    jsonGetProperty typ json ((front ++ rest).map some) value =
      jsonGetProperty typ v (rest.map some)
        (jsonGetProperty typ json (front.map some) value).2 := by
  induction front generalizing json value with
  | nil =>
      cases h
      simp [jsonGetProperty]
  | cons node front ih =>
      simp only [List.cons_append, List.map_cons, jsonGetProperty]
      rw [follow, Option.bind_eq_some_iff] at h
      obtain ⟨aux, haux, hv⟩ := h
      simp only [haux]
      exact ih _ hv

/-- A value of the requested type at the end of the names is what the walk has stored. -/
theorem jsonGetProperty_stored {typ : JsonType} {json v : Json} {path : List String}
    (value : Option Json) (hpath : path ≠ []) (h : follow json path = some v)
    (htyp : v.isType typ = true) :
    (jsonGetProperty typ json (path.map some) value).2 = some v := by
  induction path generalizing json value with
  | nil => exact absurd rfl hpath
  | cons node path ih =>
      simp only [List.map_cons, jsonGetProperty]
      rw [follow, Option.bind_eq_some_iff] at h
      obtain ⟨aux, haux, hv⟩ := h
      simp only [haux]
      cases path with
      | nil =>
          cases hv
          simp [jsonGetProperty, htyp]
      | cons node' path => exact ih _ (List.cons_ne_nil _ _) hv

/-- The walk keeps the output when no value on the way has the requested type. -/
theorem jsonGetProperty_kept {typ : JsonType} {json : Json} {path : List String}
    (value : Option Json)
    (h : ∀ front, front <+: path → front ≠ [] → ∀ v, follow json front = some v →
      v.isType typ = false) :
    (jsonGetProperty typ json (path.map some) value).2 = value := by
  induction path generalizing json value with
  | nil => simp [jsonGetProperty]
  | cons node path ih =>
      simp only [List.map_cons, jsonGetProperty]
      cases haux : json.field? node with
      | none => rfl
      | some aux =>
          have hfirst : aux.isType typ = false :=
            h [node] (by simp) (List.cons_ne_nil _ _) aux (by simp [follow, haux])
          simp only [hfirst, Bool.false_eq_true, if_false]
          apply ih
          intro front hfront hne v hv
          apply h (node :: front) (by simpa using hfront) (List.cons_ne_nil _ _) v
          rw [follow, haux]
          exact hv

/-- A scalar has no properties. -/
theorem field?_scalar {typ : JsonType} (hscalar : cleared typ = false) {v : Json}
    (htyp : v.isType typ = true) (node : String) : v.field? node = none := by
  cases typ with
  | string => cases hscalar
  | object => cases hscalar
  | array => cases hscalar
  | boolean =>
      cases v with
      | bool b => rfl
      | _ => cases htyp
  | int =>
      cases v with
      | int n => rfl
      | _ => cases htyp

/-- A scalar met on the way stays in the output, wherever the walk ends. -/
theorem jsonGetProperty_scalar {typ : JsonType} (hscalar : cleared typ = false) {json v : Json}
    {front path : List String} (value : Option Json) (hfront : front <+: path)
    (hne : front ≠ []) (h : follow json front = some v) (htyp : v.isType typ = true) :
    (jsonGetProperty typ json (path.map some) value).2 = some v := by
  obtain ⟨rest, rfl⟩ := hfront
  rw [jsonGetProperty_append typ rest value h, jsonGetProperty_stored value hne h htyp]
  cases rest with
  | nil => rfl
  | cons node rest => simp [jsonGetProperty, field?_scalar hscalar htyp]

/-- What json_get_property is for: success means that the names lead to a value of the type,
and the output holds this value; a failure clears the output or leaves it alone. -/
structure Contract (typ : JsonType) (json : Json) (path : List String) (old : Option Json)
    (result : Rc × Option Json) : Prop where
  ok_iff : result.1 = eUaOk ↔ ∃ v, follow json path = some v ∧ v.isType typ = true
  found : ∀ v, follow json path = some v → v.isType typ = true → result.2 = some v
  failed : (¬ ∃ v, follow json path = some v ∧ v.isType typ = true) →
    result.2 = if cleared typ = true then none else old

/-- The value at the end of the names has the requested type, or the names lead nowhere and
pass no scalar of this type that the output does not hold already. -/
def Suits (typ : JsonType) (json : Json) (path : List String) (old : Option Json) : Prop :=
  match follow json path with
  | some v => v.isType typ = true ∧ (path = [] → old = some v)
  | none => cleared typ = false →
      ∀ front, front <+: path → front ≠ [] → ∀ v, follow json front = some v →
        v.isType typ = true → old = some v

/-- The error says whether the names lead to a value. -/
theorem getProperty_eq (typ : JsonType) (json : Json) (path : List (Option String))
    (old : Option Json) (err : Rc)
    (herr : (follow json (names path)).elim eUaErr (fun _ => eUaOk) = err) :
    getProperty typ json path old = (err, if err ≠ eUaOk ∧ cleared typ = true then none
      else (jsonGetProperty typ json ((names path).map some) old).2) := by
  rw [← jsonGetProperty_err typ json (names path) old] at herr
  rw [getProperty, jsonGetProperty_names, ← herr]
  simp only
  split
  · rfl
  · rfl

theorem getProperty_found {typ : JsonType} {json v : Json} {path : List (Option String)}
    (old : Option Json) (h : follow json (names path) = some v) :
    getProperty typ json path old =
      (eUaOk, (jsonGetProperty typ json ((names path).map some) old).2) := by
  rw [getProperty_eq typ json path old eUaOk (by rw [h, Option.elim_some]),
    if_neg fun herr => herr.1 rfl]

theorem getProperty_absent {typ : JsonType} {json : Json} {path : List (Option String)}
    (old : Option Json) (h : follow json (names path) = none) :
    getProperty typ json path old = (eUaErr, if cleared typ = true then none
      else (jsonGetProperty typ json ((names path).map some) old).2) := by
  rw [getProperty_eq typ json path old eUaErr (by rw [h, Option.elim_none])]
  simp only [ne_eq, eUaErr_ne_ok, not_false_eq_true, true_and]

/-- The lookup keeps its contract exactly on the suitable documents. -/
theorem contract_iff (typ : JsonType) (json : Json) (path : List (Option String))
    (old : Option Json) :
    Contract typ json (names path) old (getProperty typ json path old) ↔
      Suits typ json (names path) old := by
  unfold Suits
  cases hv : follow json (names path) with
  | some v =>
      rw [getProperty_found old hv]
      constructor
      · intro h
        obtain ⟨v', hv', htyp⟩ := h.ok_iff.mp rfl
        rw [hv, Option.some.injEq] at hv'
        subst hv'
        refine ⟨htyp, fun hnil => ?_⟩
        have hfound := h.found v hv htyp
        simpa [hnil, jsonGetProperty] using hfound
      · rintro ⟨htyp, hold⟩
        have hstored : (jsonGetProperty typ json ((names path).map some) old).2 = some v := by
          by_cases hnil : names path = []
          · simpa [hnil, jsonGetProperty] using hold hnil
          · exact jsonGetProperty_stored old hnil hv htyp
        refine ⟨⟨fun _ => ⟨v, hv, htyp⟩, fun _ => rfl⟩, fun v' hv' _ => ?_, fun hnot => ?_⟩
        · rw [← hv', hv]
          exact hstored
        · exact absurd ⟨v, hv, htyp⟩ hnot
  | none =>
      rw [getProperty_absent old hv]
      have hnone : ¬ ∃ v, follow json (names path) = some v ∧ v.isType typ = true := by
        rintro ⟨v, hv', _⟩
        rw [hv] at hv'
        cases hv'
      constructor
      · intro h hscalar front hfront hne v hvisited htyp
        have hkept := h.failed hnone
        simp only [hscalar, Bool.false_eq_true, if_false] at hkept
        rw [← hkept]
        exact jsonGetProperty_scalar hscalar old hfront hne hvisited htyp
      · intro hsuits
        refine ⟨⟨fun h => absurd h eUaErr_ne_ok, fun h => absurd h hnone⟩,
          fun v hv' _ => absurd (hv.symm.trans hv') (Option.some_ne_none v).symm, fun _ => ?_⟩
        cases hscalar : cleared typ with
        | true => rfl
        | false =>
            simp only [Bool.false_eq_true, if_false]
            by_cases hvisited : ∃ front, front <+: names path ∧ front ≠ [] ∧
                ∃ v, follow json front = some v ∧ v.isType typ = true
            · obtain ⟨front, hfront, hne, v, hfollow, htyp⟩ := hvisited
              rw [hsuits hscalar front hfront hne v hfollow htyp]
              exact jsonGetProperty_scalar hscalar _ hfront hne hfollow htyp
            · apply jsonGetProperty_kept
              intro front hfront hne v hfollow
              rw [Bool.eq_false_iff]
              exact fun htyp => hvisited ⟨front, hfront, hne, v, hfollow, htyp⟩

/-- A sequence number that is a text is reported as found, and the output is not set. -/
theorem text_reported_as_int :
    ¬ ∀ (typ : JsonType) (json : Json) (path : List (Option String)) (old : Option Json),
      Contract typ json (names path) old (getProperty typ json path old) := by
  intro h
  have hcontract := h .int (.object [("body", .object [("sequence", .string "7")])])
    [some "body", some "sequence"] none
  obtain ⟨v, hv, htyp⟩ := hcontract.ok_iff.mp rfl
  cases hv
  cases htyp

section Getters

/-- The walk stores a value of the requested type, or keeps what the output held. -/
theorem jsonGetProperty_value (typ : JsonType) (json : Json) (path : List (Option String)) :
    (∃ v, v.isType typ = true ∧ ∀ old', (jsonGetProperty typ json path old').2 = some v) ∨
      ∀ old', (jsonGetProperty typ json path old').2 = old' := by
  induction path generalizing json with
  | nil => exact .inr fun _ => rfl
  | cons node path ih =>
      cases node with
      | none => exact .inr fun _ => rfl
      | some node =>
          simp only [jsonGetProperty]
          cases json.field? node with
          | none => exact .inr fun _ => rfl
          | some aux =>
              by_cases htyp : aux.isType typ = true
              · simp only [htyp, if_true]
                obtain ⟨v, hv, hstored⟩ | hkept := ih aux
                · exact .inl ⟨v, hv, fun _ => hstored _⟩
                · exact .inl ⟨aux, htyp, fun _ => hkept _⟩
              · simp only [htyp, Bool.false_eq_true, if_false]
                exact ih aux

theorem jsonGetProperty_same_err (typ : JsonType) (json : Json) (path : List (Option String))
    (old old' : Option Json) :
    (jsonGetProperty typ json path old).1 = (jsonGetProperty typ json path old').1 := by
  rw [jsonGetProperty_names, jsonGetProperty_err, jsonGetProperty_names, jsonGetProperty_err]

variable (json : Json) (path : List (Option String))

/-- An output of its own type holds what is stored, or else what it held before. -/
theorem output_eq {α : Type} {typ : JsonType} (encode : α → Json) (decode : Json → Option α)
    (hencode : ∀ a, decode (encode a) = some a)
    (hdecode : ∀ v, v.isType typ = true → (decode v).isSome) (old : Option α) :
    (jsonGetProperty typ json path (old.map encode)).2.bind decode =
      ((jsonGetProperty typ json path none).2.bind decode <|> old) := by
  obtain ⟨v, htyp, hstored⟩ | hkept := jsonGetProperty_value typ json path
  · rw [hstored, hstored]
    obtain ⟨a, ha⟩ := Option.isSome_iff_exists.mp (hdecode v htyp)
    simp [ha]
  · rw [hkept, hkept]
    cases old with
    | none => rfl
    | some a => simp [hencode]

/-- What a lookup does for its caller: the result, and the output of the caller's type. -/
theorem getProperty_output {α : Type} {typ : JsonType} (encode : α → Json)
    (decode : Json → Option α) (hencode : ∀ a, decode (encode a) = some a)
    (hdecode : ∀ v, v.isType typ = true → (decode v).isSome) (old : Option α) :
    ((getProperty typ json path (old.map encode)).1,
        (getProperty typ json path (old.map encode)).2.bind decode) =
      match jsonGetProperty typ json path none with
      | (err, value) => (err, if err ≠ eUaOk ∧ cleared typ = true then none
          else (value.bind decode <|> old)) := by
  have houtput := output_eq json path encode decode hencode hdecode old
  have herr := jsonGetProperty_same_err typ json path none (old.map encode)
  unfold getProperty
  rcases hnone : jsonGetProperty typ json path none with ⟨err, value⟩
  rcases hold : jsonGetProperty typ json path (old.map encode) with ⟨err', value'⟩
  rw [hnone, hold] at herr houtput
  cases herr
  simp only at houtput ⊢
  split
  · rfl
  · rw [houtput]

theorem string?_of_isType (v : Json) (h : v.isType .string = true) : v.string?.isSome := by
  cases v with
  | string text => rfl
  | _ => cases h

theorem array?_of_isType (v : Json) (h : v.isType .array = true) : v.array?.isSome := by
  cases v with
  | array items => rfl
  | _ => cases h

theorem int?_of_isType (v : Json) (h : v.isType .int = true) : v.int?.isSome := by
  cases v with
  | int n => rfl
  | _ => cases h

/-- The lookups of the message handlers are this lookup with outputs of their own types. -/
theorem getString_eq (old : Option String) :
    getString json path old =
      ((getProperty .string json path (old.map .string)).1,
        (getProperty .string json path (old.map .string)).2.bind Json.string?) := by
  rw [getProperty_output json path Json.string Json.string? (fun _ => rfl) string?_of_isType]
  unfold getString
  rcases jsonGetProperty .string json path none with ⟨err, value⟩
  by_cases hok : err = eUaOk <;> simp [hok, cleared]

theorem getArray_eq (old : Option (List Json)) :
    getArray json path old =
      ((getProperty .array json path (old.map .array)).1,
        (getProperty .array json path (old.map .array)).2.bind Json.array?) := by
  rw [getProperty_output json path Json.array Json.array? (fun _ => rfl) array?_of_isType]
  unfold getArray
  rcases jsonGetProperty .array json path none with ⟨err, value⟩
  by_cases hok : err = eUaOk <;> simp [hok, cleared]

theorem getInt_eq (old : Int64) :
    getInt json path old =
      ((getProperty .int json path (some (.int old))).1,
        ((getProperty .int json path (some (.int old))).2.bind Json.int?).getD old) := by
  have houtput := getProperty_output json path Json.int Json.int? (fun _ => rfl) int?_of_isType
    (some old)
  unfold getInt
  rcases hwalk : jsonGetProperty .int json path none with ⟨err, value⟩
  rw [hwalk] at houtput
  obtain ⟨herr, hvalue⟩ := Prod.mk.inj houtput
  rw [Option.map_some] at herr hvalue
  rw [herr, hvalue]
  cases hn : value.bind Json.int? with
  | none => simp [cleared, hn]
  | some n => simp [cleared, hn]

theorem getBool_eq :
    getBool json path =
      ((getProperty .boolean json path none).1,
        (getProperty .boolean json path none).2.bind Json.bool?) := by
  unfold getBool getProperty
  rcases jsonGetProperty .boolean json path none with ⟨err, value⟩
  simp [cleared]

end Getters

section Variables

theorem follow_append (json : Json) (front rest : List String) :
    follow json (front ++ rest) = (follow json front).bind fun v => follow v rest := by
  induction front generalizing json with
  | nil => rfl
  | cons node front ih =>
    rw [List.cons_append, follow, follow]
    cases json.field? node with
    | none => rfl
    | some aux => exact ih aux

/-- Only objects have properties. -/
theorem field?_of_isType {typ : JsonType} (htyp : typ ≠ .object) {v : Json}
    (h : v.isType typ = true) (node : String) : v.field? node = none := by
  cases v with
  | object fields => cases typ <;> simp_all [Json.isType]
  | _ => rfl

/-- Where the names lead to a value, the walk has met no other value of the type. -/
theorem jsonGetProperty_end (typ : JsonType) (htyp : typ ≠ .object) {json v : Json}
    {path : List String} (value : Option Json) (hpath : path ≠ [])
    (h : follow json path = some v) :
    (jsonGetProperty typ json (path.map some) value).2 =
      if v.isType typ = true then some v else value := by
  split
  · rename_i htype
    exact jsonGetProperty_stored value hpath h htype
  · rename_i htype
    refine jsonGetProperty_kept value fun front hfront _ u hu => ?_
    obtain ⟨rest, rfl⟩ := hfront
    rw [follow_append, hu, Option.bind_some] at h
    cases rest with
    | nil =>
      obtain rfl := Option.some.inj h
      simpa using htype
    | cons node rest =>
      by_contra hvisited
      rw [follow, field?_of_isType htyp (by simpa using hvisited)] at h
      cases h

variable {json : Json} {path : List String}

theorem getString_absent (old : Option String) (h : follow json path = none) :
    getString json (path.map some) old = (eUaErr, none) := by
  have herr := jsonGetProperty_err .string json path none
  rw [h] at herr
  unfold getString
  rcases hwalk : jsonGetProperty .string json (path.map some) none with ⟨err, value⟩
  rw [hwalk] at herr
  obtain rfl : err = eUaErr := herr
  rfl

theorem getString_present {v : Json} (old : Option String) (hpath : path ≠ [])
    (h : follow json path = some v) :
    getString json (path.map some) old = (eUaOk, v.string? <|> old) := by
  have herr := jsonGetProperty_err .string json path none
  have hvalue := jsonGetProperty_end .string nofun none hpath h
  rw [h] at herr
  unfold getString
  rcases hwalk : jsonGetProperty .string json (path.map some) none with ⟨err, value⟩
  rw [hwalk] at herr hvalue
  obtain rfl : err = eUaOk := herr
  obtain rfl : value = _ := hvalue
  cases v <;> rfl

theorem getString_ok_iff (old value : Option String) (hpath : path ≠ []) :
    getString json (path.map some) old = (eUaOk, value) ↔
      ∃ v, follow json path = some v ∧ value = (v.string? <|> old) := by
  cases h : follow json path with
  | none =>
    rw [getString_absent old h]
    simp
  | some v =>
    rw [getString_present old hpath h]
    simp [eq_comm]

theorem getInt_present {v : Json} (old : Int64) (hpath : path ≠ [])
    (h : follow json path = some v) :
    getInt json (path.map some) old = (eUaOk, v.int?.getD old) := by
  have herr := jsonGetProperty_err .int json path none
  have hvalue := jsonGetProperty_end .int nofun none hpath h
  rw [h] at herr
  unfold getInt
  rcases hwalk : jsonGetProperty .int json (path.map some) none with ⟨err, value⟩
  rw [hwalk] at herr hvalue
  obtain rfl : err = eUaOk := herr
  obtain rfl : value = _ := hvalue
  cases v <;> rfl

theorem getInt_ok_iff (old value : Int64) (hpath : path ≠ []) :
    getInt json (path.map some) old = (eUaOk, value) ↔
      ∃ v, follow json path = some v ∧ value = v.int?.getD old := by
  cases h : follow json path with
  | none =>
    have herr := jsonGetProperty_err .int json path none
    rw [h] at herr
    unfold getInt
    rcases hwalk : jsonGetProperty .int json (path.map some) none with ⟨err, found⟩
    rw [hwalk] at herr
    obtain rfl : err = eUaErr := herr
    simp
  | some v =>
    rw [getInt_present old hpath h]
    simp [eq_comm]

theorem getBool_ok_iff : (getBool json (path.map some)).1 = eUaOk ↔ (follow json path).isSome := by
  have herr := jsonGetProperty_err .boolean json path none
  unfold getBool
  rcases hwalk : jsonGetProperty .boolean json (path.map some) none with ⟨err, found⟩
  rw [hwalk] at herr
  obtain rfl : err = _ := herr
  cases follow json path with
  | none => simp
  | some v => simp

theorem getArray_absent (old : Option (List Json)) (h : follow json path = none) :
    getArray json (path.map some) old = (eUaErr, none) := by
  have herr := jsonGetProperty_err .array json path none
  rw [h] at herr
  unfold getArray
  rcases hwalk : jsonGetProperty .array json (path.map some) none with ⟨err, value⟩
  rw [hwalk] at herr
  obtain rfl : err = eUaErr := herr
  rfl

theorem getArray_present {v : Json} (old : Option (List Json)) (hpath : path ≠ [])
    (h : follow json path = some v) :
    getArray json (path.map some) old = (eUaOk, v.array? <|> old) := by
  have herr := jsonGetProperty_err .array json path none
  have hvalue := jsonGetProperty_end .array nofun none hpath h
  rw [h] at herr
  unfold getArray
  rcases hwalk : jsonGetProperty .array json (path.map some) none with ⟨err, value⟩
  rw [hwalk] at herr hvalue
  obtain rfl : err = eUaOk := herr
  obtain rfl : value = _ := hvalue
  cases v <;> rfl

end Variables

end EsyncUa.PropertyLookups
