import EsyncUa.SortedArrays
import Mathlib.Data.List.TakeWhile
import Mathlib.Data.Set.Insert

/-!
The tree that routes a message type to the runners registered for it.
A type is a path of slash separated components; a node keeps the runners registered at
its path in a sorted array and its children in a hash map by component. One recursive
function registers, deletes and gathers; it skips any number of slashes before a component,
so types with the same components are the same path.
-/
namespace EsyncUa.Routing

open EsyncUa.SortedArrays

/-- runner_info_hash_tree_t: the runners at this node and its children by key. -/
inductive Node (ρ : Type) : Type
  | mk (items : List ρ) (nodes : List (List Char × Node ρ)) : Node ρ

namespace Node

variable {ρ : Type}

def items : Node ρ → List ρ
  | mk items _ => items

def nodes : Node ρ → List (List Char × Node ρ)
  | mk _ nodes => nodes

@[simp] theorem items_mk (is : List ρ) (ns : List (List Char × Node ρ)) : (mk is ns).items = is :=
  rfl

@[simp] theorem nodes_mk (is : List ρ) (ns : List (List Char × Node ρ)) : (mk is ns).nodes = ns :=
  rfl

theorem eta (n : Node ρ) : mk n.items n.nodes = n := by
  cases n
  rfl

/-- A node without runners and without children. -/
def bare : Node ρ := mk [] []

end Node

section HashMap

variable {β : Type}

/-- HASH_FIND. -/
def hashFind (key : List Char) : List (List Char × β) → Option β
  | [] => none
  | (k, child) :: rest => if k = key then some child else hashFind key rest

/-- The map after the child found under the key has changed in place. -/
def hashReplace (key : List Char) (child' : β) : List (List Char × β) → List (List Char × β)
  | [] => []
  | (k, child) :: rest =>
      if k = key then (k, child') :: rest else (k, child) :: hashReplace key child' rest

/-- HASH_DEL of the child found under the key. -/
def hashDel (key : List Char) : List (List Char × β) → List (List Char × β)
  | [] => []
  | (k, child) :: rest => if k = key then rest else (k, child) :: hashDel key rest

def keys (nodes : List (List Char × β)) : List (List Char) := nodes.map Prod.fst

@[simp] theorem keys_cons (e : List Char × β) (rest : List (List Char × β)) :
    keys (e :: rest) = e.1 :: keys rest := rfl

theorem hashFind_eq_none_iff (nodes : List (List Char × β)) (key : List Char) :
    hashFind key nodes = none ↔ key ∉ keys nodes := by
  induction nodes with
  | nil => simp [hashFind, keys]
  | cons e rest ih =>
      obtain ⟨k, child⟩ := e
      by_cases hk : k = key
      · simp [hashFind, hk]
      · have hk' : ¬key = k := fun h => hk h.symm
        simp [hashFind, hk, hk', ih]

theorem hashFind_of_mem {nodes : List (List Char × β)} (hnodup : (keys nodes).Nodup)
    {key : List Char} {child : β} (h : (key, child) ∈ nodes) : hashFind key nodes = some child := by
  induction nodes with
  | nil => simp at h
  | cons e rest ih =>
      rw [keys_cons, List.nodup_cons] at hnodup
      rcases List.mem_cons.mp h with rfl | hrest
      · simp [hashFind]
      · have hne : e.1 ≠ key := by
          intro he
          rw [he] at hnodup
          exact hnodup.1 (List.mem_map_of_mem hrest)
        simp [hashFind, hne, ih hnodup.2 hrest]

theorem hashFind_append (nodes : List (List Char × β)) (key : List Char) (child : β)
    (hnew : hashFind key nodes = none) (k : List Char) :
    hashFind k (nodes ++ [(key, child)]) = if k = key then some child else hashFind k nodes := by
  induction nodes with
  | nil => simp [hashFind, eq_comm]
  | cons e rest ih =>
      obtain ⟨k₀, child₀⟩ := e
      unfold hashFind at hnew
      split at hnew
      · cases hnew
      · rename_i hne
        by_cases hk : k₀ = k
        · have : k ≠ key := fun h => hne (hk.trans h)
          simp [hashFind, hk, this]
        · simpa [hashFind, hk] using ih hnew

theorem hashFind_replace (nodes : List (List Char × β)) (key : List Char) (child old : β)
    (hold : hashFind key nodes = some old) (k : List Char) :
    hashFind k (hashReplace key child nodes) =
      if k = key then some child else hashFind k nodes := by
  induction nodes with
  | nil => simp [hashFind] at hold
  | cons e rest ih =>
      obtain ⟨k₀, child₀⟩ := e
      by_cases hk : k₀ = key
      · by_cases hkk : k = key
        · simp [hashReplace, hashFind, hk, hkk]
        · have : key ≠ k := fun h => hkk h.symm
          simp [hashReplace, hashFind, hk, hkk, this]
      · have hold' : hashFind key rest = some old := by simpa [hashFind, hk] using hold
        by_cases hkk : k₀ = k
        · have : k ≠ key := fun h => hk (hkk.trans h)
          simp [hashReplace, hashFind, hkk, this]
        · simpa [hashReplace, hashFind, hk, hkk] using ih hold'

theorem hashReplace_self {nodes : List (List Char × β)} {key : List Char} {child : β}
    (h : hashFind key nodes = some child) : hashReplace key child nodes = nodes := by
  induction nodes with
  | nil => rfl
  | cons e rest ih =>
      unfold hashFind at h
      unfold hashReplace
      split at h
      · rename_i hk
        cases h
        rw [if_pos hk]
      · rename_i hk
        rw [if_neg hk, ih h]

theorem hashFind_del (nodes : List (List Char × β)) (hnodup : (keys nodes).Nodup)
    (key k : List Char) :
    hashFind k (hashDel key nodes) = if k = key then none else hashFind k nodes := by
  induction nodes with
  | nil => simp [hashFind, hashDel]
  | cons e rest ih =>
      obtain ⟨k₀, child₀⟩ := e
      rw [keys_cons, List.nodup_cons] at hnodup
      by_cases hk : k₀ = key
      · by_cases hkk : k = key
        · have hnone : hashFind k rest = none := by
            rw [hashFind_eq_none_iff, hkk, ← hk]
            exact hnodup.1
          simp only [hashDel, if_pos hk, if_pos hkk, hnone]
        · have : key ≠ k := fun h => hkk h.symm
          simp [hashDel, hashFind, hk, hkk, this]
      · by_cases hkk : k₀ = k
        · have : k ≠ key := fun h => hk (hkk.trans h)
          simp [hashDel, hashFind, hkk, this]
        · simpa [hashDel, hashFind, hk, hkk] using ih hnodup.2

theorem keys_append (nodes : List (List Char × β)) (key : List Char) (child : β)
    (hnew : hashFind key nodes = none) (hnodup : (keys nodes).Nodup) :
    (keys (nodes ++ [(key, child)])).Nodup := by
  have hkey := (hashFind_eq_none_iff nodes key).mp hnew
  unfold keys at *
  rw [List.map_append, List.nodup_append]
  refine ⟨hnodup, by simp, ?_⟩
  intro a ha b hb hab
  have hb' : b = key := by simpa using hb
  rw [hab, hb'] at ha
  exact hkey ha

theorem keys_replace (nodes : List (List Char × β)) (key : List Char) (child : β) :
    keys (hashReplace key child nodes) = keys nodes := by
  induction nodes with
  | nil => rfl
  | cons e rest ih =>
      by_cases hk : e.1 = key
      · simp [hashReplace, hk]
      · simp [hashReplace, hk, ih]

theorem hashDel_sublist (nodes : List (List Char × β)) (key : List Char) :
    (hashDel key nodes).Sublist nodes := by
  induction nodes with
  | nil => exact List.Sublist.refl _
  | cons e rest ih =>
      by_cases hk : e.1 = key
      · simp [hashDel, hk]
      · simp [hashDel, hk, ih]

theorem keys_del (nodes : List (List Char × β)) (key : List Char) (hnodup : (keys nodes).Nodup) :
    (keys (hashDel key nodes)).Nodup :=
  hnodup.sublist ((hashDel_sublist nodes key).map _)

end HashMap

variable {ρ : Type} [LinearOrder ρ]

/-- The remaining characters after the slashes that are skipped. -/
def skipSlashes (uaType : List Char) : List Char := uaType.dropWhile (· = '/')

def isKeyChar (c : Char) : Bool := c ≠ '/'

theorem length_dropWhile_le {α : Type} (p : α → Bool) (xs : List α) :
    (xs.dropWhile p).length ≤ xs.length := (List.dropWhile_sublist p).length_le

theorem skipSlashes_head {uaType : List Char} {c : Char} {cs : List Char}
    (h : skipSlashes uaType = c :: cs) : isKeyChar c = true := by
  have hhead := List.head?_dropWhile_not (· = '/') uaType
  unfold skipSlashes at h
  rw [h] at hhead
  simpa [isKeyChar] using hhead

theorem rest_lt {uaType : List Char} {c : Char} {cs : List Char}
    (h : skipSlashes uaType = c :: cs) :
    ((c :: cs).dropWhile isKeyChar).length < uaType.length := by
  have hle : (skipSlashes uaType).length ≤ uaType.length := length_dropWhile_le _ _
  have hcs := length_dropWhile_le isKeyChar cs
  rw [h, List.length_cons] at hle
  rw [List.dropWhile_cons_of_pos (skipSlashes_head h)]
  omega

/-- query_hash_tree. The result is the node and the gathered array afterwards;
`none` is the use of a null child when a path to delete is not there. -/
def queryHashTree (current : Node ρ) (ri : Option ρ) (uaType : List Char) (isDelete : Bool)
    (gather : Option (List ρ)) (tip : Bool) : Option (Node ρ × Option (List ρ)) :=
  if ri.isNone && gather.isNone then some (current, gather)
  else
    let gather' := match gather with
      | some g =>
          if current.items ≠ [] ∧ (tip = false ∨ skipSlashes uaType = []) then
            some (g ++ current.items)
          else some g
      | none => none
    match _h : skipSlashes uaType with
    | [] =>
        match ri with
        | none => some (current, gather')
        | some r =>
            if isDelete then some (.mk (eraseSorted r current.items) current.nodes, gather')
            else if gather'.isNone then
              some (.mk (insertSorted r current.items) current.nodes, gather')
            else some (current, gather')
    | c :: cs =>
        let key := (c :: cs).takeWhile isKeyChar
        let rest := (c :: cs).dropWhile isKeyChar
        match hashFind key current.nodes with
        | none =>
            if isDelete then none
            else if gather'.isSome then some (current, gather')
            else do
              let (child, g) ← queryHashTree Node.bare ri rest isDelete gather' tip
              return (.mk current.items (current.nodes ++ [(key, child)]), g)
        | some child => do
            let (child', g) ← queryHashTree child ri rest isDelete gather' tip
            if isDelete = true ∧ child'.items = [] ∧ child'.nodes = [] then
              return (.mk current.items (hashDel key current.nodes), g)
            else return (.mk current.items (hashReplace key child' current.nodes), g)
  termination_by uaType.length
  decreasing_by all_goals exact rest_lt ‹_›

/-- The components of a type between its slashes. -/
def components (uaType : List Char) : List (List Char) :=
  (uaType.splitOn '/').filter fun key => key ≠ []

theorem components_slash (cs : List Char) : components ('/' :: cs) = components cs := by
  unfold components
  rw [List.splitOn_eq_splitOnP, List.splitOn_eq_splitOnP]
  have h := List.splitOnP_append_cons (p := (· == '/')) [] cs (show ('/' == '/') = true from rfl)
  rw [List.nil_append] at h
  simp [h]

theorem components_skipSlashes (uaType : List Char) :
    components (skipSlashes uaType) = components uaType := by
  induction uaType with
  | nil => rfl
  | cons c cs ih =>
      unfold skipSlashes at *
      by_cases hc : c = '/'
      · rw [List.dropWhile_cons_of_pos (by simpa using hc), ih, hc, components_slash]
      · rw [List.dropWhile_cons_of_neg (by simpa using hc)]

theorem components_of_nil {uaType : List Char} (h : skipSlashes uaType = []) :
    components uaType = [] := by
  rw [← components_skipSlashes, h]
  rfl

theorem components_of_cons {uaType : List Char} {c : Char} {cs : List Char}
    (h : skipSlashes uaType = c :: cs) :
    components uaType =
      (c :: cs).takeWhile isKeyChar :: components ((c :: cs).dropWhile isKeyChar) := by
  have hc : isKeyChar c = true := skipSlashes_head h
  have hne : (c :: cs).takeWhile isKeyChar ≠ [] := by
    rw [List.takeWhile_cons_of_pos hc]
    exact List.cons_ne_nil _ _
  have hkey : ∀ x ∈ (c :: cs).takeWhile isKeyChar, (x == '/') = false := by
    intro x hx
    simpa [isKeyChar] using List.mem_takeWhile_imp hx
  have hsplit := List.takeWhile_append_dropWhile (p := isKeyChar) (l := c :: cs)
  rw [← components_skipSlashes, h]
  conv_lhs => rw [← hsplit]
  unfold components
  simp only [List.splitOn_eq_splitOnP]
  cases hrest : (c :: cs).dropWhile isKeyChar with
  | nil =>
      rw [List.append_nil, List.splitOnP_eq_singleton hkey]
      simp [hne]
  | cons d ds =>
      have hd : (d == '/') = true := by
        have hhead := List.head?_dropWhile_not isKeyChar (c :: cs)
        rw [hrest] at hhead
        simpa [isKeyChar] using hhead
      have hslash : d = '/' := by simpa using hd
      rw [List.splitOnP_append_cons_of_forall_mem hkey d hd]
      have hds := components_slash ds
      unfold components at hds
      simp only [List.splitOn_eq_splitOnP] at hds
      rw [hslash, hds]
      simp [hne]

/-- Registration of a runner at a path. -/
def registerAt (r : ρ) : List (List Char) → Node ρ → Node ρ
  | [], current => .mk (insertSorted r current.items) current.nodes
  | key :: rest, current =>
      match hashFind key current.nodes with
      | none => .mk current.items (current.nodes ++ [(key, registerAt r rest .bare)])
      | some child => .mk current.items (hashReplace key (registerAt r rest child) current.nodes)

/-- Deletion of a runner at a path, with the nodes that become bare; `none` where no
node is at the path. -/
def deleteAt (r : ρ) : List (List Char) → Node ρ → Option (Node ρ)
  | [], current => some (.mk (eraseSorted r current.items) current.nodes)
  | key :: rest, current =>
      match hashFind key current.nodes with
      | none => none
      | some child => (deleteAt r rest child).map fun child' =>
          if child'.items = [] ∧ child'.nodes = [] then
            .mk current.items (hashDel key current.nodes)
          else .mk current.items (hashReplace key child' current.nodes)

omit [LinearOrder ρ] in
/-- The runners on the way down a path, or only those at its end. -/
def gatherAt (tip : Bool) : List (List Char) → Node ρ → List ρ
  | [], current => current.items
  | key :: rest, current =>
      (if tip then [] else current.items) ++
        match hashFind key current.nodes with
        | none => []
        | some child => gatherAt tip rest child

theorem query_register (r : ρ) (tip : Bool) (uaType : List Char) (current : Node ρ) :
    queryHashTree current (some r) uaType false none tip =
      some (registerAt r (components uaType) current, none) := by
  induction hlen : uaType.length using Nat.strong_induction_on generalizing uaType current with
  | _ len ih =>
      subst hlen
      rw [queryHashTree]
      cases hs : skipSlashes uaType with
      | nil => simp [components_of_nil hs, registerAt]
      | cons c cs =>
          have hrest := fun child => ih _ (rest_lt hs) _ child rfl
          rw [components_of_cons hs]
          cases hf : hashFind ((c :: cs).takeWhile isKeyChar) current.nodes with
          | none => simp [hf, hrest, registerAt]
          | some child => simp [hf, hrest, registerAt]

theorem query_delete (r : ρ) (tip : Bool) (uaType : List Char) (current : Node ρ) :
    queryHashTree current (some r) uaType true none tip =
      (deleteAt r (components uaType) current).map fun current' => (current', none) := by
  induction hlen : uaType.length using Nat.strong_induction_on generalizing uaType current with
  | _ len ih =>
      subst hlen
      rw [queryHashTree]
      cases hs : skipSlashes uaType with
      | nil => simp [components_of_nil hs, deleteAt]
      | cons c cs =>
          have hrest := fun child => ih _ (rest_lt hs) _ child rfl
          rw [components_of_cons hs]
          cases hf : hashFind ((c :: cs).takeWhile isKeyChar) current.nodes with
          | none => simp [hf, deleteAt]
          | some child =>
              cases hd : deleteAt r (components ((c :: cs).dropWhile isKeyChar)) child with
              | none => simp [hf, hrest, hd, deleteAt]
              | some child' =>
                  by_cases hbare : child'.items = [] ∧ child'.nodes = []
                  · simp [hf, hrest, hd, deleteAt, hbare]
                  · simp [hf, hrest, hd, deleteAt, hbare]

theorem query_gather (tip : Bool) (uaType : List Char) (current : Node ρ) (g : List ρ) :
    queryHashTree current none uaType false (some g) tip =
      some (current, some (g ++ gatherAt tip (components uaType) current)) := by
  induction hlen : uaType.length using Nat.strong_induction_on generalizing uaType current g with
  | _ len ih =>
      subst hlen
      rw [queryHashTree]
      cases hs : skipSlashes uaType with
      | nil =>
          by_cases hi : current.items = []
          · simp [components_of_nil hs, gatherAt, hi]
          · simp [components_of_nil hs, gatherAt, hi]
      | cons c cs =>
          have hrest := fun child g => ih _ (rest_lt hs) _ child g rfl
          rw [components_of_cons hs]
          have hhere : (if current.items ≠ [] ∧ (tip = false ∨ c :: cs = []) then
              some (g ++ current.items) else some g) =
              some (g ++ if tip then [] else current.items) := by
            cases tip <;> by_cases hi : current.items = [] <;> simp [hi]
          cases hf : hashFind ((c :: cs).takeWhile isKeyChar) current.nodes with
          | none =>
              simp only [hhere, hf, gatherAt, List.append_nil]
              simp
          | some child =>
              simp only [hhere, hf, hrest, gatherAt]
              simp [hashReplace_self hf, Node.eta]

end EsyncUa.Routing
