import EsyncUa.Routing
import Mathlib.Data.List.Infix

/-!
What the routing tree holds after any sequence of registrations and deletions.
Abstractly the tree is a set of pairs of a path and a runner: a registration adds a pair,
a deletion takes one away. A sound tree has sorted arrays, distinct keys and no node below
the root without use; each operation keeps it sound and changes the runners of one path only.
-/
namespace EsyncUa.RoutingTree

open EsyncUa.SortedArrays EsyncUa.Routing

variable {ρ : Type}

/-- The node at a path below a node. -/
def descend : List (List Char) → Node ρ → Option (Node ρ)
  | [], current => some current
  | key :: rest, current => (hashFind key current.nodes).bind (descend rest)

/-- The runners at a path below a node. -/
def itemsAt (path : List (List Char)) (current : Node ρ) : List ρ :=
  ((descend path current).map Node.items).getD []

/-- The nodes of a tree other than its root. -/
inductive Below : Node ρ → Node ρ → Prop
  | child {n c : Node ρ} {key : List Char} (h : (key, c) ∈ n.nodes) : Below c n
  | deeper {n c m : Node ρ} {key : List Char} (h : (key, c) ∈ n.nodes) (hm : Below m c) : Below m n

/-- A node that holds a runner or has a child. -/
def Used (n : Node ρ) : Prop := n.items ≠ [] ∨ n.nodes ≠ []

@[simp] theorem descend_nil (n : Node ρ) : descend [] n = some n := rfl

@[simp] theorem itemsAt_nil (n : Node ρ) : itemsAt [] n = n.items := rfl

theorem descend_cons (key : List Char) (rest : List (List Char)) (n : Node ρ) :
    descend (key :: rest) n = (hashFind key n.nodes).bind (descend rest) := rfl

theorem itemsAt_cons (key : List Char) (rest : List (List Char)) (n : Node ρ) :
    itemsAt (key :: rest) n =
      match hashFind key n.nodes with
      | none => []
      | some child => itemsAt rest child := by
  unfold itemsAt
  rw [descend_cons]
  cases hashFind key n.nodes <;> rfl

theorem used_iff_ne_bare (n : Node ρ) : Used n ↔ n ≠ Node.bare := by
  obtain ⟨items, nodes⟩ := n
  simp only [Used, Node.items_mk, Node.nodes_mk, Node.bare, ne_eq, Node.mk.injEq]
  rw [not_and_or]

theorem itemsAt_bare (path : List (List Char)) : itemsAt path (Node.bare : Node ρ) = [] := by
  cases path with
  | nil => rfl
  | cons key rest => rfl

variable [LinearOrder ρ]

/-- Sorted arrays, distinct keys and no unused node at any path. -/
structure Sound (n : Node ρ) : Prop where
  sorted : ∀ path m, descend path n = some m → m.items.Pairwise (· < ·)
  distinct : ∀ path m, descend path n = some m → (keys m.nodes).Nodup
  used : ∀ path m, path ≠ [] → descend path n = some m → Used m

theorem sound_iff (n : Node ρ) :
    Sound n ↔ n.items.Pairwise (· < ·) ∧ (keys n.nodes).Nodup ∧
      ∀ key c, hashFind key n.nodes = some c → Sound c ∧ Used c := by
  constructor
  · intro h
    refine ⟨h.sorted [] n rfl, h.distinct [] n rfl, ?_⟩
    intro key c hc
    have hstep : ∀ path, descend (key :: path) n = descend path c := by
      intro path
      rw [descend_cons, hc]
      rfl
    refine ⟨⟨?_, ?_, ?_⟩, ?_⟩
    · intro path m hm
      exact h.sorted (key :: path) m ((hstep path).trans hm)
    · intro path m hm
      exact h.distinct (key :: path) m ((hstep path).trans hm)
    · intro path m _ hm
      exact h.used (key :: path) m (List.cons_ne_nil _ _) ((hstep path).trans hm)
    · exact h.used [key] c (List.cons_ne_nil _ _) (hstep [])
  · rintro ⟨hsorted, hdistinct, hchild⟩
    refine ⟨?_, ?_, ?_⟩
    · intro path m hm
      cases path with
      | nil =>
          cases hm
          exact hsorted
      | cons key rest =>
          obtain ⟨c, hc, hrest⟩ := Option.bind_eq_some_iff.mp hm
          exact (hchild key c hc).1.sorted rest m hrest
    · intro path m hm
      cases path with
      | nil =>
          cases hm
          exact hdistinct
      | cons key rest =>
          obtain ⟨c, hc, hrest⟩ := Option.bind_eq_some_iff.mp hm
          exact (hchild key c hc).1.distinct rest m hrest
    · intro path m hne hm
      cases path with
      | nil => exact absurd rfl hne
      | cons key rest =>
          obtain ⟨c, hc, hrest⟩ := Option.bind_eq_some_iff.mp hm
          cases rest with
          | nil =>
              cases hrest
              exact (hchild key m hc).2
          | cons key' rest' => exact (hchild key c hc).1.used _ m (List.cons_ne_nil _ _) hrest

theorem sound_bare : Sound (Node.bare : Node ρ) := by
  rw [sound_iff]
  refine ⟨List.Pairwise.nil, List.nodup_nil, ?_⟩
  intro key c hc
  cases hc

theorem Sound.items_sorted {n : Node ρ} (h : Sound n) (path : List (List Char)) :
    (itemsAt path n).Pairwise (· < ·) := by
  unfold itemsAt
  cases hd : descend path n with
  | none => exact List.Pairwise.nil
  | some m => exact h.sorted path m hd

theorem Sound.below {n m : Node ρ} (h : Sound n) (hm : Below m n) :
    ∃ path, path ≠ [] ∧ descend path n = some m := by
  induction hm with
  | @child n c key hc =>
      have hf := hashFind_of_mem ((sound_iff n).mp h).2.1 hc
      exact ⟨[key], List.cons_ne_nil _ _, by rw [descend_cons, hf]; rfl⟩
  | @deeper n c m key hc _ ih =>
      have hn := (sound_iff n).mp h
      have hf := hashFind_of_mem hn.2.1 hc
      obtain ⟨path, _, hpath⟩ := ih (hn.2.2 key c hf).1
      exact ⟨key :: path, List.cons_ne_nil _ _, by rw [descend_cons, hf]; exact hpath⟩

/-- A sound tree without runners is the bare root. -/
theorem Sound.eq_bare {n : Node ρ} (h : Sound n) (hempty : ∀ path, itemsAt path n = []) :
    n = Node.bare := by
  induction hsize : sizeOf n using Nat.strong_induction_on generalizing n with
  | _ size ih =>
      subst hsize
      by_contra hne
      have hn := (sound_iff n).mp h
      rcases (used_iff_ne_bare n).mpr hne with hitems | hnodes
      · exact hitems (hempty [])
      · obtain ⟨⟨key, c⟩, hmem⟩ := List.exists_mem_of_ne_nil _ hnodes
        have hf := hashFind_of_mem hn.2.1 hmem
        have hlt : sizeOf c < sizeOf n := by
          have hlist := List.sizeOf_lt_of_mem hmem
          obtain ⟨items, nodes⟩ := n
          simp only [Node.nodes_mk, Prod.mk.sizeOf_spec, Node.mk.sizeOf_spec] at *
          omega
        have hc := hn.2.2 key c hf
        have hbare : c = Node.bare := by
          refine ih _ hlt hc.1 ?_ rfl
          intro path
          have hp := hempty (key :: path)
          rw [itemsAt_cons, hf] at hp
          exact hp
        exact (used_iff_ne_bare c).mp hc.2 hbare

theorem register_used (r : ρ) (path : List (List Char)) (n : Node ρ) :
    Used (registerAt r path n) := by
  cases path with
  | nil =>
      left
      exact List.ne_nil_of_mem (mem_insertSorted.mpr (Or.inl rfl))
  | cons key rest =>
      right
      unfold registerAt
      cases hf : hashFind key n.nodes with
      | none => simp
      | some child =>
          have hk := hashFind_replace n.nodes key (registerAt r rest child) child hf key
          intro hnil
          simp only [Node.nodes_mk] at hnil
          simp [hnil, hashFind] at hk

/-- A child that is sound and used may take the place of another one. -/
theorem sound_replace {n child child' : Node ρ} {key : List Char} (h : Sound n)
    (hf : hashFind key n.nodes = some child) (hchild : Sound child' ∧ Used child') :
    Sound (.mk n.items (hashReplace key child' n.nodes)) := by
  have hn := (sound_iff n).mp h
  rw [sound_iff]
  refine ⟨hn.1, ?_, ?_⟩
  · simp only [Node.nodes_mk, keys_replace]
    exact hn.2.1
  · intro k c hc
    simp only [Node.nodes_mk, hashFind_replace _ _ _ _ hf] at hc
    split at hc
    · cases hc
      exact hchild
    · exact hn.2.2 k c hc

theorem register_sound (r : ρ) {path : List (List Char)} {n : Node ρ} (h : Sound n) :
    Sound (registerAt r path n) := by
  induction path generalizing n with
  | nil =>
      have hn := (sound_iff n).mp h
      exact (sound_iff _).mpr ⟨insertSorted_pairwise hn.1, hn.2⟩
  | cons key rest ih =>
      have hn := (sound_iff n).mp h
      unfold registerAt
      cases hf : hashFind key n.nodes with
      | none =>
          rw [sound_iff]
          refine ⟨hn.1, keys_append _ _ _ hf hn.2.1, ?_⟩
          intro k c hc
          simp only [Node.nodes_mk, hashFind_append _ _ _ hf] at hc
          split at hc
          · cases hc
            exact ⟨ih sound_bare, register_used r rest _⟩
          · exact hn.2.2 k c hc
      | some child =>
          exact sound_replace h hf ⟨ih (hn.2.2 key child hf).1, register_used r rest _⟩

/-- A registration changes the runners of its own path only. -/
theorem register_items (r : ρ) (path p : List (List Char)) (n : Node ρ) :
    itemsAt p (registerAt r path n) =
      if p = path then insertSorted r (itemsAt path n) else itemsAt p n := by
  induction path generalizing p n with
  | nil =>
      cases p with
      | nil => rfl
      | cons k q => simp [registerAt, itemsAt_cons]
  | cons key rest ih =>
      cases p with
      | nil => cases hf : hashFind key n.nodes <;> simp [registerAt, hf]
      | cons k q =>
          rw [itemsAt_cons k q (registerAt r (key :: rest) n), itemsAt_cons k q n,
            itemsAt_cons key rest n]
          by_cases hk : k = key
          · subst hk
            cases hf : hashFind k n.nodes with
            | none =>
                have hq := ih q Node.bare
                rw [itemsAt_bare, itemsAt_bare] at hq
                simp [registerAt, hf, hashFind_append _ _ _ hf, hq]
            | some child =>
                simp [registerAt, hf, hashFind_replace _ _ _ _ hf, ih q child]
          · cases hf : hashFind key n.nodes with
            | none => simp [registerAt, hf, hashFind_append _ _ _ hf, hk]
            | some child => simp [registerAt, hf, hashFind_replace _ _ _ _ hf, hk]

/-- A deletion at a path that has a node succeeds, keeps the tree sound and changes the
runners of its own path only. -/
theorem delete_spec (r : ρ) (path : List (List Char)) (n m : Node ρ) (h : Sound n)
    (hm : descend path n = some m) :
    ∃ n', deleteAt r path n = some n' ∧ Sound n' ∧
      ∀ p, itemsAt p n' = if p = path then eraseSorted r (itemsAt path n) else itemsAt p n := by
  induction path generalizing n with
  | nil =>
      have hn := (sound_iff n).mp h
      refine ⟨_, rfl, (sound_iff _).mpr ⟨eraseSorted_pairwise hn.1, hn.2⟩, ?_⟩
      intro p
      cases p with
      | nil => rfl
      | cons k q => simp [itemsAt_cons]
  | cons key rest ih =>
      have hn := (sound_iff n).mp h
      obtain ⟨child, hf, hrest⟩ := Option.bind_eq_some_iff.mp hm
      obtain ⟨child', hdel, hsound, hitems⟩ := ih child (hn.2.2 key child hf).1 hrest
      by_cases hbare : child'.items = [] ∧ child'.nodes = []
      · refine ⟨.mk n.items (hashDel key n.nodes), by simp [deleteAt, hf, hdel, hbare], ?_, ?_⟩
        · rw [sound_iff]
          refine ⟨hn.1, keys_del _ _ hn.2.1, ?_⟩
          intro k c hc
          simp only [Node.nodes_mk, hashFind_del _ hn.2.1] at hc
          split at hc
          · cases hc
          · exact hn.2.2 k c hc
        · intro p
          cases p with
          | nil => simp
          | cons k q =>
              rw [itemsAt_cons, itemsAt_cons key rest n, itemsAt_cons k q n]
              by_cases hk : k = key
              · subst hk
                have hgone : child' = Node.bare := by
                  rw [← Node.eta child', hbare.1, hbare.2]
                  rfl
                have hq := hitems q
                rw [hgone, itemsAt_bare] at hq
                simp only [Node.nodes_mk, hashFind_del _ hn.2.1, hf, if_true, List.cons.injEq,
                  true_and]
                exact hq
              · simp [hashFind_del _ hn.2.1, hk]
      · refine ⟨.mk n.items (hashReplace key child' n.nodes), by simp [deleteAt, hf, hdel, hbare],
          ?_, ?_⟩
        · refine sound_replace h hf ⟨hsound, ?_⟩
          rw [Used, ← not_and_or]
          exact hbare
        · intro p
          cases p with
          | nil => simp
          | cons k q =>
              rw [itemsAt_cons, itemsAt_cons key rest n, itemsAt_cons k q n]
              by_cases hk : k = key
              · subst hk
                simp [hashFind_replace _ _ _ _ hf, hf, hitems q]
              · simp [hashFind_replace _ _ _ _ hf, hk]

omit [LinearOrder ρ] in
theorem gather_tip (path : List (List Char)) (n : Node ρ) :
    gatherAt true path n = itemsAt path n := by
  induction path generalizing n with
  | nil => rfl
  | cons key rest ih =>
      rw [itemsAt_cons]
      cases hf : hashFind key n.nodes <;> simp [gatherAt, hf, ih]

omit [LinearOrder ρ] in
/-- A gather on the way visits the prefixes of the path, shorter ones first. -/
theorem gather_prefixes (path : List (List Char)) (n : Node ρ) :
    gatherAt false path n = path.inits.flatMap fun p => itemsAt p n := by
  induction path generalizing n with
  | nil => simp [gatherAt]
  | cons key rest ih =>
      rw [List.inits_cons, List.flatMap_cons, List.flatMap_map]
      cases hf : hashFind key n.nodes with
      | none => simp [gatherAt, hf, itemsAt_cons]
      | some child => simp [gatherAt, hf, itemsAt_cons, ih]

/-- One call that changes the tree. -/
inductive Change (ρ : Type) : Type
  | register (uaType : List Char) (ri : ρ)
  | delete (uaType : List Char) (ri : ρ)

/-- The call of query_hash_tree that makes the change. -/
def change (root : Node ρ) : Change ρ → Option (Node ρ)
  | .register uaType ri => (queryHashTree root (some ri) uaType false none false).map Prod.fst
  | .delete uaType ri => (queryHashTree root (some ri) uaType true none false).map Prod.fst

/-- The tree after all changes, from the empty root. -/
def treeAfter (cs : List (Change ρ)) : Option (Node ρ) := cs.foldlM change Node.bare

omit [LinearOrder ρ] in
/-- The registered pairs after a change. -/
def registeredAfter (S : Set (List (List Char) × ρ)) : Change ρ → Set (List (List Char) × ρ)
  | .register uaType ri => Set.insert (components uaType, ri) S
  | .delete uaType ri => S \ {(components uaType, ri)}

def registered (cs : List (Change ρ)) : Set (List (List Char) × ρ) :=
  cs.foldl registeredAfter ∅

/-- Every deletion of the list deletes a pair that is registered at that time. -/
def DeletesRegistered (S : Set (List (List Char) × ρ)) : List (Change ρ) → Prop
  | [] => True
  | .register uaType ri :: cs => DeletesRegistered (registeredAfter S (.register uaType ri)) cs
  | .delete uaType ri :: cs =>
      (components uaType, ri) ∈ S ∧ DeletesRegistered (registeredAfter S (.delete uaType ri)) cs

/-- The array that handle_message and ua_unregister gather for a type. -/
def gather (root : Node ρ) (uaType : List Char) (tip : Bool) : Option (List ρ) :=
  (queryHashTree root none uaType false (some []) tip).bind Prod.snd

/-- The tree is sound and holds the pairs of the set. -/
structure Holds (S : Set (List (List Char) × ρ)) (root : Node ρ) : Prop where
  sound : Sound root
  mem_iff : ∀ path r, r ∈ itemsAt path root ↔ (path, r) ∈ S

theorem holds_bare : Holds (∅ : Set (List (List Char) × ρ)) Node.bare := by
  refine ⟨sound_bare, ?_⟩
  intro path r
  simp [itemsAt_bare]

theorem holds_register {S : Set (List (List Char) × ρ)} {root : Node ρ} (h : Holds S root)
    (uaType : List Char) (ri : ρ) :
    ∃ root', change root (.register uaType ri) = some root' ∧
      Holds (registeredAfter S (.register uaType ri)) root' := by
  refine ⟨registerAt ri (components uaType) root, by simp [change, query_register],
    register_sound ri h.sound, ?_⟩
  intro path r
  rw [register_items, registeredAfter]
  split
  · rename_i hp
    subst hp
    rw [mem_insertSorted, h.mem_iff]
    simp [Set.insert]
  · rename_i hp
    rw [h.mem_iff]
    simp [Set.insert, hp]

theorem holds_delete {S : Set (List (List Char) × ρ)} {root : Node ρ} (h : Holds S root)
    (uaType : List Char) (ri : ρ) (hmem : (components uaType, ri) ∈ S) :
    ∃ root', change root (.delete uaType ri) = some root' ∧
      Holds (registeredAfter S (.delete uaType ri)) root' := by
  have hri := (h.mem_iff (components uaType) ri).mpr hmem
  obtain ⟨m, hm⟩ : ∃ m, descend (components uaType) root = some m := by
    unfold itemsAt at hri
    cases hd : descend (components uaType) root with
    | none => simp [hd] at hri
    | some m => exact ⟨m, rfl⟩
  obtain ⟨root', hdel, hsound, hitems⟩ := delete_spec ri (components uaType) root m h.sound hm
  refine ⟨root', by simp [change, query_delete, hdel], hsound, ?_⟩
  intro path r
  rw [hitems, registeredAfter]
  split
  · rename_i hp
    subst hp
    rw [mem_eraseSorted (h.sound.items_sorted _), h.mem_iff]
    simp [and_comm]
  · rename_i hp
    rw [h.mem_iff]
    simp [hp]

theorem holds_treeAfter {S : Set (List (List Char) × ρ)} {root : Node ρ} (h : Holds S root)
    (cs : List (Change ρ)) (hcs : DeletesRegistered S cs) :
    ∃ root', cs.foldlM change root = some root' ∧ Holds (cs.foldl registeredAfter S) root' := by
  induction cs generalizing S root with
  | nil => exact ⟨root, rfl, h⟩
  | cons c cs ih =>
      cases c with
      | register uaType ri =>
          obtain ⟨root₁, hstep, hroot₁⟩ := holds_register h uaType ri
          obtain ⟨root', hrun, hroot'⟩ := ih hroot₁ hcs
          exact ⟨root', by simp [List.foldlM_cons, hstep, hrun], hroot'⟩
      | delete uaType ri =>
          obtain ⟨root₁, hstep, hroot₁⟩ := holds_delete h uaType ri hcs.1
          obtain ⟨root', hrun, hroot'⟩ := ih hroot₁ hcs.2
          exact ⟨root', by simp [List.foldlM_cons, hstep, hrun], hroot'⟩

/-- The tree routes a type to the runners registered for it: exactly those at the type with
`tip`, and without it those at every prefix, shorter prefixes first, each once for every
prefix it is registered at. Every array stays sorted, every node other than the root is
used, and the tree without registrations is the bare root. -/
theorem tree_routes_registered (cs : List (Change ρ)) (hcs : DeletesRegistered ∅ cs) :
    ∃ root, treeAfter cs = some root ∧
      (∀ uaType, ∃ g, gather root uaType true = some g ∧ g.Nodup ∧
        ∀ r, r ∈ g ↔ (components uaType, r) ∈ registered cs) ∧
      (∀ uaType, ∃ runnersAt : List (List Char) → List ρ,
        gather root uaType false = some ((components uaType).inits.flatMap runnersAt) ∧
        ∀ p, (runnersAt p).Nodup ∧ ∀ r, r ∈ runnersAt p ↔ (p, r) ∈ registered cs) ∧
      root.items.Pairwise (· < ·) ∧
      (∀ m, Below m root → m.items.Pairwise (· < ·) ∧ (m.items ≠ [] ∨ m.nodes ≠ [])) ∧
      (registered cs = ∅ → root = Node.bare) := by
  obtain ⟨root, hrun, hroot⟩ := holds_treeAfter holds_bare cs hcs
  have hnodup : ∀ p, (itemsAt p root).Nodup := fun p =>
    (hroot.sound.items_sorted p).imp fun h => h.ne
  refine ⟨root, hrun, ?_, ?_, hroot.sound.sorted [] root rfl, ?_, ?_⟩
  · intro uaType
    refine ⟨itemsAt (components uaType) root, ?_, hnodup _, ?_⟩
    · simp [gather, query_gather, gather_tip]
    · intro r
      exact hroot.mem_iff _ r
  · intro uaType
    refine ⟨fun p => itemsAt p root, ?_, ?_⟩
    · simp [gather, query_gather, gather_prefixes]
    · intro p
      exact ⟨hnodup p, fun r => hroot.mem_iff p r⟩
  · intro m hm
    obtain ⟨path, hne, hpath⟩ := hroot.sound.below hm
    exact ⟨hroot.sound.sorted path m hpath, hroot.sound.used path m hne hpath⟩
  · intro hempty
    refine hroot.sound.eq_bare ?_
    intro path
    rw [List.eq_nil_iff_forall_not_mem]
    intro r hr
    have hmem : (path, r) ∈ registered cs := (hroot.mem_iff path r).mp hr
    rw [hempty] at hmem
    exact hmem

theorem tree_routes_registered_example :
    treeAfter [Change.register "/A/B".toList 1, .delete "A//B/".toList 1] = some Node.bare := by
  have hcs : DeletesRegistered ∅ [Change.register "/A/B".toList 1, .delete "A//B/".toList 1] :=
    ⟨Or.inl (by decide), trivial⟩
  obtain ⟨root, hrun, -, -, -, -, hbare⟩ := tree_routes_registered _ hcs
  have hempty : registered [Change.register "/A/B".toList 1, .delete "A//B/".toList 1] = ∅ := by
    have heq : components "A//B/".toList = components "/A/B".toList := by decide
    simp only [registered, List.foldl_cons, List.foldl_nil, registeredAfter, heq]
    exact Set.eq_empty_of_forall_notMem fun x hx => hx.1.elim hx.2 id
  rw [hrun, hbare hempty]

/-- A runner registered at a type and at a prefix of it is gathered twice. -/
theorem runner_gathered_twice :
    ¬ ∀ cs : List (Change Nat), DeletesRegistered ∅ cs →
      ∃ root, treeAfter cs = some root ∧ ∀ uaType, ∃ g, gather root uaType false = some g ∧
        g.Nodup := by
  intro h
  obtain ⟨root, hrun, hgather⟩ :=
    h [.register "/A".toList 1, .register "/A/B".toList 1] trivial
  obtain ⟨g, hg, hnodup⟩ := hgather "/A/B".toList
  have hroot : treeAfter [Change.register "/A".toList 1, .register "/A/B".toList 1] =
      some (registerAt 1 (components "/A/B".toList)
        (registerAt 1 (components "/A".toList) .bare)) := by
    simp [treeAfter, change, query_register]
  rw [hroot] at hrun
  cases hrun
  rw [gather, query_gather] at hg
  have htwice : gatherAt false (components "/A/B".toList) (registerAt 1 (components "/A/B".toList)
      (registerAt 1 (components "/A".toList) .bare)) = [1, 1] := by decide
  rw [htwice] at hg
  cases hg
  revert hnodup
  decide

end EsyncUa.RoutingTree
