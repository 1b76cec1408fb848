import EsyncUa.HashedElements
import EsyncUa.PackageControl
import Mathlib.Data.Fintype.EquivFin

/-!
The tables of component.c and handler.c in memory. Their functions look a name up with HASH_FIND
and then change the element that was found, add a new one or delete and free it. What they find is
what the tables say that are a function from names to entries.
-/
namespace EsyncUa.TablesInMemory

open HashTables Components

/-- The hash and the blocks of the elements that are in use. -/
structure Memory (ν α : Type) where
  hash : Hash ν String α
  inUse : ν → Bool

/-- What a function does about the entry of a name: nothing, a store to the element, a new element
for the old one, no element any more. -/
inductive Change (α : Type)
  | keep
  | store (entry : α)
  | renew (entry : α)
  | drop

/-- `place` is where malloc puts a new element, `malloc` gives the memory of the table itself, and
`junk` is what a freed element becomes. -/
structure Call (ν α : Type) where
  name : String
  change : Option α → Change α
  place : ν
  malloc : ℕ → Bool
  junk : Junk ν String α

section Functions

/-- `comp_set_update_stage`. -/
def compSetUpdateStage (stage : UaStage) : Option CompStateInfo → Change CompStateInfo
  | some cs => .store { cs with stage := stage }
  | none => .store ⟨none, stage, none⟩

/-- `comp_set_prepared_version`. -/
def compSetPreparedVersion (preparedVer : Option String) (cid : String) :
    Option CompStateInfo → Change CompStateInfo
  | some cs => .store { cs with preparedVer := preparedVer, campaignId := some cid }
  | none =>
      match preparedVer with
      | some preparedVer => .store ⟨some preparedVer, .unknown, some cid⟩
      | none => .keep

/-- The setters of `comp_ctrl_t`, which make an entry that is zero in all else. -/
def setCtrl (change : CompCtrl → CompCtrl) : Option CompCtrl → Change CompCtrl
  | some rbc => .store (change rbc)
  | none => .store (change .zero)

/-- `comp_set_rb_type`. -/
def compSetRbType (rbType : UpdateRollback) : Option CompCtrl → Change CompCtrl :=
  setCtrl fun rbc => { rbc with rbType := rbType }

/-- `ua_enable_fake_rollback_version`. -/
def uaEnableFakeRollbackVersion : Option CompCtrl → Change CompCtrl :=
  setCtrl fun rbc => { rbc with enableFakeRbVersion := 1 }

/-- `ua_config_rollback_with_empty_backup`. -/
def uaConfigRollbackWithEmptyBackup (enable downloadRequired : Int32) :
    Option CompCtrl → Change CompCtrl :=
  setCtrl fun rbc =>
    { rbc with enableFakeRbVersion := enable, rbDownloadRequired := downloadRequired }

/-- `ua_set_custom_message`. -/
def uaSetCustomMessage (message : Option String) : Option CompCtrl → Change CompCtrl
  | some cs => .store { cs with customMsg := message }
  | none =>
      match message with
      | some message => .store { CompCtrl.zero with customMsg := some message }
      | none => .keep

/-- `ua_rollback_control`. -/
def uaRollbackControl (disable : Int32) : Option CompCtrl → Change CompCtrl
  | some _ => if disable = 0 then .drop else .keep
  | none => if disable ≠ 0 then .store { CompCtrl.zero with rbDisable := disable } else .keep

/-- `handler_chk_incoming_seq_outdated`. -/
def handlerChkIncomingSeqOutdated (num : Int32) : Option Int32 → Change Int32
  | some s => if s ≥ num then .keep else .store num
  | none => .store num

/-- `handler_update_outgoing_seq_num`: the old element is deleted and freed before the new one is
allocated. -/
def handlerUpdateOutgoingSeqNum (updateNum : Int32) : Option Int32 → Change Int32
  | some s => .renew (if updateNum > 0 then updateNum else s + 1)
  | none => .renew (if updateNum > 0 then updateNum else 0)

/-- What a change makes of a table of names. -/
def changed {α : Type} (table : Table α) (name : String) : Change α → Table α
  | .keep => table
  | .store entry | .renew entry => table.set name entry
  | .drop => table.delete name

theorem changed_compSetUpdateStage (csHead : Table CompStateInfo) (name : String)
    (stage : UaStage) : Components.compSetUpdateStage csHead (some name) stage =
      changed csHead name (compSetUpdateStage stage (csHead name)) := by
  cases h : csHead name <;> simp [Components.compSetUpdateStage, compSetUpdateStage, changed, h]

theorem changed_compSetPreparedVersion (csHead : Table CompStateInfo) (name cid : String)
    (preparedVer : Option String) :
    Components.compSetPreparedVersion csHead (some name) preparedVer (some cid) =
      changed csHead name (compSetPreparedVersion preparedVer cid (csHead name)) := by
  cases h : csHead name <;> cases preparedVer <;>
    simp [Components.compSetPreparedVersion, compSetPreparedVersion, changed, h]

theorem changed_compSetRbType (ctrl : Table CompCtrl) (name : String) (rbType : UpdateRollback) :
    Components.compSetRbType ctrl (some name) rbType =
      changed ctrl name (compSetRbType rbType (ctrl name)) := by
  cases h : ctrl name <;> simp [Components.compSetRbType, compSetRbType, setCtrl, changed, h]

theorem changed_setCtrl (ctrl : Table CompCtrl) (name : String) (change : CompCtrl → CompCtrl) :
    PackageControl.changeEntry ctrl name change =
      changed ctrl name (setCtrl change (ctrl name)) := by
  cases h : ctrl name <;> simp [PackageControl.changeEntry, setCtrl, changed, h]

theorem changed_uaSetCustomMessage (ctrl : Table CompCtrl) (name : String)
    (message : Option String) : Components.uaSetCustomMessage ctrl (some name) message =
      changed ctrl name (uaSetCustomMessage message (ctrl name)) := by
  cases h : ctrl name <;> cases message <;>
    simp [Components.uaSetCustomMessage, uaSetCustomMessage, changed, h]

theorem changed_uaRollbackControl (ctrl : Table CompCtrl) (name : String) (disable : Int32) :
    PackageControl.uaRollbackControl ctrl name disable =
      changed ctrl name (uaRollbackControl disable (ctrl name)) := by
  cases h : ctrl name <;> simp only [PackageControl.uaRollbackControl, uaRollbackControl, h] <;>
    split <;> rfl

theorem changed_handlerChkIncomingSeqOutdated (seq : Table Int32) (name : String) (num : Int32) :
    (Components.handlerChkIncomingSeqOutdated seq name num).1 =
      changed seq name (handlerChkIncomingSeqOutdated num (seq name)) := by
  cases h : seq name with
  | none =>
    simp [Components.handlerChkIncomingSeqOutdated, handlerChkIncomingSeqOutdated, changed, h]
  | some s =>
    simp only [Components.handlerChkIncomingSeqOutdated, handlerChkIncomingSeqOutdated, h]
    split <;> rfl

theorem changed_handlerUpdateOutgoingSeqNum (seq : Table Int32) (name : String)
    (updateNum : Int32) : (Components.handlerUpdateOutgoingSeqNum seq name updateNum).1 =
      changed seq name (handlerUpdateOutgoingSeqNum updateNum (seq name)) := by
  cases h : seq name <;>
    simp [Components.handlerUpdateOutgoingSeqNum, handlerUpdateOutgoingSeqNum, changed, h]

end Functions

section Calls

variable {ν α : Type} [DecidableEq ν]

def Memory.free (m : Memory ν α) (x : ν) (junk : Junk ν String α) : Option (Memory ν α) :=
  if m.inUse x then some ⟨m.hash.clobber x junk, Function.update m.inUse x false⟩ else none

/-- `HASH_DEL` and the free of the element. -/
def Memory.remove (m : Memory ν α) (x : ν) (junk : Junk ν String α) : Option (Memory ν α) :=
  ({ m with hash := hashDelete m.hash x } : Memory ν α).free x junk

/-- A new element, and `HASH_ADD_KEYPTR`. -/
def Memory.insert (fuel : ℕ) (hashFcn : String → ℕ) (m : Memory ν α) (c : Call ν α) (entry : α) :
    Option (Memory ν α) := do
  let hash : Hash ν String α := { m.hash with data := Function.update m.hash.data c.place entry }
  let hash ← hashAddKeyptr fuel c.malloc hashFcn hash c.name c.place
  some ⟨hash, Function.update m.inUse c.place true⟩

/-- A call: the memory after it and the entry that was found. -/
def Memory.perform (fuel : ℕ) (hashFcn : String → ℕ) (m : Memory ν α) (c : Call ν α) :
    Option (Memory ν α × Option α) := do
  let cs ← hashFind fuel hashFcn m.hash c.name
  let found := cs.map m.hash.data
  let m ←
    match cs, c.change found with
    | some cs, .store entry =>
        some { m with hash := { m.hash with data := Function.update m.hash.data cs entry } }
    | some cs, .renew entry => do
        let m ← m.remove cs c.junk
        m.insert fuel hashFcn c entry
    | some cs, .drop => m.remove cs c.junk
    | none, .store entry | none, .renew entry => m.insert fuel hashFcn c entry
    | none, .drop | _, .keep => some m
  some (m, found)

/-- malloc gives a block that is not in use, which may be the one just freed. -/
def Memory.Places (fuel : ℕ) (hashFcn : String → ℕ) (m : Memory ν α) (c : Call ν α) : Prop :=
  m.inUse c.place = false ∨ hashFind fuel hashFcn m.hash c.name = some (some c.place) ∧
    ∃ entry, c.change (some (m.hash.data c.place)) = .renew entry

/-- The calls one after the other with the entries that they found. -/
inductive Run (fuel : ℕ) (hashFcn : String → ℕ) :
    Memory ν α → List (Call ν α) → List (Option α) → Memory ν α → Prop
  | nil (m) : Run fuel hashFcn m [] [] m
  | cons {m m' m'' c cs r rs} (hbound : Bounded c.malloc) (hplace : m.Places fuel hashFcn c)
      (hcall : m.perform fuel hashFcn c = some (m', r)) (hrun : Run fuel hashFcn m' cs rs m'') :
      Run fuel hashFcn m (c :: cs) (r :: rs) m''

/-- The table of names after the calls. -/
def tableAfter (table : Table α) : List (Call ν α) → Table α
  | [] => table
  | c :: cs => tableAfter (changed table c.name (c.change (table c.name))) cs

/-- The entries of the names at the time of the calls. -/
def entriesAt (table : Table α) : List (Call ν α) → List (Option α)
  | [] => []
  | c :: cs => table c.name :: entriesAt (changed table c.name (c.change (table c.name))) cs

/-- The memory of a table before the first call. -/
structure Memory.Fresh (m : Memory ν α) : Prop where
  head : m.hash.head = none
  inUse : ∀ x, m.inUse x = false

/-- The memory has the entries of the table, one element for each name that has one. -/
structure Represents (hashFcn : String → ℕ) (m : Memory ν α) (table : Table α) (xs : List ν) :
    Prop where
  holds : Holds hashFcn m.hash xs
  distinct : ∀ x ∈ xs, ∀ y ∈ xs, m.hash.key x = m.hash.key y → x = y
  inUse : ∀ x, m.inUse x = true ↔ x ∈ xs
  entry : ∀ name e, table name = some e ↔ ∃ x ∈ xs, m.hash.key x = name ∧ m.hash.data x = e

/-- The blocks that a call may need for the table. -/
def Memory.blocks (m : Memory ν α) : List ℕ :=
  [sizeofUtHashTable, hashInitialNumBuckets * sizeofUtHashBucket,
    2 * m.hash.tbl.numBuckets * sizeofUtHashBucket]

variable {fuel : ℕ} {hashFcn : String → ℕ} {m : Memory ν α} {table : Table α} {xs : List ν}
  {x : ν} {name : String}

omit [DecidableEq ν] in
theorem Memory.Fresh.represents (h : m.Fresh) : Represents hashFcn m .empty [] :=
  ⟨holds_empty h.head, by simp, by simp [h.inUse], by simp [Table.empty]⟩

omit [DecidableEq ν] in
/-- HASH_FIND gives the element with the entry. -/
theorem Represents.find (h : Represents hashFcn m table xs) (hfuel : xs.length < fuel)
    (name : String) : ∃ out, hashFind fuel hashFcn m.hash name = some out ∧
      out.map m.hash.data = table name ∧ ∀ x, out = some x → x ∈ xs ∧ m.hash.key x = name := by
  obtain ⟨out, hout, hnone, hsome⟩ := h.holds.find hfuel name
  refine ⟨out, hout, ?_, hsome⟩
  cases out with
  | none =>
    rw [Option.map_none, eq_comm, Option.eq_none_iff_forall_ne_some]
    intro e he
    obtain ⟨x, hx, hkey, -⟩ := (h.entry name e).mp he
    exact hnone rfl x hx hkey
  | some x =>
    obtain ⟨hx, hkey⟩ := hsome x rfl
    exact ((h.entry name _).mpr ⟨x, hx, hkey, rfl⟩).symm

theorem Represents.store (h : Represents hashFcn m table xs) (hx : x ∈ xs)
    (hkey : m.hash.key x = name) (entry : α) :
    Represents hashFcn
      { m with hash := { m.hash with data := Function.update m.hash.data x entry } }
      (table.set name entry) xs := by
  refine ⟨h.holds.congr_data _, h.distinct, h.inUse, fun name' e => ?_⟩
  rw [Table.set_apply]
  by_cases hname : name' = name
  · subst hname
    rw [if_pos rfl]
    constructor
    · intro he
      exact ⟨x, hx, hkey, by simpa using he⟩
    · rintro ⟨y, hy, hkeyy, hdata⟩
      obtain rfl := h.distinct y hy x hx (hkeyy.trans hkey.symm)
      simpa using hdata
  · rw [if_neg hname, h.entry]
    have hother : ∀ y, m.hash.key y = name' → y ≠ x := by
      rintro y hy rfl
      exact hname (hy.symm.trans hkey)
    constructor
    · rintro ⟨y, hy, hkeyy, hdata⟩
      exact ⟨y, hy, hkeyy, by simpa [hother y hkeyy] using hdata⟩
    · rintro ⟨y, hy, hkeyy, hdata⟩
      exact ⟨y, hy, hkeyy, by simpa [hother y hkeyy] using hdata⟩

/-- Only an element in use is freed. -/
theorem Represents.remove (h : Represents hashFcn m table xs) (hx : x ∈ xs)
    (hkey : m.hash.key x = name) (junk : Junk ν String α) :
    ∃ m', m.remove x junk = some m' ∧ Represents hashFcn m' (table.delete name) (xs.erase x) ∧
      m'.inUse = Function.update m.inUse x false ∧
      m'.hash.tbl.numBuckets = m.hash.tbl.numBuckets := by
  obtain ⟨hholds, hkeys, hdata⟩ := h.holds.delete hx
  have hmem : ∀ y, y ∈ xs.erase x ↔ y ≠ x ∧ y ∈ xs := fun y => h.holds.nodup.mem_erase_iff
  have hnot : x ∉ xs.erase x := by simp [hmem]
  refine ⟨⟨(hashDelete m.hash x).clobber x junk, Function.update m.inUse x false⟩, ?_, ?_, rfl, ?_⟩
  · simp [Memory.remove, Memory.free, (h.inUse x).mpr hx]
  · have hkey' : ∀ y, y ≠ x → ((hashDelete m.hash x).clobber x junk).key y = m.hash.key y := by
      intro y hy
      simp [Hash.clobber, hy, hkeys]
    have hdata' : ∀ y, y ≠ x → ((hashDelete m.hash x).clobber x junk).data y = m.hash.data y := by
      intro y hy
      simp [Hash.clobber, hy, hdata]
    refine ⟨hholds.clobber hnot junk, ?_, ?_, fun name' e => ?_⟩
    · intro y hy z hz heq
      obtain ⟨hyx, hy⟩ := (hmem y).mp hy
      obtain ⟨hzx, hz⟩ := (hmem z).mp hz
      dsimp only at heq
      rw [hkey' y hyx, hkey' z hzx] at heq
      exact h.distinct y hy z hz heq
    · intro y
      rw [hmem, ← h.inUse]
      by_cases hyx : y = x <;> simp [hyx]
    · rw [Table.delete_apply]
      by_cases hname : name' = name
      · rw [if_pos hname]
        refine ⟨fun h => absurd h (by simp), ?_⟩
        rintro ⟨y, hy, hkeyy, -⟩
        obtain ⟨hyx, hy⟩ := (hmem y).mp hy
        dsimp only at hkeyy
        rw [hkey' y hyx, hname, ← hkey] at hkeyy
        exact absurd (h.distinct y hy x hx hkeyy) hyx
      · rw [if_neg hname, h.entry]
        constructor
        · rintro ⟨y, hy, hkeyy, hdatay⟩
          have hyx : y ≠ x := by
            rintro rfl
            exact hname (hkeyy.symm.trans hkey)
          exact ⟨y, (hmem y).mpr ⟨hyx, hy⟩, (hkey' y hyx).trans hkeyy, (hdata' y hyx).trans hdatay⟩
        · rintro ⟨y, hy, hkeyy, hdatay⟩
          obtain ⟨hyx, hy⟩ := (hmem y).mp hy
          exact ⟨y, hy, (hkey' y hyx).symm.trans hkeyy, (hdata' y hyx).symm.trans hdatay⟩
  · exact hashDelete_numBuckets m.hash x

theorem Represents.insert (h : Represents hashFcn m table xs) {c : Call ν α}
    (hbound : Bounded c.malloc) (hplace : m.inUse c.place = false) (hnone : table c.name = none)
    (hfew : xs.length + 1 < 2 ^ 32) (hfuel : xs.length + 1 < fuel) (entry : α) :
    ((∃ n ∈ m.blocks, c.malloc n = false) ∧ m.insert fuel hashFcn c entry = none) ∨
    ∃ m', m.insert fuel hashFcn c entry = some m' ∧
      Represents hashFcn m' (table.set c.name entry) (xs ++ [c.place]) := by
  have hnot : c.place ∉ xs := by
    rw [← h.inUse, hplace]
    simp
  have hne : ∀ y ∈ xs, y ≠ c.place := fun y hy heq => hnot (heq ▸ hy)
  have hother : ∀ y ∈ xs, m.hash.key y ≠ c.name := by
    intro y hy hkey
    have hsome := (h.entry c.name _).mpr ⟨y, hy, hkey, rfl⟩
    rw [hnone] at hsome
    cases hsome
  rcases (h.holds.congr_data (Function.update m.hash.data c.place entry)).add hnot hbound hfew hfuel
    c.name with ⟨⟨n, hn, hroom⟩, hexit⟩ | ⟨t', ht', hholds, hkey, hdata⟩
  · refine .inl ⟨⟨n, ?_, hroom⟩, by simp [Memory.insert, hexit]⟩
    have hsub : HashTables.blocks
        { m.hash with data := Function.update m.hash.data c.place entry } ⊆ m.blocks := by
      rw [HashTables.blocks]
      cases m.hash.head <;> simp [Memory.blocks]
    exact hsub hn
  · refine .inr ⟨⟨t', Function.update m.inUse c.place true⟩, by simp [Memory.insert, ht'],
      hholds, ?_, ?_, fun name e => ?_⟩
    · intro y hy z hz heq
      simp only [hkey, Function.update_apply] at heq
      rcases List.mem_append.mp hy with hy | hy <;> rcases List.mem_append.mp hz with hz | hz
      · rw [if_neg (hne y hy), if_neg (hne z hz)] at heq
        exact h.distinct y hy z hz heq
      · rw [if_neg (hne y hy), if_pos (by simpa using hz)] at heq
        exact absurd heq (hother y hy)
      · rw [if_pos (by simpa using hy), if_neg (hne z hz)] at heq
        exact absurd heq.symm (hother z hz)
      · exact (List.mem_singleton.mp hy).trans (List.mem_singleton.mp hz).symm
    · intro y
      rw [List.mem_append, List.mem_singleton, ← h.inUse]
      by_cases hyp : y = c.place <;> simp [hyp]
    · rw [Table.set_apply]
      simp only [hkey, hdata, List.mem_append, List.mem_singleton]
      by_cases hname : name = c.name
      · rw [if_pos hname, Option.some.injEq]
        constructor
        · rintro rfl
          exact ⟨c.place, .inr rfl, by simp [hname], by simp⟩
        · rintro ⟨y, hy | rfl, hkeyy, hdatay⟩
          · rw [Function.update_of_ne (hne y hy)] at hkeyy
            exact absurd (hkeyy.trans hname) (hother y hy)
          · simpa using hdatay
      · rw [if_neg hname, h.entry]
        constructor
        · rintro ⟨y, hy, hkeyy, hdatay⟩
          exact ⟨y, .inl hy, by simpa [hne y hy] using hkeyy, by simpa [hne y hy] using hdatay⟩
        · rintro ⟨y, hy | rfl, hkeyy, hdatay⟩
          · exact ⟨y, hy, by simpa [hne y hy] using hkeyy, by simpa [hne y hy] using hdatay⟩
          · simp only [Function.update_self] at hkeyy
            exact absurd hkeyy.symm hname

/-- A call finds the entry of its name and changes that entry alone. Otherwise memory is short. -/
theorem Represents.perform (h : Represents hashFcn m table xs) {c : Call ν α}
    (hbound : Bounded c.malloc) (hplace : m.Places fuel hashFcn c)
    (hfew : xs.length + 1 < 2 ^ 32) (hfuel : xs.length + 1 < fuel) :
    ((∃ n ∈ m.blocks, c.malloc n = false) ∧ m.perform fuel hashFcn c = none) ∨
    ∃ m' xs', m.perform fuel hashFcn c = some (m', table c.name) ∧
      Represents hashFcn m' (changed table c.name (c.change (table c.name))) xs' := by
  obtain ⟨out, hout, hfound, hmem⟩ := h.find (by omega : xs.length < fuel) c.name
  simp only [Memory.perform, hout, hfound, Option.bind_eq_bind, Option.bind_some]
  have hkeep : Represents hashFcn m (changed table c.name .keep) xs := h
  cases out with
  | none =>
    have hnone : table c.name = none := by simpa using hfound.symm
    have hfree : m.inUse c.place = false := by
      rcases hplace with hfree | ⟨hfind, -⟩
      · exact hfree
      · simp [hout] at hfind
    have hdrop : table.delete c.name = table := by
      funext name
      rw [Table.delete_apply]
      split
      · next heq => rw [heq, hnone]
      · rfl
    cases hchange : c.change (table c.name) with
    | keep => exact .inr ⟨m, xs, rfl, hkeep⟩
    | drop => exact .inr ⟨m, xs, rfl, by simpa [changed, hdrop] using h⟩
    | store entry =>
      rcases h.insert hbound hfree hnone hfew hfuel entry with ⟨hroom, hexit⟩ | ⟨m', hm', hrep⟩
      · exact .inl ⟨hroom, by simp [hexit]⟩
      · exact .inr ⟨m', _, by simp [hm'], hrep⟩
    | renew entry =>
      rcases h.insert hbound hfree hnone hfew hfuel entry with ⟨hroom, hexit⟩ | ⟨m', hm', hrep⟩
      · exact .inl ⟨hroom, by simp [hexit]⟩
      · exact .inr ⟨m', _, by simp [hm'], hrep⟩
  | some x =>
    obtain ⟨hx, hkey⟩ := hmem x rfl
    cases hchange : c.change (table c.name) with
    | keep => exact .inr ⟨m, xs, rfl, hkeep⟩
    | store entry => exact .inr ⟨_, xs, rfl, h.store hx hkey entry⟩
    | drop =>
      obtain ⟨m', hm', hrep, -⟩ := h.remove hx hkey c.junk
      exact .inr ⟨m', _, by simp [hm'], hrep⟩
    | renew entry =>
      obtain ⟨m', hm', hrep, huse, hnum⟩ := h.remove hx hkey c.junk
      have hfree : m'.inUse c.place = false := by
        rw [huse]
        by_cases heq : c.place = x
        · simp [heq]
        · rcases hplace with hfree | ⟨hfind, -⟩
          · simp [heq, hfree]
          · rw [hout] at hfind
            exact absurd (Option.some.inj (Option.some.inj hfind)).symm heq
      have hlen : (xs.erase x).length ≤ xs.length := List.length_erase_le ..
      have hgone : table.delete c.name c.name = none := by simp [Table.delete_apply]
      have hset : (table.delete c.name).set c.name entry = table.set c.name entry :=
        Function.update_idem ..
      have hfuel' : (xs.erase x).length + 1 < fuel := by omega
      rcases hrep.insert hbound hfree hgone (by omega) hfuel' entry with
        ⟨hroom, hexit⟩ | ⟨m'', hm'', hrep'⟩
      · refine .inl ⟨?_, by simp [hm', hexit]⟩
        simpa [Memory.blocks, hnum] using hroom
      · rw [hset] at hrep'
        exact .inr ⟨m'', _, by simp [hm', hm''], hrep'⟩

omit [DecidableEq ν] in
/-- The elements of a table are fewer than there are places for them. -/
theorem Represents.length_le [Fintype ν] (h : Represents hashFcn m table xs) :
    xs.length ≤ Fintype.card ν := h.holds.nodup.length_le_card

theorem Run.represents [Fintype ν] (hfew : Fintype.card ν + 1 < 2 ^ 32)
    (hfuel : Fintype.card ν + 1 < fuel) {m m' : Memory ν α} {cs : List (Call ν α)}
    {rs : List (Option α)} (hrun : Run fuel hashFcn m cs rs m') {xs : List ν}
    (h : Represents hashFcn m table xs) :
    rs = entriesAt table cs ∧ ∃ xs', Represents hashFcn m' (tableAfter table cs) xs' := by
  induction hrun generalizing table xs with
  | nil m => exact ⟨rfl, xs, h⟩
  | @cons m m₁ m' c cs r rs hbound hplace hcall _ ih =>
    have hle := h.length_le
    rcases h.perform hbound hplace (by omega) (by omega) with ⟨-, hexit⟩ | ⟨m₂, xs₂, hsome, hrep⟩
    · rw [hcall] at hexit
      cases hexit
    · rw [hcall] at hsome
      obtain ⟨rfl, rfl⟩ := Prod.mk.inj (Option.some.inj hsome)
      obtain ⟨hrs, hrep'⟩ := ih hrep
      exact ⟨by rw [hrs, entriesAt], hrep'⟩

/-- `HASH_FCN` of a string. -/
def hashOfName (name : String) : ℕ :=
  (hashJen (name.toList.flatMap String.utf8EncodeChar)).toNat

/-- Whatever the hash function gives and wherever malloc puts the elements, the functions find in
memory what the tables say, and only for want of memory does a call not return. -/
theorem tables_in_memory [Fintype ν] (hfew : Fintype.card ν + 1 < 2 ^ 32)
    (hfuel : Fintype.card ν + 1 < fuel) (hashFcn : String → ℕ) (m m' : Memory ν α)
    (cs : List (Call ν α)) (rs : List (Option α)) (hfresh : m.Fresh)
    (hrun : Run fuel hashFcn m cs rs m') :
    rs = entriesAt .empty cs ∧
    (∀ name, ∃ out, hashFind fuel hashFcn m'.hash name = some out ∧
      out.map m'.hash.data = tableAfter .empty cs name) ∧
    ∀ c : Call ν α, Bounded c.malloc → m'.Places fuel hashFcn c →
      (∀ n ∈ m'.blocks, c.malloc n = true) → ∃ m'', m'.perform fuel hashFcn c =
        some (m'', tableAfter .empty cs c.name) := by
  obtain ⟨hrs, xs, hrep⟩ := hrun.represents hfew hfuel hfresh.represents
  have hle := hrep.length_le
  refine ⟨hrs, fun name => ?_, fun c hbound hplace hroom => ?_⟩
  · obtain ⟨out, hout, hfound, -⟩ := hrep.find (by omega : xs.length < fuel) name
    exact ⟨out, hout, hfound⟩
  · rcases hrep.perform hbound hplace (by omega) (by omega) with
      ⟨⟨n, hn, hnone⟩, -⟩ | ⟨m'', -, hsome, -⟩
    · rw [hroom n hn] at hnone
      cases hnone
    · exact ⟨m'', hsome⟩

def emptyMemory : Memory (Fin 12) Int32 :=
  { hash :=
      { app := ⟨fun _ => none, fun _ => none⟩
        hh := ⟨fun _ => none, fun _ => none⟩
        key := fun _ => ""
        hashv := fun _ => 0
        data := fun _ => 0
        head := none
        tbl := ⟨[], 0, 0, 0, none, 0, 0, 0, 0⟩ }
    inUse := fun _ => false }

/-- Whether malloc may give the place of the call. -/
def Memory.mayPlace (fuel : ℕ) (hashFcn : String → ℕ) (m : Memory ν α) (c : Call ν α) : Bool :=
  !m.inUse c.place || hashFind fuel hashFcn m.hash c.name = some (some c.place) &&
    match c.change (some (m.hash.data c.place)) with
    | .renew _ => true
    | _ => false

theorem places_of_mayPlace {c : Call ν α} (h : m.mayPlace fuel hashFcn c) :
    m.Places fuel hashFcn c := by
  rw [Memory.mayPlace, Bool.or_eq_true, Bool.and_eq_true, decide_eq_true_eq] at h
  rcases h with hfree | ⟨hfound, hrenew⟩
  · exact .inl (by simpa using hfree)
  · refine .inr ⟨hfound, ?_⟩
    split at hrenew
    · next entry hchange => exact ⟨entry, hchange⟩
    · cases hrenew

/-- The calls one after the other, each at a place that malloc may give. -/
def Memory.play (fuel : ℕ) (hashFcn : String → ℕ) :
    Memory ν α → List (Call ν α) → Option (List (Option α) × Memory ν α)
  | m, [] => some ([], m)
  | m, c :: cs => do
      guard (m.mayPlace fuel hashFcn c)
      let (m', r) ← m.perform fuel hashFcn c
      let (rs, m'') ← m'.play fuel hashFcn cs
      some (r :: rs, m'')

theorem run_of_play {cs : List (Call ν α)} (hbound : ∀ c ∈ cs, Bounded c.malloc)
    {m m' : Memory ν α} {rs : List (Option α)} (h : m.play fuel hashFcn cs = some (rs, m')) :
    Run fuel hashFcn m cs rs m' := by
  induction cs generalizing m rs with
  | nil =>
    cases h
    exact .nil _
  | cons c cs ih =>
    simp only [Memory.play, Option.bind_eq_bind, Option.bind_eq_some_iff] at h
    obtain ⟨_, hguard, ⟨m₁, r⟩, hcall, ⟨rs₁, m₂⟩, hplay, heq⟩ := h
    cases heq
    have hplace : m.mayPlace fuel hashFcn c := by
      by_contra hnot
      simp [guard, hnot] at hguard
    exact .cons (hbound c List.mem_cons_self) (places_of_mayPlace hplace) hcall
      (ih (fun c hc => hbound c (List.mem_cons_of_mem _ hc)) hplay)

/-- A number is sent for each of these packages, the last of them in the block that the number
of the first one has just been freed from. -/
def sampleCalls (names : List String) : List (Call (Fin 12) Int32) :=
  let junk := ⟨some 2, some 1, none, none, "x", 5, 9⟩
  names.zipIdx.map fun n =>
    ⟨n.1, handlerUpdateOutgoingSeqNum 0, Fin.ofNat 12 (n.2 % 11), fun n => n < 2 ^ 36, junk⟩

theorem sampleCalls_bounded (names : List String) : ∀ c ∈ sampleCalls names, Bounded c.malloc := by
  intro c hc n hn
  obtain ⟨name, -, rfl⟩ := List.mem_map.mp hc
  simpa using hn

/-- Eleven packages that HASH_FCN puts in one bucket, which double the number of buckets, and the
first one again. -/
def sampleNames : List String :=
  ["pkg20", "pkg31", "pkg32", "pkg65", "pkg101", "pkg109", "pkg146", "pkg159", "pkg177", "pkg179",
    "pkg180", "pkg20"]

theorem sampleNames_run : ∃ m', Run 14 hashOfName emptyMemory (sampleCalls sampleNames)
    (List.replicate 11 none ++ [some 0]) m' ∧ m'.hash.tbl.numBuckets = 64 := by
  have hplay : (emptyMemory.play 14 hashOfName (sampleCalls sampleNames)).any fun r =>
      r.1 = List.replicate 11 none ++ [some 0] && r.2.hash.tbl.numBuckets = 64 := by
    decide +kernel
  obtain ⟨⟨rs, m'⟩, hrun, hresult⟩ := (Option.any_eq_true _ _).mp hplay
  simp only [Bool.and_eq_true, decide_eq_true_eq] at hresult
  obtain ⟨rfl, hbuckets⟩ := hresult
  exact ⟨m', run_of_play (sampleCalls_bounded _) hrun, hbuckets⟩

theorem tables_in_memory_eleven_names : ∃ (m' : Memory (Fin 12) Int32) (out out' : Option (Fin 12)),
    m'.hash.tbl.numBuckets = 64 ∧
    hashFind 14 hashOfName m'.hash "pkg20" = some out ∧ out.map m'.hash.data = some 1 ∧
    hashFind 14 hashOfName m'.hash "pkg180" = some out' ∧ out'.map m'.hash.data = some 0 := by
  obtain ⟨m', hrun, hbuckets⟩ := sampleNames_run
  obtain ⟨-, hread, -⟩ := tables_in_memory (by decide) (by decide) hashOfName emptyMemory m'
    (sampleCalls sampleNames) _ ⟨rfl, fun _ => rfl⟩ hrun
  obtain ⟨out, hout, hdata⟩ := hread "pkg20"
  obtain ⟨out', hout', hdata'⟩ := hread "pkg180"
  exact ⟨m', out, out', hbuckets, hout, hdata, hout', hdata'⟩

end Calls

section Release

variable {ν α : Type} [DecidableEq ν] {hashFcn : String → ℕ} {m : Memory ν α} {xs : List ν}
  {x : ν} {fuel : ℕ}

/-- The body of the loops that free a whole table: `release_comp_sequence` frees the name before
HASH_DEL, `comp_release_state_info` frees it after. -/
def Memory.releaseOne (m : Memory ν α) (nameFirst : Bool) (el : ν) (junk : Junk ν String α) :
    Option (Memory ν α) :=
  if nameFirst then
    ({ m with hash := { m.hash with key := Function.update m.hash.key el junk.key } } :
      Memory ν α).remove el junk
  else m.remove el junk

/-- `HASH_ITER` from `el` on, where `tmp` is the element behind it: also the elements freed. -/
def Memory.releaseFrom (nameFirst : Bool) (junk : ν → Junk ν String α) :
    ℕ → Memory ν α → Option ν → Option ν → Option (Memory ν α × List ν)
  | 0, _, _, _ => none
  | _ + 1, m, none, _ => some (m, [])
  | fuel + 1, m, some el, tmp => do
      let m ← m.releaseOne nameFirst el (junk el)
      let (m, freed) ← m.releaseFrom nameFirst junk fuel tmp (tmp.bind m.hash.app.next)
      some (m, el :: freed)

/-- `comp_release_state_info` and `release_comp_sequence`. -/
def Memory.release (fuel : ℕ) (nameFirst : Bool) (junk : ν → Junk ν String α) (m : Memory ν α) :
    Option (Memory ν α × List ν) :=
  m.releaseFrom nameFirst junk fuel m.hash.head (m.hash.head.bind m.hash.app.next)

theorem releaseOne_spec (h : Holds hashFcn m.hash (x :: xs)) (hx : m.inUse x = true)
    (nameFirst : Bool) (junk : Junk ν String α) :
    ∃ m', m.releaseOne nameFirst x junk = some m' ∧ Holds hashFcn m'.hash xs ∧
      m'.inUse = Function.update m.inUse x false := by
  have hnot : x ∉ xs := (List.nodup_cons.mp h.nodup).1
  have hdelete := (h.delete (List.mem_cons_self ..)).1
  rw [List.erase_cons_head] at hdelete
  refine ⟨⟨(hashDelete m.hash x).clobber x junk, Function.update m.inUse x false⟩, ?_,
    hdelete.clobber hnot junk, rfl⟩
  cases nameFirst with
  | false => simp [Memory.releaseOne, Memory.remove, Memory.free, hx]
  | true =>
    -- HASH_DEL does not look at the name
    have hkey : hashDelete { m.hash with key := Function.update m.hash.key x junk.key } x =
        { hashDelete m.hash x with
          key := Function.update (hashDelete m.hash x).key x junk.key } := by
      unfold hashDelete
      split <;> rfl
    simp [Memory.releaseOne, Memory.remove, Memory.free, hx, hkey, Hash.clobber]

/-- The loop reads only elements that it has not freed yet. -/
theorem releaseFrom_spec (h : Holds hashFcn m.hash xs) (huse : ∀ y ∈ xs, m.inUse y = true)
    (hfuel : xs.length < fuel) (nameFirst : Bool) (junk : ν → Junk ν String α) :
    ∃ m', m.releaseFrom nameFirst junk fuel xs.head? xs.tail.head? = some (m', xs) ∧
      m'.hash.head = none ∧ ∀ y, m'.inUse y = true ↔ m.inUse y = true ∧ y ∉ xs := by
  induction xs generalizing m fuel with
  | nil =>
    obtain ⟨n, rfl⟩ := Nat.exists_eq_add_of_lt hfuel
    exact ⟨m, by simp [Memory.releaseFrom], by simpa using h.head, by simp⟩
  | cons x xs ih =>
    obtain ⟨n, rfl⟩ : ∃ n, fuel = n + 1 := ⟨fuel - 1, by omega⟩
    obtain ⟨m₁, hm₁, hholds, huse₁⟩ :=
      releaseOne_spec h (huse x (List.mem_cons_self ..)) nameFirst (junk x)
    have hne : ∀ y ∈ xs, y ≠ x := fun y hy heq =>
      (List.nodup_cons.mp h.nodup).1 (heq ▸ hy)
    have hleft : ∀ y ∈ xs, m₁.inUse y = true := by
      intro y hy
      simp [huse₁, hne y hy, huse y (List.mem_cons_of_mem _ hy)]
    have htmp : xs.head?.bind m₁.hash.app.next = xs.tail.head? := by
      cases xs with
      | nil => rfl
      | cons y ys => exact hholds.app.threaded.next
    obtain ⟨m', hm', hhead, hin⟩ := ih hholds hleft (by simpa using hfuel)
    refine ⟨m', ?_, hhead, fun y => ?_⟩
    · rw [List.head?_cons, List.tail_cons, Memory.releaseFrom, hm₁]
      simp only [Option.bind_eq_bind, Option.bind_some, htmp, hm']
    · rw [hin, huse₁, List.mem_cons, not_or]
      by_cases hy : y = x <;> simp [hy]

/-- The loops that free a table free the element of every name once, in the order of insertion,
and leave an empty hash. Which elements they free does not depend on what freed ones become. -/
theorem release_frees_once [Fintype ν] (hfew : Fintype.card ν + 1 < 2 ^ 32)
    (hfuel : Fintype.card ν + 1 < fuel) (hashFcn : String → ℕ) (m m' : Memory ν α)
    (cs : List (Call ν α)) (rs : List (Option α)) (hfresh : m.Fresh)
    (hrun : Run fuel hashFcn m cs rs m') :
    ∃ freed : List ν, freed.Nodup ∧ (∀ x, x ∈ freed ↔ m'.inUse x = true) ∧
      (freed.map m'.hash.key).Nodup ∧
      (∀ name e, tableAfter .empty cs name = some e ↔
        ∃ x ∈ freed, m'.hash.key x = name ∧ m'.hash.data x = e) ∧
      ∀ (nameFirst : Bool) (junk : ν → Junk ν String α), ∃ m'',
        m'.release fuel nameFirst junk = some (m'', freed) ∧ m''.hash.head = none ∧
        ∀ x, m''.inUse x = false := by
  obtain ⟨-, xs, hrep⟩ := hrun.represents hfew hfuel hfresh.represents
  have hle := hrep.length_le
  have hnext : m'.hash.head.bind m'.hash.app.next = xs.tail.head? := by
    rw [hrep.holds.head]
    have happ := hrep.holds.app
    cases xs with
    | nil => rfl
    | cons y ys => exact happ.threaded.next
  have hkeys : (xs.map m'.hash.key).Nodup :=
    hrep.holds.nodup.map_on fun x hx y hy heq => hrep.distinct x hx y hy heq
  refine ⟨xs, hrep.holds.nodup, fun x => (hrep.inUse x).symm, hkeys, hrep.entry, ?_⟩
  intro nameFirst junk
  obtain ⟨m'', hm'', hhead, hin⟩ := releaseFrom_spec hrep.holds
    (fun x hx => (hrep.inUse x).mpr hx) (by omega : xs.length < fuel) nameFirst junk
  refine ⟨m'', ?_, hhead, fun x => ?_⟩
  · rw [Memory.release, hnext, hrep.holds.head]
    exact hm''
  · rw [← Bool.not_eq_true, hin, hrep.inUse]
    exact fun h => h.2 h.1

theorem release_frees_once_eleven_names :
    ∃ (m' : Memory (Fin 12) Int32) (freed : List (Fin 12)), freed.Nodup ∧
      (freed.map m'.hash.key).Nodup ∧ (∃ x ∈ freed, m'.hash.key x = "pkg20" ∧ m'.hash.data x = 1) ∧
      (∃ x ∈ freed, m'.hash.key x = "pkg180" ∧ m'.hash.data x = 0) ∧
      ∀ (nameFirst : Bool) (junk : Fin 12 → Junk (Fin 12) String Int32), ∃ m'',
        m'.release 14 nameFirst junk = some (m'', freed) ∧ m''.hash.head = none ∧
        ∀ x, m''.inUse x = false := by
  obtain ⟨m', hrun, -⟩ := sampleNames_run
  obtain ⟨freed, hnodup, -, hkeys, hentry, hrelease⟩ := release_frees_once (by decide) (by decide)
    hashOfName emptyMemory m' (sampleCalls sampleNames) _ ⟨rfl, fun _ => rfl⟩ hrun
  exact ⟨m', freed, hnodup, hkeys, (hentry "pkg20" 1).mp (by decide +kernel),
    (hentry "pkg180" 0).mp (by decide +kernel), hrelease⟩

end Release

end EsyncUa.TablesInMemory
