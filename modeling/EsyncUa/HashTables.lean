import EsyncUa.LinkedNodes
import Mathlib.Data.List.GetD
import Mathlib.Data.List.Perm.Subperm
import Mathlib.Data.Nat.Bitwise

/-!
The hash tables of uthash.h in memory. Every element is in the list of all elements in the order
of insertion and in the chain of its bucket. HASH_ADD doubles the buckets when a chain has grown
too long. `Holds` says which elements a table has, and every macro keeps it.
-/
namespace EsyncUa.HashTables

open LinkedNodes

/-- The value of an `unsigned`. -/
def unsigned (n : ℕ) : ℕ := n % 2 ^ 32

structure UtHashBucket (ν : Type) where
  hhHead : Option ν
  count : ℕ
  expandMult : ℕ

def UtHashBucket.zero {ν : Type} : UtHashBucket ν := ⟨none, 0, 0⟩

structure UtHashTable (ν : Type) where
  buckets : List (UtHashBucket ν)
  numBuckets : ℕ
  log2NumBuckets : ℕ
  numItems : ℕ
  tail : Option ν
  idealChainMaxlen : ℕ
  nonidealItems : ℕ
  ineffExpands : ℕ
  noexpand : ℕ

/-- The elements in memory with their hash handles and the pointer `head` of the program. All
handles point to the one `tbl`, which is there as long as `head` is not null. `data` is what the
elements hold beside the key. -/
structure Hash (ν κ α : Type) where
  app : Links ν
  hh : Links ν
  key : ν → κ
  hashv : ν → ℕ
  data : ν → α
  head : Option ν
  tbl : UtHashTable ν

def hashInitialNumBuckets : ℕ := 32

def hashInitialNumBucketsLog2 : ℕ := 5

def hashBktCapacityThresh : ℕ := 10

/-- The sizes of the structures where a pointer has eight bytes. -/
def sizeofUtHashTable : ℕ := 64

def sizeofUtHashBucket : ℕ := 16

/-- `HASH_JEN_MIX`. -/
def hashJenMix (a b c : UInt32) : UInt32 × UInt32 × UInt32 :=
  let a := (a - b - c) ^^^ (c >>> 13)
  let b := (b - c - a) ^^^ (a <<< 8)
  let c := (c - a - b) ^^^ (b >>> 13)
  let a := (a - b - c) ^^^ (c >>> 12)
  let b := (b - c - a) ^^^ (a <<< 16)
  let c := (c - a - b) ^^^ (b >>> 5)
  let a := (a - b - c) ^^^ (c >>> 3)
  let b := (b - c - a) ^^^ (a <<< 10)
  let c := (c - a - b) ^^^ (b >>> 15)
  (a, b, c)

/-- Four bytes of the key from `i` on. There are no bytes behind its end. -/
def hashJenWord (key : List UInt8) (i : ℕ) : UInt32 :=
  (key.getD i 0).toUInt32 + ((key.getD (i + 1) 0).toUInt32 <<< 8) +
    ((key.getD (i + 2) 0).toUInt32 <<< 16) + ((key.getD (i + 3) 0).toUInt32 <<< 24)

/-- The loop of `HASH_JEN` over blocks of twelve bytes, and its end with the last bytes, where the
first byte of the third number is left for the length. -/
def hashJenBlocks (keylen : ℕ) : ℕ → List UInt8 → UInt32 → UInt32 → UInt32 → UInt32
  | 0, key, i, j, hashv =>
      let hashv := hashv + UInt32.ofNat keylen + (hashJenWord (0 :: key.drop 8) 0)
      (hashJenMix (i + hashJenWord key 0) (j + hashJenWord key 4) hashv).2.2
  | n + 1, key, i, j, hashv =>
      let (i, j, hashv) := hashJenMix (i + hashJenWord key 0) (j + hashJenWord key 4)
        (hashv + hashJenWord key 8)
      hashJenBlocks keylen n (key.drop 12) i j hashv

/-- `HASH_JEN`. -/
def hashJen (key : List UInt8) : UInt32 :=
  hashJenBlocks key.length (key.length / 12) key 0x9e3779b9 0x9e3779b9 0xfeedbeef

/-- `HASH_TO_BKT`. -/
def hashToBkt (hashv numBkts : ℕ) : ℕ := hashv &&& unsigned (numBkts + (2 ^ 32 - 1))

def bucketAt {ν : Type} (buckets : List (UtHashBucket ν)) (bkt : ℕ) : UtHashBucket ν :=
  buckets.getD bkt .zero

/-- The table after `n` passes of the loop of `HASH_EXPAND_BUCKETS`. -/
structure Expansion (ν : Type) where
  hh : Links ν
  newBuckets : List (UtHashBucket ν)
  nonidealItems : ℕ

section Macros

variable {ν κ α : Type} [DecidableEq ν] [DecidableEq κ]

/-- The body of the inner loop of `HASH_EXPAND_BUCKETS`: `thh` moves to its new bucket. A division
by zero ends the process. -/
def Expansion.move (hashv : ν → ℕ) (numBuckets idealChainMaxlen : ℕ) (e : Expansion ν) (thh : ν) :
    Option (Expansion ν) :=
  let bkt := hashToBkt (hashv thh) (unsigned (numBuckets * 2))
  let newbkt := bucketAt e.newBuckets bkt
  let count := unsigned (newbkt.count + 1)
  let hh := e.hh.pushFront newbkt.hhHead thh
  if count > idealChainMaxlen then
    if idealChainMaxlen = 0 then none
    else some ⟨hh, e.newBuckets.set bkt ⟨some thh, count, count / idealChainMaxlen⟩,
      unsigned (e.nonidealItems + 1)⟩
  else some ⟨hh, e.newBuckets.set bkt ⟨some thh, count, newbkt.expandMult⟩, e.nonidealItems⟩

/-- The inner loop: the elements of one old bucket from `thh` on. -/
def Expansion.moveChain (hashv : ν → ℕ) (numBuckets idealChainMaxlen : ℕ) :
    ℕ → Expansion ν → Option ν → Option (Expansion ν)
  | 0, _, _ => none
  | _ + 1, e, none => some e
  | fuel + 1, e, some thh => do
      let hhNxt := e.hh.next thh
      let e ← e.move hashv numBuckets idealChainMaxlen thh
      e.moveChain hashv numBuckets idealChainMaxlen fuel hhNxt

/-- The longest chain if the items were spread evenly over twice the buckets. -/
def UtHashTable.ideal (tbl : UtHashTable ν) : ℕ :=
  tbl.numItems >>> unsigned (tbl.log2NumBuckets + 1) +
    if tbl.numItems &&& unsigned (unsigned (tbl.numBuckets * 2) + (2 ^ 32 - 1)) ≠ 0 then 1 else 0

/-- The table after the loops. After two expansions without effect there are no more. -/
def Expansion.finish (tbl : UtHashTable ν) (e : Expansion ν) : UtHashTable ν :=
  let ineffExpands :=
    if e.nonidealItems > tbl.numItems >>> 1 then unsigned (tbl.ineffExpands + 1) else 0
  { tbl with
    buckets := e.newBuckets
    numBuckets := unsigned (tbl.numBuckets * 2)
    log2NumBuckets := unsigned (tbl.log2NumBuckets + 1)
    idealChainMaxlen := tbl.ideal
    nonidealItems := e.nonidealItems
    ineffExpands := ineffExpands
    noexpand := if ineffExpands > 1 then 1 else tbl.noexpand }

/-- `HASH_EXPAND_BUCKETS`. `malloc` tells whether there is a block of the size. Where there is none
the process exits. -/
def hashExpandBuckets (fuel : ℕ) (malloc : ℕ → Bool) (t : Hash ν κ α) : Option (Hash ν κ α) := do
  guard (malloc (2 * t.tbl.numBuckets * sizeofUtHashBucket))
  let e ← (List.range t.tbl.numBuckets).foldlM
    (fun e i => Expansion.moveChain t.hashv t.tbl.numBuckets t.tbl.ideal fuel e
      (bucketAt t.tbl.buckets i).hhHead)
    ⟨t.hh, List.replicate (2 * t.tbl.numBuckets) .zero, 0⟩
  some { t with hh := e.hh, tbl := e.finish t.tbl }

/-- The count of the bucket has reached its limit. -/
def UtHashBucket.Full (head : UtHashBucket ν) (count : ℕ) : Prop :=
  count ≥ unsigned (unsigned (head.expandMult + 1) * hashBktCapacityThresh)

instance (head : UtHashBucket ν) (count : ℕ) : Decidable (head.Full count) :=
  inferInstanceAs (Decidable (_ ≥ _))

/-- `HASH_ADD_TO_BKT`. -/
def hashAddToBkt (fuel : ℕ) (malloc : ℕ → Bool) (t : Hash ν κ α) (bkt : ℕ) (add : ν) :
    Option (Hash ν κ α) :=
  let head := bucketAt t.tbl.buckets bkt
  let count := unsigned (head.count + 1)
  let t : Hash ν κ α :=
    { t with
      hh := t.hh.pushFront head.hhHead add
      tbl :=
        { t.tbl with buckets := t.tbl.buckets.set bkt ⟨some add, count, head.expandMult⟩ } }
  if head.Full count ∧ t.tbl.noexpand ≠ 1 then hashExpandBuckets fuel malloc t else some t

/-- `HASH_MAKE_TABLE`. -/
def hashMakeTable (malloc : ℕ → Bool) (head : ν) : Option (UtHashTable ν) := do
  guard (malloc sizeofUtHashTable)
  guard (malloc (hashInitialNumBuckets * sizeofUtHashBucket))
  some {
    buckets := List.replicate hashInitialNumBuckets .zero
    numBuckets := hashInitialNumBuckets
    log2NumBuckets := hashInitialNumBucketsLog2
    numItems := 0
    tail := some head
    idealChainMaxlen := 0
    nonidealItems := 0
    ineffExpands := 0
    noexpand := 0 }

/-- `HASH_APPEND_LIST`. -/
def hashAppendList (t : Hash ν κ α) (add : ν) : Hash ν κ α :=
  { t with
    app := t.app.pushBack t.tbl.tail add
    tbl := { t.tbl with tail := some add } }

/-- `HASH_ADD_KEYPTR`. -/
def hashAddKeyptr (fuel : ℕ) (malloc : ℕ → Bool) (hashFcn : κ → ℕ) (t : Hash ν κ α) (keyptr : κ)
    (add : ν) : Option (Hash ν κ α) := do
  let t : Hash ν κ α :=
    { t with
      hashv := Function.update t.hashv add (hashFcn keyptr)
      key := Function.update t.key add keyptr }
  let t : Hash ν κ α ←
    match t.head with
    | none => do
        let tbl ← hashMakeTable malloc add
        some { t with
          app := (t.app.setNext add none).setPrev add none
          head := some add
          tbl := tbl }
    | some _ => some (hashAppendList t add)
  let t : Hash ν κ α := { t with tbl := { t.tbl with numItems := unsigned (t.tbl.numItems + 1) } }
  hashAddToBkt fuel malloc t (hashToBkt (hashFcn keyptr) t.tbl.numBuckets) add

/-- `HASH_FIND_IN_BKT`. The handles have equal keys if `keylen` is the same and `memcmp` gives
zero. -/
def hashFindInBkt (t : Hash ν κ α) (keyptr : κ) (hashval : ℕ) : ℕ → Option ν → Option (Option ν)
  | 0, _ => none
  | _ + 1, none => some none
  | fuel + 1, some out =>
      if t.hashv out = hashval ∧ t.key out = keyptr then some (some out)
      else hashFindInBkt t keyptr hashval fuel (t.hh.next out)

/-- `HASH_FIND`. -/
def hashFind (fuel : ℕ) (hashFcn : κ → ℕ) (t : Hash ν κ α) (keyptr : κ) : Option (Option ν) :=
  match t.head with
  | none => some none
  | some _ =>
      let bkt := hashToBkt (hashFcn keyptr) t.tbl.numBuckets
      hashFindInBkt t keyptr (hashFcn keyptr) fuel (bucketAt t.tbl.buckets bkt).hhHead

/-- `HASH_DEL_IN_BKT`. -/
def hashDelInBkt (t : Hash ν κ α) (bkt : ℕ) (hhDel : ν) : Hash ν κ α :=
  let head := bucketAt t.tbl.buckets bkt
  let head :=
    { head with
      count := unsigned (head.count + (2 ^ 32 - 1))
      hhHead := if head.hhHead = some hhDel then t.hh.next hhDel else head.hhHead }
  { t with
    hh := t.hh.unlink hhDel
    tbl := { t.tbl with buckets := t.tbl.buckets.set bkt head } }

/-- `HASH_DELETE`. -/
def hashDelete (t : Hash ν κ α) (delptr : ν) : Hash ν κ α :=
  if t.app.prev delptr = none ∧ t.app.next delptr = none then { t with head := none }
  else
    let tail := if some delptr = t.tbl.tail then t.app.prev delptr else t.tbl.tail
    let head := if t.app.prev delptr = none then t.app.next delptr else t.head
    let t : Hash ν κ α :=
      { t with app := t.app.unlink delptr, head := head, tbl := { t.tbl with tail := tail } }
    let t := hashDelInBkt t (hashToBkt (t.hashv delptr) t.tbl.numBuckets) delptr
    { t with tbl := { t.tbl with numItems := unsigned (t.tbl.numItems + (2 ^ 32 - 1)) } }

/-- `HASH_REPLACE`: also the element that was replaced. -/
def hashReplace (fuel : ℕ) (malloc : ℕ → Bool) (hashFcn : κ → ℕ) (t : Hash ν κ α) (keyptr : κ)
    (add : ν) : Option (Hash ν κ α × Option ν) := do
  let replaced ← hashFind fuel hashFcn t keyptr
  let t := match replaced with
    | none => t
    | some replaced => hashDelete t replaced
  let t ← hashAddKeyptr fuel malloc hashFcn t keyptr add
  some (t, replaced)

/-- What a block of memory holds after it was freed. -/
structure Junk (ν κ α : Type) where
  prev : Option ν
  next : Option ν
  hhPrev : Option ν
  hhNext : Option ν
  key : κ
  hashv : ℕ
  data : α

def Hash.clobber (t : Hash ν κ α) (x : ν) (junk : Junk ν κ α) : Hash ν κ α :=
  { t with
    app := (t.app.setPrev x junk.prev).setNext x junk.next
    hh := (t.hh.setPrev x junk.hhPrev).setNext x junk.hhNext
    key := Function.update t.key x junk.key
    hashv := Function.update t.hashv x junk.hashv
    data := Function.update t.data x junk.data }

/-- `HASH_COUNT`. -/
def hashCount (t : Hash ν κ α) : ℕ :=
  match t.head with
  | none => 0
  | some _ => t.tbl.numItems

end Macros

section Buckets

theorem unsigned_of_lt {n : ℕ} (h : n < 2 ^ 32) : unsigned n = n := Nat.mod_eq_of_lt h

theorem unsigned_unsigned_add (m n : ℕ) : unsigned (unsigned m + n) = unsigned (m + n) :=
  Nat.mod_add_mod ..

theorem unsigned_pred {n : ℕ} (h : 0 < n) :
    unsigned (unsigned n + (2 ^ 32 - 1)) = unsigned (n - 1) := by
  rw [unsigned_unsigned_add, show n + (2 ^ 32 - 1) = n - 1 + 2 ^ 32 by omega]
  exact Nat.add_mod_right ..

theorem hashToBkt_eq (hashv : ℕ) {k : ℕ} (hk : k < 32) :
    hashToBkt hashv (2 ^ k) = hashv % 2 ^ k := by
  have hle : 2 ^ k ≤ 2 ^ 31 := Nat.pow_le_pow_right (by omega) (by omega)
  have hpos : 0 < 2 ^ k := Nat.two_pow_pos k
  have hmask : unsigned (2 ^ k + (2 ^ 32 - 1)) = 2 ^ k - 1 := by
    rw [show 2 ^ k + (2 ^ 32 - 1) = 2 ^ k - 1 + 2 ^ 32 by omega, unsigned, Nat.add_mod_right]
    exact Nat.mod_eq_of_lt (by omega)
  rw [hashToBkt, hmask, Nat.and_two_pow_sub_one_eq_mod]

theorem hashToBkt_lt (hashv : ℕ) {k : ℕ} (hk : k < 32) : hashToBkt hashv (2 ^ k) < 2 ^ k := by
  rw [hashToBkt_eq hashv hk]
  exact Nat.mod_lt _ (Nat.two_pow_pos k)

variable {ν : Type}

theorem bucketAt_set {buckets : List (UtHashBucket ν)} {bkt : ℕ} (h : bkt < buckets.length)
    (b : UtHashBucket ν) (i : ℕ) :
    bucketAt (buckets.set bkt b) i = if i = bkt then b else bucketAt buckets i := by
  unfold bucketAt
  by_cases hi : i = bkt
  · subst hi
    simp [List.getD_eq_getElem?_getD, h]
  · simp [List.getD_eq_getElem?_getD, hi, List.getElem?_set_ne (Ne.symm hi)]

theorem bucketAt_replicate (n i : ℕ) :
    bucketAt (List.replicate n (.zero : UtHashBucket ν)) i = .zero := by
  simp [bucketAt, List.getD_eq_getElem?_getD, List.getElem?_replicate]
  split <;> rfl

end Buckets

section Chains

variable {ν κ α : Type} [DecidableEq ν]

/-- The chain `c` hangs in the bucket. -/
structure InBucket (hh : Links ν) (b : UtHashBucket ν) (c : List ν) : Prop where
  nodup : c.Nodup
  linked : Linked hh none c
  head : b.hhHead = c.head?
  count : b.count = unsigned c.length

/-- The `n` buckets have the elements of `xs`, each in the bucket that `f` gives. -/
structure Chained (hh : Links ν) (buckets : List (UtHashBucket ν)) (f : ν → ℕ) (n : ℕ)
    (xs : List ν) : Prop where
  length : buckets.length = n
  chain : ∀ i, i < n → ∃ c, InBucket hh (bucketAt buckets i) c ∧ ∀ x, x ∈ c ↔ x ∈ xs ∧ f x = i

variable {hh : Links ν} {buckets : List (UtHashBucket ν)} {f g : ν → ℕ} {n : ℕ} {xs ys : List ν}
  {x : ν}

omit [DecidableEq ν] in
theorem Chained.congr (h : Chained hh buckets f n xs) (hmem : ∀ x, x ∈ ys ↔ x ∈ xs)
    (hf : ∀ x ∈ xs, g x = f x) : Chained hh buckets g n ys := by
  refine ⟨h.length, fun i hi => ?_⟩
  obtain ⟨c, hc, hcmem⟩ := h.chain i hi
  refine ⟨c, hc, fun x => ?_⟩
  rw [hcmem, hmem]
  constructor
  · rintro ⟨hx, hfx⟩
    exact ⟨hx, (hf x hx).trans hfx⟩
  · rintro ⟨hx, hgx⟩
    exact ⟨hx, (hf x hx).symm.trans hgx⟩

omit [DecidableEq ν] in
theorem chained_empty (hh : Links ν) (f : ν → ℕ) (n : ℕ) :
    Chained hh (List.replicate n .zero) f n [] := by
  refine ⟨by simp, fun i _ => ⟨[], ?_, by simp⟩⟩
  rw [bucketAt_replicate]
  exact ⟨by simp, linked_nil, rfl, rfl⟩

theorem Chained.push (h : Chained hh buckets f n xs) (hx : x ∉ xs) (hf : f x < n) (mult : ℕ) :
    Chained (hh.pushFront (bucketAt buckets (f x)).hhHead x)
      (buckets.set (f x) ⟨some x, unsigned ((bucketAt buckets (f x)).count + 1), mult⟩) f n
      (x :: xs) := by
  obtain ⟨c, hc, hcmem⟩ := h.chain (f x) hf
  have hxc : x ∉ c := fun hmem => hx ((hcmem x).mp hmem).1
  refine ⟨by simp [h.length], fun i hi => ?_⟩
  rw [bucketAt_set (by rw [h.length]; exact hf), hc.head]
  by_cases heq : i = f x
  · subst heq
    refine ⟨x :: c, ?_, fun y => ?_⟩
    · constructor
      · exact List.nodup_cons.mpr ⟨hxc, hc.nodup⟩
      · exact hc.linked.pushFront hxc hc.nodup
      · simp
      · simp [hc.count, unsigned_unsigned_add]
    · rw [List.mem_cons, List.mem_cons, hcmem]
      by_cases hy : y = x <;> simp [hy]
  · obtain ⟨d, hd, hdmem⟩ := h.chain i hi
    have hxd : x ∉ d := fun hmem => hx ((hdmem x).mp hmem).1
    have hdisj : d.Disjoint c := fun y hyd hyc =>
      heq (((hdmem y).mp hyd).2.symm.trans ((hcmem y).mp hyc).2)
    refine ⟨d, ⟨hd.nodup, hd.linked.pushFront_other hxd hdisj, ?_, ?_⟩, fun y => ?_⟩
    · simp [heq, hd.head]
    · simp [heq, hd.count]
    · rw [hdmem, List.mem_cons]
      by_cases hy : y = x
      · simp [hy, hx, Ne.symm heq]
      · simp [hy]

theorem Chained.remove (h : Chained hh buckets f n xs) (hx : x ∈ xs) (hnodup : xs.Nodup)
    (hf : f x < n) {b : UtHashBucket ν} (hb : bucketAt buckets (f x) = b) :
    Chained (hh.unlink x)
      (buckets.set (f x)
        { b with
          count := unsigned (b.count + (2 ^ 32 - 1))
          hhHead := if b.hhHead = some x then hh.next x else b.hhHead }) f n (xs.erase x) := by
  obtain ⟨c, hc, hcmem⟩ := h.chain (f x) hf
  rw [hb] at hc
  have hxc : x ∈ c := (hcmem x).mpr ⟨hx, rfl⟩
  refine ⟨by simp [h.length], fun i hi => ?_⟩
  rw [bucketAt_set (by rw [h.length]; exact hf)]
  by_cases heq : i = f x
  · subst heq
    have hcnodup := hc.nodup
    have hlinked := hc.linked
    obtain ⟨l, r, rfl⟩ := List.append_of_mem hxc
    have hcut := List.nodup_append.mp hcnodup
    have hxl : x ∉ l := fun hmem => hcut.2.2 x hmem x (by simp) rfl
    have hxr : x ∉ r := (List.nodup_cons.mp hcut.2.1).1
    refine ⟨l ++ r, ⟨?_, hlinked.unlink hcnodup fun _ => rfl, ?_, ?_⟩, fun y => ?_⟩
    · exact hcnodup.sublist (by simp)
    · have hhead : b.hhHead = some x ↔ l = [] := by
        rw [hc.head]
        cases l with
        | nil => simp
        | cons y l =>
          have hyx : y ≠ x := fun h => hxl (by simp [h])
          simp [hyx]
      rw [if_pos rfl]
      by_cases hl : l = []
      · rw [if_pos (hhead.mpr hl), (hlinked l x r rfl).1, hl, List.nil_append]
      · rw [if_neg (mt hhead.mp hl), hc.head]
        obtain ⟨y, l', rfl⟩ := List.exists_cons_of_ne_nil hl
        rfl
    · simp only [if_true]
      rw [hc.count, unsigned_pred (List.length_pos_of_mem hxc)]
      simp
    · rw [hnodup.mem_erase_iff]
      by_cases hy : y = x
      · simp [hy, hxl, hxr]
      · simpa [hy] using hcmem y
  · obtain ⟨d, hd, hdmem⟩ := h.chain i hi
    have hxd : x ∉ d := fun hmem => heq ((hdmem x).mp hmem).2.symm
    have hdisj : d.Disjoint c := fun y hyd hyc =>
      heq (((hdmem y).mp hyd).2.symm.trans ((hcmem y).mp hyc).2)
    refine ⟨d, ⟨hd.nodup, hd.linked.unlink_other hc.linked hxc hdisj, ?_, ?_⟩, fun y => ?_⟩
    · simp [heq, hd.head]
    · simp [heq, hd.count]
    · rw [hdmem, hnodup.mem_erase_iff]
      by_cases hy : y = x
      · simp [hy, Ne.symm heq]
      · simp [hy]

/-- A step of the doubling: one more element is in its new bucket, and the old chains that do not
have it are as they were. -/
theorem Expansion.move_spec {hashv : ν → ℕ} {k ideal : ℕ} {e : Expansion ν} {moved : List ν}
    (hk : k + 1 < 32) (hideal : ideal ≠ 0)
    (h : Chained e.hh e.newBuckets (fun x => hashToBkt (hashv x) (2 ^ (k + 1))) (2 ^ (k + 1)) moved)
    (hx : x ∉ moved) : ∃ e', e.move hashv (2 ^ k) ideal x = some e' ∧
      Chained e'.hh e'.newBuckets (fun x => hashToBkt (hashv x) (2 ^ (k + 1))) (2 ^ (k + 1))
        (x :: moved) ∧
      ∀ ys, x ∉ ys → Threaded e.hh ys → Threaded e'.hh ys := by
  have hdouble : unsigned (2 ^ k * 2) = 2 ^ (k + 1) := by
    rw [← Nat.pow_succ]
    exact unsigned_of_lt (Nat.pow_lt_pow_right (by omega) hk)
  have hlt := hashToBkt_lt (hashv x) hk
  have hthreads : ∀ head ys, x ∉ ys → Threaded e.hh ys → Threaded (e.hh.pushFront head x) ys :=
    fun head ys hys hold => hold.pushFront_other hys head
  simp only [Expansion.move, hdouble]
  split
  · exact ⟨_, rfl, h.push hx hlt _, hthreads _⟩
  · exact ⟨_, rfl, h.push hx hlt _, hthreads _⟩

/-- A whole old chain is moved. -/
theorem Expansion.moveChain_spec {hashv : ν → ℕ} {k ideal fuel : ℕ} {e : Expansion ν}
    {moved c : List ν} (hk : k + 1 < 32) (hideal : ideal ≠ 0)
    (h : Chained e.hh e.newBuckets (fun x => hashToBkt (hashv x) (2 ^ (k + 1))) (2 ^ (k + 1)) moved)
    (hc : Threaded e.hh c) (hnodup : c.Nodup) (hdisj : c.Disjoint moved)
    (hfuel : c.length < fuel) :
    ∃ e', e.moveChain hashv (2 ^ k) ideal fuel c.head? = some e' ∧
      Chained e'.hh e'.newBuckets (fun x => hashToBkt (hashv x) (2 ^ (k + 1))) (2 ^ (k + 1))
        (c ++ moved) ∧
      ∀ ys, c.Disjoint ys → Threaded e.hh ys → Threaded e'.hh ys := by
  induction c generalizing e moved fuel with
  | nil =>
    obtain ⟨fuel, rfl⟩ := Nat.exists_eq_add_of_lt hfuel
    exact ⟨e, by simp [Expansion.moveChain], h, fun _ _ hys => hys⟩
  | cons x c ih =>
    obtain ⟨fuel, rfl⟩ : ∃ n, fuel = n + 1 := ⟨fuel - 1, by omega⟩
    obtain ⟨hxc, hcnodup⟩ := List.nodup_cons.mp hnodup
    obtain ⟨hxmoved, hcmoved⟩ := List.disjoint_cons_left.mp hdisj
    obtain ⟨e₁, he₁, hchained, hthreads⟩ := Expansion.move_spec hk hideal h hxmoved
    have hrest : c.Disjoint (x :: moved) := List.disjoint_cons_right.mpr ⟨hxc, hcmoved⟩
    obtain ⟨e', he', hchained', hthreads'⟩ :=
      ih hchained (hthreads c hxc hc.tail) hcnodup hrest (by simpa using hfuel)
    refine ⟨e', ?_, hchained'.congr (fun y => ?_) fun _ _ => rfl, fun ys hys hold => ?_⟩
    · simp only [Expansion.moveChain, List.head?_cons, he₁, hc.next]
      exact he'
    · simp only [List.mem_append, List.mem_cons]
      tauto
    · obtain ⟨hxys, hcys⟩ := List.disjoint_cons_left.mp hys
      exact hthreads' ys hcys (hthreads ys hxys hold)

/-- The chains of all old buckets are moved. -/
theorem moveChains_spec {hashv : ν → ℕ} {k ideal fuel : ℕ} {e : Expansion ν} {moved : List ν}
    {old : List (UtHashBucket ν)} {cs : ℕ → List ν} {is : List ℕ} (hk : k + 1 < 32)
    (hideal : ideal ≠ 0)
    (h : Chained e.hh e.newBuckets (fun x => hashToBkt (hashv x) (2 ^ (k + 1))) (2 ^ (k + 1)) moved)
    (hcs : ∀ i ∈ is, Threaded e.hh (cs i) ∧ (cs i).Nodup ∧ (cs i).Disjoint moved ∧
      (cs i).length < fuel ∧ (bucketAt old i).hhHead = (cs i).head?)
    (hdisj : is.Pairwise fun i j => (cs i).Disjoint (cs j)) :
    ∃ e', is.foldlM (fun e i => Expansion.moveChain hashv (2 ^ k) ideal fuel e
        (bucketAt old i).hhHead) e = some e' ∧
      Chained e'.hh e'.newBuckets (fun x => hashToBkt (hashv x) (2 ^ (k + 1))) (2 ^ (k + 1))
        (is.flatMap cs ++ moved) := by
  induction is generalizing e moved with
  | nil => exact ⟨e, rfl, h⟩
  | cons i is ih =>
    obtain ⟨hthread, hnodup, hmoved, hfuel, hhead⟩ := hcs i (by simp)
    obtain ⟨hi, his⟩ := List.pairwise_cons.mp hdisj
    obtain ⟨e₁, he₁, hchained, hthreads⟩ :=
      Expansion.moveChain_spec hk hideal h hthread hnodup hmoved hfuel
    have hlater : ∀ j ∈ is, Threaded e₁.hh (cs j) ∧ (cs j).Nodup ∧
        (cs j).Disjoint (cs i ++ moved) ∧ (cs j).length < fuel ∧
        (bucketAt old j).hhHead = (cs j).head? := by
      intro j hj
      obtain ⟨hthreadj, hnodupj, hmovedj, hfuelj, hheadj⟩ := hcs j (by simp [hj])
      have hij : (cs j).Disjoint (cs i ++ moved) :=
        List.disjoint_append_right.mpr ⟨fun y hyj hyi => hi j hj hyi hyj, hmovedj⟩
      exact ⟨hthreads _ (hi j hj) hthreadj, hnodupj, hij, hfuelj, hheadj⟩
    obtain ⟨e', he', hchained'⟩ := ih hchained hlater his
    refine ⟨e', ?_, hchained'.congr (fun y => ?_) fun _ _ => rfl⟩
    · rw [List.foldlM_cons, hhead, he₁]
      exact he'
    · simp only [List.flatMap_cons, List.mem_append]
      tauto

end Chains

section Expansions

variable {ν κ α : Type} [DecidableEq ν] {t : Hash ν κ α} {xs : List ν} {x : ν} {fuel : ℕ}
  {malloc : ℕ → Bool}

/-- The table of the elements `xs`. -/
structure Fits (t : Hash ν κ α) (xs : List ν) : Prop where
  tail : t.tbl.tail = xs.getLast?
  items : t.tbl.numItems = unsigned xs.length
  power : ∃ k, k < 32 ∧ t.tbl.numBuckets = 2 ^ k ∧ t.tbl.log2NumBuckets = k
  chained : Chained t.hh t.tbl.buckets (fun x => hashToBkt (t.hashv x) t.tbl.numBuckets)
    t.tbl.numBuckets xs

/-- The blocks that HASH_ADD may need: a table for the first element, more buckets for a later
one. -/
def blocks (t : Hash ν κ α) : List ℕ :=
  match t.head with
  | none => [sizeofUtHashTable, hashInitialNumBuckets * sizeofUtHashBucket]
  | some _ => [2 * t.tbl.numBuckets * sizeofUtHashBucket]

/-- A block of 64 GiB is never there, so that there are fewer than 2 ^ 32 buckets. -/
def Bounded (malloc : ℕ → Bool) : Prop := ∀ n, malloc n = true → n < 2 ^ 36

omit [DecidableEq ν] in
theorem Fits.ideal_ne_zero {k : ℕ} (h : Fits t xs) (hne : xs ≠ []) (hfew : xs.length < 2 ^ 32)
    (hk : k + 1 < 32) (hbuckets : t.tbl.numBuckets = 2 ^ k) (hlog : t.tbl.log2NumBuckets = k) :
    t.tbl.ideal ≠ 0 := by
  have hitems : t.tbl.numItems = xs.length := h.items.trans (unsigned_of_lt hfew)
  have hpos : 0 < t.tbl.numItems := hitems ▸ List.length_pos_of_ne_nil hne
  have hmask : t.tbl.numItems &&& unsigned (unsigned (2 ^ k * 2) + (2 ^ 32 - 1)) =
      t.tbl.numItems % 2 ^ (k + 1) := by
    rw [← Nat.pow_succ, unsigned_of_lt (Nat.pow_lt_pow_right (by omega) hk)]
    exact hashToBkt_eq _ hk
  have hshift : unsigned (k + 1) = k + 1 := unsigned_of_lt (by omega)
  rw [UtHashTable.ideal, hbuckets, hlog, hmask, hshift, Nat.shiftRight_eq_div_pow]
  split_ifs with hrest
  · exact Nat.succ_ne_zero _
  · have hdvd : 2 ^ (k + 1) ∣ t.tbl.numItems := Nat.dvd_of_mod_eq_zero (by simpa using hrest)
    have hdiv := Nat.div_pos (Nat.le_of_dvd hpos hdvd) (Nat.two_pow_pos (k + 1))
    omega

/-- HASH_EXPAND_BUCKETS keeps all elements. Without memory the process exits. -/
theorem hashExpandBuckets_spec (h : Fits t xs) (hne : xs ≠ [])
    (hbound : Bounded malloc) (hfew : xs.length < 2 ^ 32) (hfuel : xs.length < fuel) :
    (malloc (2 * t.tbl.numBuckets * sizeofUtHashBucket) = false ∧
      hashExpandBuckets fuel malloc t = none) ∨
    ∃ hh tbl, hashExpandBuckets fuel malloc t = some { t with hh := hh, tbl := tbl } ∧
      Fits { t with hh := hh, tbl := tbl } xs := by
  obtain ⟨k, hk, hbuckets, hlog⟩ := h.power
  have hchained := h.chained
  rw [hbuckets] at hchained
  by_cases hroom : malloc (2 * t.tbl.numBuckets * sizeofUtHashBucket)
  swap
  · exact .inl ⟨by simpa using hroom, by simp [hashExpandBuckets, guard, hroom]⟩
  right
  have hk : k + 1 < 32 := by
    have hlt := hbound _ hroom
    rw [hbuckets, sizeofUtHashBucket] at hlt
    have hlt : 2 ^ (k + 5) < 2 ^ 36 := by
      rw [Nat.pow_add]
      omega
    have := (Nat.pow_lt_pow_iff_right (by omega)).mp hlt
    omega
  have hdouble : unsigned (2 ^ k * 2) = 2 ^ (k + 1) := by
    rw [← Nat.pow_succ]
    exact unsigned_of_lt (Nat.pow_lt_pow_right (by omega) hk)
  have hideal := h.ideal_ne_zero hne hfew hk hbuckets hlog
  choose! cs hcs hmem using hchained.chain
  have hchains : ∀ i ∈ List.range (2 ^ k), Threaded t.hh (cs i) ∧ (cs i).Nodup ∧
      (cs i).Disjoint [] ∧ (cs i).length < fuel ∧
      (bucketAt t.tbl.buckets i).hhHead = (cs i).head? := by
    intro i hi
    have hc := hcs i (List.mem_range.mp hi)
    have hsub : cs i ⊆ xs := fun y hy => ((hmem i (List.mem_range.mp hi) y).mp hy).1
    have hle := (List.subperm_of_subset hc.nodup hsub).length_le
    exact ⟨hc.linked.threaded, hc.nodup, by simp, by omega, hc.head⟩
  have hdisj : (List.range (2 ^ k)).Pairwise fun i j => (cs i).Disjoint (cs j) := by
    refine List.nodup_range.imp_of_mem fun {i j} hi hj hij y hyi hyj => hij ?_
    have hbi := ((hmem i (List.mem_range.mp hi) y).mp hyi).2
    have hbj := ((hmem j (List.mem_range.mp hj) y).mp hyj).2
    exact hbi.symm.trans hbj
  have hempty := chained_empty t.hh (fun x => hashToBkt (t.hashv x) (2 ^ (k + 1))) (2 ^ (k + 1))
  obtain ⟨e', he', hall⟩ := moveChains_spec (e := ⟨t.hh, List.replicate (2 ^ (k + 1)) .zero, 0⟩)
    hk hideal hempty hchains hdisj
  have hnum : (e'.finish t.tbl).numBuckets = 2 ^ (k + 1) := by
    rw [← hdouble, ← hbuckets]
    rfl
  refine ⟨e'.hh, e'.finish t.tbl, ?_, ?_⟩
  · rw [hbuckets, ← Nat.pow_succ'] at hroom
    rw [hashExpandBuckets, hbuckets, ← Nat.pow_succ', he']
    simp [guard, hroom]
  · refine ⟨h.tail, h.items, ⟨k + 1, hk, hnum, ?_⟩, ?_⟩
    · change unsigned (t.tbl.log2NumBuckets + 1) = k + 1
      rw [hlog]
      exact unsigned_of_lt (by omega)
    · simp only [hnum]
      refine hall.congr (fun y => ?_) fun _ _ => rfl
      rw [List.append_nil, List.mem_flatMap]
      constructor
      · intro hy
        have hlt := hashToBkt_lt (t.hashv y) (by omega : k < 32)
        exact ⟨_, List.mem_range.mpr hlt, (hmem _ hlt y).mpr ⟨hy, rfl⟩⟩
      · rintro ⟨i, hi, hyi⟩
        exact ((hmem i (List.mem_range.mp hi) y).mp hyi).1

end Expansions

end EsyncUa.HashTables
