import EsyncUa.HashTables

/-!
What the macros of uthash.h do to the elements that a table has. HASH_FIND gives an element with
the key if there is one, HASH_ADD puts its element behind all others and HASH_DEL takes one out,
whatever the hash function is and however often the buckets have been doubled.
-/
namespace EsyncUa.HashTables

open LinkedNodes

variable {ν κ α : Type} [DecidableEq ν]

/-- The hash has the elements `xs` in the order of insertion. -/
structure Holds (hashFcn : κ → ℕ) (t : Hash ν κ α) (xs : List ν) : Prop where
  nodup : xs.Nodup
  head : t.head = xs.head?
  app : Linked t.app none xs
  hashv : ∀ x ∈ xs, t.hashv x = hashFcn (t.key x)
  fits : xs ≠ [] → Fits t xs

omit [DecidableEq ν] in
theorem Holds.congr_data {hashFcn : κ → ℕ} {t : Hash ν κ α} {xs : List ν} (h : Holds hashFcn t xs)
    (data : ν → α) : Holds hashFcn { t with data := data } xs := by
  refine ⟨h.nodup, h.head, h.app, h.hashv, fun hne => ?_⟩
  have hfits := h.fits hne
  exact ⟨hfits.tail, hfits.items, hfits.power, hfits.chained⟩

variable {hashFcn : κ → ℕ} {t : Hash ν κ α} {xs : List ν} {x : ν} {fuel : ℕ} {malloc : ℕ → Bool}

omit [DecidableEq ν] in
theorem holds_empty (h : t.head = none) : Holds hashFcn t [] :=
  ⟨by simp, by simpa using h, linked_nil, by simp, by simp⟩

omit [DecidableEq ν] in
/-- HASH_COUNT counts the elements in an unsigned integer. -/
theorem Holds.count (h : Holds hashFcn t xs) : hashCount t = unsigned xs.length := by
  cases xs with
  | nil =>
    rw [hashCount, h.head]
    rfl
  | cons y ys =>
    rw [hashCount, h.head]
    exact (h.fits (by simp)).items

section Find

variable [DecidableEq κ]

omit [DecidableEq ν] in
theorem hashFindInBkt_eq {c : List ν} (hc : Threaded t.hh c) (hfuel : c.length < fuel)
    (keyptr : κ) (hashval : ℕ) :
    hashFindInBkt t keyptr hashval fuel c.head? =
      some (c.find? fun x => t.hashv x = hashval ∧ t.key x = keyptr) := by
  induction c generalizing fuel with
  | nil =>
    obtain ⟨n, rfl⟩ : ∃ n, fuel = n + 1 := ⟨fuel - 1, by simp at hfuel; omega⟩
    rfl
  | cons x c ih =>
    obtain ⟨n, rfl⟩ : ∃ n, fuel = n + 1 := ⟨fuel - 1, by omega⟩
    rw [List.head?_cons, hashFindInBkt, List.find?_cons]
    by_cases hx : t.hashv x = hashval ∧ t.key x = keyptr
    · simp [hx]
    · rw [if_neg hx, hc.next, ih hc.tail (by simpa using hfuel)]
      simp [hx]

omit [DecidableEq ν] in
/-- HASH_FIND ends with an element that has the key, or with null if there is none. -/
theorem Holds.find (h : Holds hashFcn t xs) (hfuel : xs.length < fuel) (keyptr : κ) :
    ∃ out, hashFind fuel hashFcn t keyptr = some out ∧
      (out = none → ∀ x ∈ xs, t.key x ≠ keyptr) ∧
      ∀ x, out = some x → x ∈ xs ∧ t.key x = keyptr := by
  cases xs with
  | nil => exact ⟨none, by simp [hashFind, h.head], by simp, by simp⟩
  | cons y ys =>
    obtain ⟨k, hk, hbuckets, -⟩ := (h.fits (by simp)).power
    have hchained := (h.fits (by simp)).chained
    have hlt := hashToBkt_lt (hashFcn keyptr) hk
    rw [← hbuckets] at hlt
    obtain ⟨c, hc, hmem⟩ := hchained.chain _ hlt
    have hsub : c ⊆ y :: ys := fun z hz => ((hmem z).mp hz).1
    have hle := (List.subperm_of_subset hc.nodup hsub).length_le
    have hfind := hashFindInBkt_eq hc.linked.threaded (by omega : c.length < fuel) keyptr
      (hashFcn keyptr)
    refine ⟨c.find? fun x => t.hashv x = hashFcn keyptr ∧ t.key x = keyptr, ?_, ?_, ?_⟩
    · simp only [hashFind, h.head, List.head?_cons, hc.head]
      exact hfind
    · intro hnone x hx hkey
      have hhashv := h.hashv x hx
      rw [hkey] at hhashv
      have hxc : x ∈ c := (hmem x).mpr ⟨hx, by rw [hhashv]⟩
      have hother := List.find?_eq_none.mp hnone x hxc
      simp [hhashv, hkey] at hother
    · intro x hx
      have hfound := List.find?_some hx
      exact ⟨((hmem x).mp (List.mem_of_find?_eq_some hx)).1, (of_decide_eq_true hfound).2⟩

end Find

section Add

/-- The new element is put in its bucket, and the buckets are doubled if that was too much. -/
theorem hashAddToBkt_spec (htail : t.tbl.tail = some x)
    (hitems : t.tbl.numItems = unsigned (xs.length + 1))
    (hpower : ∃ k, k < 32 ∧ t.tbl.numBuckets = 2 ^ k ∧ t.tbl.log2NumBuckets = k)
    (hchained : Chained t.hh t.tbl.buckets (fun x => hashToBkt (t.hashv x) t.tbl.numBuckets)
      t.tbl.numBuckets xs) (hx : x ∉ xs) (hbound : Bounded malloc)
    (hfew : xs.length + 1 < 2 ^ 32) (hfuel : xs.length + 1 < fuel) {bkt : ℕ}
    (hbkt : hashToBkt (t.hashv x) t.tbl.numBuckets = bkt) :
    ((bucketAt t.tbl.buckets bkt).Full (unsigned ((bucketAt t.tbl.buckets bkt).count + 1)) ∧
      malloc (2 * t.tbl.numBuckets * sizeofUtHashBucket) = false ∧
      hashAddToBkt fuel malloc t bkt x = none) ∨
    ∃ hh tbl, hashAddToBkt fuel malloc t bkt x = some { t with hh := hh, tbl := tbl } ∧
      Fits { t with hh := hh, tbl := tbl } (xs ++ [x]) := by
  obtain ⟨k, hk, hbuckets, hlog⟩ := hpower
  have hlt : hashToBkt (t.hashv x) t.tbl.numBuckets < t.tbl.numBuckets := by
    rw [hbuckets]
    exact hashToBkt_lt _ hk
  let head := bucketAt t.tbl.buckets bkt
  let tbl := { t.tbl with
    buckets := t.tbl.buckets.set bkt ⟨some x, unsigned (head.count + 1), head.expandMult⟩ }
  let t₁ : Hash ν κ α := { t with hh := t.hh.pushFront head.hhHead x, tbl := tbl }
  have hfits : Fits t₁ (xs ++ [x]) := by
    refine ⟨by simp [t₁, tbl, htail], by simp [t₁, tbl, hitems], ⟨k, hk, hbuckets, hlog⟩, ?_⟩
    have hpush := hchained.push hx hlt head.expandMult
    rw [hbkt] at hpush
    refine hpush.congr (fun y => ?_) fun _ _ => rfl
    simp [or_comm]
  have heq : hashAddToBkt fuel malloc t bkt x =
      if head.Full (unsigned (head.count + 1)) ∧ t.tbl.noexpand ≠ 1 then
        hashExpandBuckets fuel malloc t₁
      else some t₁ := rfl
  rw [heq]
  split
  · next hgrow =>
    rcases hashExpandBuckets_spec hfits (by simp) hbound (by simpa using hfew)
      (by simpa using hfuel) with ⟨hroom, hnone⟩ | ⟨hh, tbl', hsome, hfits'⟩
    · exact .inl ⟨hgrow.1, hroom, hnone⟩
    · exact .inr ⟨hh, tbl', hsome, hfits'⟩
  · exact .inr ⟨_, _, rfl, hfits⟩

/-- HASH_ADD ends the process only where memory is short. -/
theorem Holds.add (h : Holds hashFcn t xs) (hx : x ∉ xs) (hbound : Bounded malloc)
    (hfew : xs.length + 1 < 2 ^ 32) (hfuel : xs.length + 1 < fuel) (keyptr : κ) :
    ((∃ n ∈ blocks t, malloc n = false) ∧ hashAddKeyptr fuel malloc hashFcn t keyptr x = none) ∨
    ∃ t', hashAddKeyptr fuel malloc hashFcn t keyptr x = some t' ∧
      Holds hashFcn t' (xs ++ [x]) ∧ t'.key = Function.update t.key x keyptr ∧
      t'.data = t.data := by
  have hne : ∀ y ∈ xs, y ≠ x := fun y hy heq => hx (heq ▸ hy)
  have hnodup : (xs ++ [x]).Nodup := by simpa [List.nodup_append, h.nodup] using hne
  have hhashv : ∀ y ∈ xs ++ [x], Function.update t.hashv x (hashFcn keyptr) y =
      hashFcn (Function.update t.key x keyptr y) := by
    intro y hy
    by_cases hyx : y = x
    · simp [hyx]
    · have hy : y ∈ xs := by simpa [hyx] using hy
      simp [hyx, h.hashv y hy]
  cases xs with
  | nil =>
    by_cases hroom : malloc sizeofUtHashTable ∧ malloc (hashInitialNumBuckets * sizeofUtHashBucket)
    swap
    · refine .inl ⟨?_, ?_⟩
      · rw [not_and_or] at hroom
        rcases hroom with hroom | hroom
        · exact ⟨sizeofUtHashTable, by simp [blocks, h.head], by simpa using hroom⟩
        · exact ⟨hashInitialNumBuckets * sizeofUtHashBucket, by simp [blocks, h.head],
            by simpa using hroom⟩
      · simp only [hashAddKeyptr, h.head, List.head?_nil, hashMakeTable, guard]
        rw [not_and_or] at hroom
        rcases hroom with hroom | hroom <;> simp [hroom]
    let tbl : UtHashTable ν := {
      buckets := List.replicate hashInitialNumBuckets .zero
      numBuckets := hashInitialNumBuckets
      log2NumBuckets := hashInitialNumBucketsLog2
      numItems := unsigned (0 + 1)
      tail := some x
      idealChainMaxlen := 0
      nonidealItems := 0
      ineffExpands := 0
      noexpand := 0 }
    let t₂ : Hash ν κ α := { t with
      hashv := Function.update t.hashv x (hashFcn keyptr)
      key := Function.update t.key x keyptr
      app := (t.app.setNext x none).setPrev x none
      head := some x
      tbl := tbl }
    have happ : Linked t₂.app none [x] := by
      intro l y r hl
      obtain ⟨rfl, rfl, rfl⟩ : l = [] ∧ x = y ∧ r = [] := by
        rw [eq_comm, List.append_eq_singleton_iff] at hl
        simpa [eq_comm] using hl
      simp [t₂, Links.setNext, Links.setPrev]
    have hself : hashToBkt (t₂.hashv x) t₂.tbl.numBuckets =
        hashToBkt (hashFcn keyptr) hashInitialNumBuckets := by simp [t₂, tbl]
    have heq : hashAddKeyptr fuel malloc hashFcn t keyptr x =
        hashAddToBkt fuel malloc t₂ (hashToBkt (hashFcn keyptr) hashInitialNumBuckets) x := by
      simp only [hashAddKeyptr, h.head, List.head?_nil, hashMakeTable, guard, hroom.1, hroom.2]
      rfl
    rw [heq]
    have hitems : t₂.tbl.numItems = unsigned (([] : List ν).length + 1) := rfl
    rcases hashAddToBkt_spec (t := t₂) rfl hitems ⟨5, by omega, rfl, rfl⟩
      (chained_empty _ _ _) (by simp) hbound hfew hfuel hself with
      ⟨hfull, -⟩ | ⟨hh, tbl', hsome, hfits⟩
    · -- a bucket with one element is not full
      rw [bucketAt_replicate] at hfull
      exact absurd (show 10 ≤ 1 from hfull) (by omega)
    · exact .inr ⟨_, hsome, ⟨hnodup, rfl, happ, hhashv, fun _ => hfits⟩, rfl, rfl⟩
  | cons y ys =>
    have hfits := h.fits (by simp)
    have happ : Linked (t.app.pushBack (y :: ys).getLast? x) none (y :: ys ++ [x]) :=
      h.app.pushBack hx h.nodup (by simp)
    let t₁ : Hash ν κ α := hashAppendList { t with
      hashv := Function.update t.hashv x (hashFcn keyptr)
      key := Function.update t.key x keyptr
      head := some y } x
    let t₂ : Hash ν κ α :=
      { t₁ with tbl := { t₁.tbl with numItems := unsigned (t.tbl.numItems + 1) } }
    have hitems : t₂.tbl.numItems = unsigned ((y :: ys).length + 1) := by
      simp [t₂, hfits.items, unsigned_unsigned_add]
    have hchained := hfits.chained.congr (g := fun z => hashToBkt (t₂.hashv z) t.tbl.numBuckets)
      (fun _ => Iff.rfl : ∀ z, z ∈ y :: ys ↔ z ∈ y :: ys)
      fun z hz => by simp [t₂, t₁, hashAppendList, hne z hz]
    have hself : hashToBkt (t₂.hashv x) t₂.tbl.numBuckets =
        hashToBkt (hashFcn keyptr) t.tbl.numBuckets := by simp [t₂, t₁, hashAppendList]
    have heq : hashAddKeyptr fuel malloc hashFcn t keyptr x =
        hashAddToBkt fuel malloc t₂ (hashToBkt (hashFcn keyptr) t.tbl.numBuckets) x := by
      simp only [hashAddKeyptr, h.head, List.head?_cons]
      rfl
    rw [heq]
    rcases hashAddToBkt_spec (t := t₂) rfl hitems hfits.power hchained hx hbound hfew hfuel
      hself with ⟨-, hroom, hnone⟩ | ⟨hh, tbl', hsome, hfits'⟩
    · exact .inl ⟨⟨2 * t.tbl.numBuckets * sizeofUtHashBucket, by simp [blocks, h.head], hroom⟩,
        hnone⟩
    · refine .inr ⟨_, hsome, ⟨hnodup, rfl, ?_, hhashv, fun _ => hfits'⟩, rfl, rfl⟩
      simpa [t₂, t₁, hashAppendList, hfits.tail] using happ

end Add

section Delete

/-- HASH_DEL takes the element out of both lists. With the last one the table is freed. -/
theorem Holds.delete (h : Holds hashFcn t xs) (hx : x ∈ xs) :
    Holds hashFcn (hashDelete t x) (xs.erase x) ∧ (hashDelete t x).key = t.key ∧
      (hashDelete t x).data = t.data := by
  obtain ⟨l, r, rfl⟩ := List.append_of_mem hx
  have hnodup := h.nodup
  have hcut := List.nodup_append.mp hnodup
  have hxl : x ∉ l := fun hmem => hcut.2.2 x hmem x (by simp) rfl
  have hxr : x ∉ r := (List.nodup_cons.mp hcut.2.1).1
  obtain ⟨hnext, hprev⟩ := h.app l x r rfl
  rw [Option.or_none] at hprev
  have herase : (l ++ x :: r).erase x = l ++ r := by simp [List.erase_append, hxl]
  rw [herase]
  by_cases hlast : l = [] ∧ r = []
  · obtain ⟨rfl, rfl⟩ := hlast
    have heq : hashDelete t x = { t with head := none } := by simp [hashDelete, hnext, hprev]
    rw [heq]
    exact ⟨holds_empty rfl, rfl, rfl⟩
  · have hfits := h.fits (by simp)
    obtain ⟨k, hk, hbuckets, -⟩ := hfits.power
    have hlt : hashToBkt (t.hashv x) t.tbl.numBuckets < t.tbl.numBuckets := by
      rw [hbuckets]
      exact hashToBkt_lt _ hk
    have hstay : ¬(t.app.prev x = none ∧ t.app.next x = none) := by
      simpa [hprev, hnext] using hlast
    rw [hashDelete, if_neg hstay]
    refine ⟨⟨?_, ?_, ?_, ?_, fun _ => ⟨?_, ?_, ?_, ?_⟩⟩, rfl, rfl⟩
    · exact hnodup.sublist (by simp)
    · change (if t.app.prev x = none then t.app.next x else t.head) = _
      rw [hprev, hnext, h.head]
      cases l <;> simp [List.getLast?_cons]
    · exact h.app.unlink hnodup fun _ => rfl
    · exact fun y hy => h.hashv y (by simp at hy ⊢; tauto)
    · change (if some x = t.tbl.tail then t.app.prev x else t.tbl.tail) = _
      rw [hfits.tail, hprev]
      rcases List.eq_nil_or_concat r with rfl | ⟨r, z, rfl⟩
      · simp
      · have hxz : x ≠ z := fun heq => hxr (by simp [heq])
        have hend : ∀ l' : List ν, (l' ++ r.concat z).getLast? = some z := by simp
        rw [hend, List.append_cons, hend, if_neg (by simpa using hxz)]
    · change unsigned (t.tbl.numItems + (2 ^ 32 - 1)) = _
      rw [hfits.items, unsigned_pred (List.length_pos_of_mem hx)]
      simp
    · exact hfits.power
    · have hchained := hfits.chained.remove hx hnodup hlt rfl
      rw [herase] at hchained
      exact hchained

theorem hashDelete_numBuckets (t : Hash ν κ α) (x : ν) :
    (hashDelete t x).tbl.numBuckets = t.tbl.numBuckets := by
  unfold hashDelete
  split <;> rfl

/-- What a freed element has become does not matter. -/
theorem Holds.clobber (h : Holds hashFcn t xs) (hx : x ∉ xs) (junk : Junk ν κ α) :
    Holds hashFcn (t.clobber x junk) xs := by
  have hne : ∀ y ∈ xs, y ≠ x := fun y hy heq => hx (heq ▸ hy)
  have hlinks : ∀ (m : Links ν) (p n : Option ν), ∀ y ∈ xs,
      ((m.setPrev x p).setNext x n).next y = m.next y ∧
        ((m.setPrev x p).setNext x n).prev y = m.prev y := by
    intro m p n y hy
    simp [Links.setNext, Links.setPrev, hne y hy]
  refine ⟨h.nodup, h.head, h.app.congr (hlinks _ _ _), fun y hy => ?_, fun hnil => ?_⟩
  · simpa [Hash.clobber, hne y hy] using h.hashv y hy
  · have hfits := h.fits hnil
    refine ⟨hfits.tail, hfits.items, hfits.power, hfits.chained.length, fun i hi => ?_⟩
    obtain ⟨c, hc, hmem⟩ := hfits.chained.chain i hi
    have hsub : ∀ y ∈ c, y ∈ xs := fun y hy => ((hmem y).mp hy).1
    refine ⟨c, ⟨hc.nodup, hc.linked.congr fun y hy => hlinks _ _ _ y (hsub y hy), hc.head,
      hc.count⟩, fun y => ?_⟩
    rw [hmem]
    refine and_congr_right fun hy => ?_
    simp [Hash.clobber, hne y hy]

end Delete

end EsyncUa.HashTables
