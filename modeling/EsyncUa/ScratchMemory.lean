import EsyncUa.ByteStores
import EsyncUa.CStrings

/-!
The scratch memory of the delta decoder (`espatch.c`). The buffer grows when a block is written
or erased behind its end; `realloc` returns into the pointer that the flash callbacks look at
to tell scratch memory from the scratch file, so a growth that fails loses both.
-/
namespace EsyncUa.ScratchMemory

open ByteStores CStrings

structure Espatchctx where
  reffd : Int
  newfd : Int
  scratchfd : Int
  scratchbuf : Option (List Byte)
  scratchsize : Nat

/-- What a call returns, the bytes it puts into the caller's buffer, and the context after it. -/
structure Answer where
  returned : Nat
  delivered : List Byte
  ctx : Espatchctx

/-- `scratchmem_readblock`; `none` is a copy from outside of the buffer. -/
def scratchmemReadblock (ctx : Espatchctx) (blkoffset length : Nat) : Option Answer :=
  if sizeT (blkoffset + length : Nat) > ctx.scratchsize then some ⟨0, [], ctx⟩
  else
    match ctx.scratchbuf with
    | none => none
    | some buf =>
        if blkoffset + length ≤ buf.length then
          some ⟨length, slice buf blkoffset length, ctx⟩
        else none

/-- The block is put into the buffer; `none` is a write outside of it. -/
def putBlock (ctx : Espatchctx) (blkoffset : Nat) (block : List Byte) : Option Answer :=
  match ctx.scratchbuf with
  | none => none
  | some buf =>
      if blkoffset + block.length ≤ buf.length then
        some ⟨block.length, [], { ctx with scratchbuf := some (overwrite buf blkoffset block) }⟩
      else none

/-- `realloc` of the scratch buffer: NULL without memory, else a buffer whose new bytes are
indeterminate. -/
def reallocScratch (ctx : Espatchctx) (size : Nat) (memory : Option (Nat → Byte)) :
    Option (List Byte) :=
  memory.map (resize (ctx.scratchbuf.getD []) size)

/-- The common body of erasing and writing. -/
def storeBlock (ctx : Espatchctx) (blkoffset : Nat) (block : List Byte)
    (memory : Option (Nat → Byte)) : Option Answer :=
  let size := sizeT (blkoffset + block.length : Nat)
  if size > ctx.scratchsize then
    match reallocScratch ctx size memory with
    | none => some ⟨0, [], { ctx with scratchbuf := none }⟩
    | some buf =>
        putBlock { ctx with scratchbuf := some buf, scratchsize := size } blkoffset block
  else putBlock ctx blkoffset block

def scratchmemEraseblock (ctx : Espatchctx) (blkoffset length : Nat)
    (memory : Option (Nat → Byte)) : Option Answer :=
  storeBlock ctx blkoffset (List.replicate length 0xff) memory

def scratchmemWriteblock (ctx : Espatchctx) (blkoffset : Nat) (buffer : List Byte)
    (memory : Option (Nat → Byte)) : Option Answer :=
  storeBlock ctx blkoffset buffer memory

inductive Espflashbank
  | ref | new | scratch
  deriving DecidableEq

/-- Where a flash callback goes: into scratch memory with this answer, or to a file. -/
inductive FlashAccess
  | scratchmem (answer : Option Answer)
  | file (fd : Int)

/-- The choice at the beginning of the three flash callbacks. -/
def flashBlock (ctx : Espatchctx) (bank : Espflashbank) (scratchmem : Option Answer) :
    FlashAccess :=
  if bank = .scratch ∧ ctx.scratchbuf.isSome then .scratchmem scratchmem
  else .file (if bank = .new then ctx.newfd else if bank = .ref then ctx.reffd else ctx.scratchfd)

def flashReadblock (ctx : Espatchctx) (bank : Espflashbank) (blkoffset length : Nat) :
    FlashAccess :=
  flashBlock ctx bank (scratchmemReadblock ctx blkoffset length)

def flashEraseblock (ctx : Espatchctx) (bank : Espflashbank) (blkoffset length : Nat)
    (memory : Option (Nat → Byte)) : FlashAccess :=
  flashBlock ctx bank (scratchmemEraseblock ctx blkoffset length memory)

def flashWriteblock (ctx : Espatchctx) (bank : Espflashbank) (blkoffset : Nat)
    (buffer : List Byte) (memory : Option (Nat → Byte)) : FlashAccess :=
  flashBlock ctx bank (scratchmemWriteblock ctx blkoffset buffer memory)

/-- The context that `espatch` starts with; the new buffer's bytes are indeterminate. -/
def initial (reffd newfd : Int) (memory : Nat → Byte) : Espatchctx where
  reffd := reffd
  newfd := newfd
  scratchfd := 0
  scratchbuf := some (resize [] 16384 memory)
  scratchsize := 16384

inductive Operation
  | read (blkoffset length : Nat)
  | erase (blkoffset length : Nat)
  | write (blkoffset : Nat) (buffer : List Byte)

namespace Operation

def blkoffset : Operation → Nat
  | read blkoffset _ | erase blkoffset _ | write blkoffset _ => blkoffset

def length : Operation → Nat
  | read _ length | erase _ length => length
  | write _ buffer => buffer.length

/-- What a store holds after the operation has succeeded. -/
def recorded : Operation → Store Byte → Store Byte
  | read _ _, store => store
  | erase blkoffset length, store => store.record blkoffset (List.replicate length 0xff)
  | write blkoffset buffer, store => store.record blkoffset buffer

/-- The size that the buffer needs for the operation. -/
def reach : Operation → Nat
  | read _ _ => 0
  | erase blkoffset length => blkoffset + length
  | write blkoffset buffer => blkoffset + buffer.length

end Operation

/-- A call, with the memory that `realloc` has if the buffer must grow for it. -/
structure Call where
  operation : Operation
  memory : Option (Nat → Byte)
  bounded : operation.blkoffset + operation.length < 2 ^ 64

namespace Call

def perform (call : Call) (ctx : Espatchctx) : Option Answer :=
  match call.operation with
  | .read blkoffset length => scratchmemReadblock ctx blkoffset length
  | .erase blkoffset length => scratchmemEraseblock ctx blkoffset length call.memory
  | .write blkoffset buffer => scratchmemWriteblock ctx blkoffset buffer call.memory

/-- The store after the call, which has succeeded if it returns the length of its block. -/
def stored (call : Call) (answer : Answer) (store : Store Byte) : Store Byte :=
  if answer.returned = call.operation.length then call.operation.recorded store else store

theorem stored_of_success (call : Call) (answer : Answer) (store : Store Byte)
    (h : answer.returned = call.operation.length) :
    call.stored answer store = call.operation.recorded store := if_pos h

/-- A successful read delivers the last value stored at each of its bytes. -/
def Honest (call : Call) (store : Store Byte) (answer : Answer) : Prop :=
  ∀ blkoffset length, call.operation = .read blkoffset length → answer.returned = length →
    answer.delivered.length = length ∧
      ∀ i value, i < length → store (blkoffset + i) = some value →
        answer.delivered[i]? = some value

end Call

/-- What is stored can be read, and the scratch bank is still in memory. -/
structure Kept (ctx : Espatchctx) (store : Store Byte) : Prop where
  readable : ∀ i value, store i = some value →
    ∃ answer, scratchmemReadblock ctx i 1 = some answer ∧ answer.returned = 1 ∧
      answer.delivered = [value]
  reads_memory : ∀ blkoffset length, flashReadblock ctx .scratch blkoffset length =
    .scratchmem (scratchmemReadblock ctx blkoffset length)
  erases_memory : ∀ blkoffset length memory, flashEraseblock ctx .scratch blkoffset length memory =
    .scratchmem (scratchmemEraseblock ctx blkoffset length memory)
  writes_memory : ∀ blkoffset buffer memory, flashWriteblock ctx .scratch blkoffset buffer memory =
    .scratchmem (scratchmemWriteblock ctx blkoffset buffer memory)

/-- Every call of the run has a result, reads are honest, and each call keeps the store. -/
def Faithful : Espatchctx → Store Byte → List Call → Prop
  | _, _, [] => True
  | ctx, store, call :: calls =>
      ∃ answer, call.perform ctx = some answer ∧ call.Honest store answer ∧
        Kept answer.ctx (call.stored answer store) ∧
        Faithful answer.ctx (call.stored answer store) calls

/-- There is memory whenever the buffer of the given size must grow. -/
def Granted : Nat → List Call → Prop
  | _, [] => True
  | size, call :: calls =>
      (size < call.operation.reach → call.memory ≠ none) ∧
        Granted (max size call.operation.reach) calls

/-- The buffer has the noted size and holds the store. -/
structure Allocated (ctx : Espatchctx) (store : Store Byte) : Prop where
  buffer : ∃ buf, ctx.scratchbuf = some buf ∧ buf.length = ctx.scratchsize ∧ Holds buf store
  bounded : ctx.scratchsize < 2 ^ 64

theorem initial_allocated (reffd newfd : Int) (memory : Nat → Byte) :
    Allocated (initial reffd newfd memory) Store.empty where
  buffer := ⟨_, rfl, length_resize [] 16384 memory, holds_empty _⟩
  bounded := by
    change 16384 < 2 ^ 64
    decide

theorem Allocated.read {ctx : Espatchctx} {store : Store Byte} (h : Allocated ctx store)
    (blkoffset length : Nat) (hbounded : blkoffset + length < 2 ^ 64) :
    ∃ buf, Holds buf store ∧ buf.length = ctx.scratchsize ∧
      scratchmemReadblock ctx blkoffset length =
        if blkoffset + length ≤ buf.length then some ⟨length, slice buf blkoffset length, ctx⟩
        else some ⟨0, [], ctx⟩ := by
  obtain ⟨buf, hbuf, hsize, hholds⟩ := h.buffer
  refine ⟨buf, hholds, hsize, ?_⟩
  unfold scratchmemReadblock
  rw [sizeT_of_lt hbounded, hbuf]
  by_cases hinside : blkoffset + length ≤ buf.length
  · rw [if_neg (by omega), if_pos hinside]
    exact if_pos hinside
  · rw [if_pos (by omega), if_neg hinside]

theorem Allocated.putBlock {ctx : Espatchctx} {store : Store Byte} (h : Allocated ctx store)
    (blkoffset : Nat) (block : List Byte) (hfits : blkoffset + block.length ≤ ctx.scratchsize) :
    ∃ answer, putBlock ctx blkoffset block = some answer ∧ answer.returned = block.length ∧
      Allocated answer.ctx (store.record blkoffset block) ∧
      answer.ctx.scratchsize = ctx.scratchsize := by
  obtain ⟨buf, hbuf, hsize, hholds⟩ := h.buffer
  have hinside : blkoffset + block.length ≤ buf.length := by omega
  refine ⟨⟨block.length, [], { ctx with scratchbuf := some (overwrite buf blkoffset block) }⟩,
    ?_, rfl, ⟨⟨_, rfl, ?_, hholds.overwrite blkoffset block hinside⟩, h.bounded⟩, rfl⟩
  · unfold ScratchMemory.putBlock
    rw [hbuf]
    exact if_pos hinside
  · exact (length_overwrite buf blkoffset block hinside).trans hsize

/-- A larger buffer still holds what has been stored. -/
theorem Allocated.grown {ctx : Espatchctx} {store : Store Byte} (h : Allocated ctx store)
    (size : Nat) (fresh : Nat → Byte) (hgrows : ctx.scratchsize < size) (hsize : size < 2 ^ 64) :
    ∃ buf, reallocScratch ctx size (some fresh) = some buf ∧
      Allocated { ctx with scratchbuf := some buf, scratchsize := size } store := by
  obtain ⟨buf, hbuf, hlength, hholds⟩ := h.buffer
  refine ⟨resize buf size fresh, ?_, ⟨_, rfl, length_resize buf size fresh, ?_⟩, hsize⟩
  · rw [reallocScratch, hbuf, Option.map_some, Option.getD_some]
  · exact hholds.resize size fresh (by omega)

theorem Allocated.storeBlock {ctx : Espatchctx} {store : Store Byte} (h : Allocated ctx store)
    (blkoffset : Nat) (block : List Byte) (memory : Option (Nat → Byte))
    (hbounded : blkoffset + block.length < 2 ^ 64)
    (hmemory : ctx.scratchsize < blkoffset + block.length → memory ≠ none) :
    ∃ answer, storeBlock ctx blkoffset block memory = some answer ∧
      answer.returned = block.length ∧
      Allocated answer.ctx (store.record blkoffset block) ∧
      answer.ctx.scratchsize = max ctx.scratchsize (blkoffset + block.length) := by
  unfold ScratchMemory.storeBlock
  rw [sizeT_of_lt hbounded]
  by_cases hgrows : ctx.scratchsize < blkoffset + block.length
  · obtain ⟨fresh, rfl⟩ := Option.ne_none_iff_exists'.mp (hmemory hgrows)
    obtain ⟨buf, hbuf, hgrown⟩ := h.grown _ fresh hgrows hbounded
    obtain ⟨answer, hput, hreturned, hallocated, hsize⟩ :=
      hgrown.putBlock blkoffset block (le_refl _)
    refine ⟨answer, ?_, hreturned, hallocated, ?_⟩
    · rw [if_pos hgrows, hbuf]
      exact hput
    · rw [hsize]
      exact (max_eq_right hgrows.le).symm
  · obtain ⟨answer, hput, hreturned, hallocated, hsize⟩ :=
      h.putBlock blkoffset block (by omega)
    refine ⟨answer, ?_, hreturned, hallocated, ?_⟩
    · rw [if_neg hgrows]
      exact hput
    · rw [hsize]
      exact (max_eq_left (by omega)).symm

/-- Without memory for a growth the pointer to the buffer is lost. -/
theorem storeBlock_failed (ctx : Espatchctx) (blkoffset : Nat) (block : List Byte)
    (hbounded : blkoffset + block.length < 2 ^ 64)
    (hgrows : ctx.scratchsize < blkoffset + block.length) :
    storeBlock ctx blkoffset block none = some ⟨0, [], { ctx with scratchbuf := none }⟩ := by
  unfold storeBlock
  rw [sizeT_of_lt hbounded, if_pos hgrows]
  rfl

theorem Allocated.kept {ctx : Espatchctx} {store : Store Byte} (h : Allocated ctx store) :
    Kept ctx store := by
  have hmemory (scratchmem : Option Answer) :
      flashBlock ctx .scratch scratchmem = .scratchmem scratchmem := by
    obtain ⟨buf, hbuf, -⟩ := h.buffer
    exact if_pos ⟨rfl, by rw [hbuf]; rfl⟩
  refine ⟨?_, fun _ _ => hmemory _, fun _ _ _ => hmemory _, fun _ _ _ => hmemory _⟩
  intro i value hvalue
  obtain ⟨buf, -, hsize, hholds⟩ := h.buffer
  have hi := hholds.lt_length hvalue
  have hbounded := h.bounded
  obtain ⟨buf, hholds, hsize, hread⟩ := h.read i 1 (by omega)
  have hinside := hholds.lt_length hvalue
  rw [if_pos (by omega)] at hread
  refine ⟨_, hread, rfl, ?_⟩
  have hlength := length_slice buf i 1 (by omega)
  obtain ⟨only, honly⟩ := List.length_eq_one_iff.mp hlength
  have hfirst := hholds.slice i 1 0 value (by omega) hvalue
  rw [honly] at hfirst ⊢
  rw [Option.some.inj hfirst]

/-- One call that gets the memory it needs. -/
theorem Allocated.perform {ctx : Espatchctx} {store : Store Byte} (h : Allocated ctx store)
    (call : Call) (hmemory : ctx.scratchsize < call.operation.reach → call.memory ≠ none) :
    ∃ answer, call.perform ctx = some answer ∧ call.Honest store answer ∧
      Allocated answer.ctx (call.stored answer store) ∧
      answer.ctx.scratchsize = max ctx.scratchsize call.operation.reach := by
  obtain ⟨operation, memory, hbounded⟩ := call
  cases operation with
  | read blkoffset length =>
    obtain ⟨buf, hholds, hsize, hread⟩ := h.read blkoffset length hbounded
    have hsame (answer : Answer) :
        Call.stored ⟨.read blkoffset length, memory, hbounded⟩ answer store = store := ite_self _
    by_cases hinside : blkoffset + length ≤ buf.length
    · rw [if_pos hinside] at hread
      refine ⟨_, hread, ?_, by rw [hsame]; exact h, (Nat.max_zero _).symm⟩
      rintro _ _ ⟨rfl, rfl⟩ -
      exact ⟨length_slice buf blkoffset length hinside,
        fun i value hi hvalue => hholds.slice blkoffset length i value hi hvalue⟩
    · rw [if_neg hinside] at hread
      refine ⟨_, hread, ?_, by rw [hsame]; exact h, (Nat.max_zero _).symm⟩
      rintro _ _ ⟨rfl, rfl⟩ hzero
      obtain rfl : 0 = length := hzero
      exact ⟨rfl, fun i _ hi => absurd hi (Nat.not_lt_zero i)⟩
  | erase blkoffset length =>
    have hlength : (List.replicate length (0xff : Byte)).length = length := List.length_replicate
    obtain ⟨answer, hstore, hreturned, hallocated, hsize⟩ :=
      h.storeBlock blkoffset (List.replicate length 0xff) memory
        (by rw [hlength]; exact hbounded) (by rw [hlength]; exact hmemory)
    rw [hlength] at hreturned hsize
    refine ⟨answer, hstore, nofun, ?_, hsize⟩
    rw [Call.stored_of_success ⟨.erase blkoffset length, memory, hbounded⟩ answer store hreturned]
    exact hallocated
  | write blkoffset buffer =>
    obtain ⟨answer, hstore, hreturned, hallocated, hsize⟩ :=
      h.storeBlock blkoffset buffer memory hbounded hmemory
    refine ⟨answer, hstore, nofun, ?_, hsize⟩
    rw [Call.stored_of_success ⟨.write blkoffset buffer, memory, hbounded⟩ answer store hreturned]
    exact hallocated

/-- One call for which the buffer cannot grow. -/
theorem perform_failed (ctx : Espatchctx) (call : Call)
    (hgrows : ctx.scratchsize < call.operation.reach) (hmemory : call.memory = none) :
    call.perform ctx = some ⟨0, [], { ctx with scratchbuf := none }⟩ := by
  obtain ⟨operation, memory, hbounded⟩ := call
  obtain rfl : memory = none := hmemory
  cases operation with
  | read blkoffset length => exact absurd hgrows (Nat.not_lt_zero _)
  | erase blkoffset length =>
    have hlength : (List.replicate length (0xff : Byte)).length = length := List.length_replicate
    exact storeBlock_failed ctx blkoffset _ (by rw [hlength]; exact hbounded)
      (by rw [hlength]; exact hgrows)
  | write blkoffset buffer => exact storeBlock_failed ctx blkoffset buffer hbounded hgrows

/-- Once the pointer is lost, the scratch bank is looked for in the scratch file. -/
theorem flashBlock_lost (ctx : Espatchctx) (scratchmem : Option Answer) :
    flashBlock { ctx with scratchbuf := none } .scratch scratchmem = .file ctx.scratchfd := by
  simp [flashBlock]

theorem not_kept_lost (ctx : Espatchctx) (store : Store Byte) :
    ¬Kept { ctx with scratchbuf := none } store := by
  intro h
  have hread := h.reads_memory 0 0
  rw [flashReadblock, flashBlock_lost] at hread
  exact absurd hread nofun

theorem Allocated.faithful_iff {ctx : Espatchctx} {store : Store Byte} (h : Allocated ctx store)
    (calls : List Call) : Faithful ctx store calls ↔ Granted ctx.scratchsize calls := by
  induction calls generalizing ctx store with
  | nil => exact Iff.rfl
  | cons call calls ih =>
    by_cases hmemory : ctx.scratchsize < call.operation.reach → call.memory ≠ none
    · obtain ⟨answer, hperform, hhonest, hallocated, hsize⟩ := h.perform call hmemory
      have hrest := ih hallocated
      rw [hsize] at hrest
      constructor
      · rintro ⟨answer', hperform', -, -, hfaithful⟩
        obtain rfl := Option.some.inj (hperform.symm.trans hperform')
        exact ⟨hmemory, hrest.mp hfaithful⟩
      · rintro ⟨-, hgranted⟩
        exact ⟨answer, hperform, hhonest, hallocated.kept, hrest.mpr hgranted⟩
    · obtain ⟨hgrows, hnone⟩ := Classical.not_imp.mp hmemory
      refine iff_of_false ?_ fun hgranted => hmemory hgranted.1
      rintro ⟨answer, hperform, -, hkept, -⟩
      rw [perform_failed ctx call hgrows (not_not.mp hnone)] at hperform
      obtain rfl := Option.some.inj hperform
      exact not_kept_lost ctx _ hkept

/-- Scratch memory is a faithful store over a run exactly when no growth of the buffer fails
in it. -/
theorem keeps_store_iff (reffd newfd : Int) (memory : Nat → Byte) (calls : List Call) :
    Faithful (initial reffd newfd memory) Store.empty calls ↔ Granted 16384 calls :=
  (initial_allocated reffd newfd memory).faithful_iff calls

/-- A byte is written, then a block behind the buffer is erased for which there is no memory. -/
def failedErase : List Call :=
  [⟨.write 0 [7], none, by decide⟩, ⟨.erase 16384 1, none, by decide⟩]

theorem failed_erase_loses_store :
    ¬Faithful (initial 4 3 fun _ => 0) Store.empty failedErase := by
  rw [(initial_allocated 4 3 fun _ => 0).faithful_iff]
  rintro ⟨-, hgranted, -⟩
  exact hgranted (by decide) rfl

end EsyncUa.ScratchMemory
