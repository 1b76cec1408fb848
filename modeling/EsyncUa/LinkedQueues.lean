import EsyncUa.LinkedNodes

/-!
The queue of a message runner in memory: DL_APPEND and DL_DELETE of utlist.h on nodes that
handle_message allocates and runner_loop frees. The first node points back to the last, the last
one has no next. Read along its pointers the queue is a list that messages enter at the end and
leave at the front.
-/
namespace EsyncUa.LinkedQueues

open LinkedNodes

/-- `incoming_msg_t` by address, the pointer `queue` of the runner and the nodes in use. -/
structure Queue (ν μ : Type) where
  links : Links ν
  msg : ν → μ
  head : Option ν
  inUse : ν → Bool

section Macros

variable {ν μ : Type} [DecidableEq ν]

/-- `DL_APPEND`. A null pointer that is followed ends the process. -/
def dlAppend (m : Links ν) (head : Option ν) (add : ν) : Option (Links ν × Option ν) :=
  match head with
  | some head => do
      let m := m.setPrev add (m.prev head)
      let last ← m.prev head
      let m := ((m.setNext last (some add)).setPrev head (some add)).setNext add none
      some (m, some head)
  | none => some ((m.setPrev add (some add)).setNext add none, some add)

/-- `DL_DELETE`, whose assertions end the process. -/
def dlDelete (m : Links ν) (head : Option ν) (del : ν) : Option (Links ν × Option ν) := do
  let first ← head
  let prev ← m.prev del
  if prev = del then some (m, none)
  else if del = first then do
    let next ← m.next del
    some (m.setPrev next (some prev), some next)
  else
    let m := m.setNext prev (m.next del)
    match m.next del with
    | some next => some (m.setPrev next (some prev), head)
    | none => some (m.setPrev first (some prev), head)

/-- The part of handle_message under the lock: the node comes from malloc. -/
def Queue.put (q : Queue ν μ) (im : ν) (msg : μ) : Option (Queue ν μ) := do
  let (links, head) ← dlAppend q.links q.head im
  some ⟨links, Function.update q.msg im msg, head, Function.update q.inUse im true⟩

/-- runner_loop takes the first node out and frees it when the message was handled. The node then
holds anything. -/
def Queue.take (q : Queue ν μ) (junkPrev junkNext : Option ν) (junk : μ) :
    Option (Queue ν μ × μ) := do
  let im ← q.head
  let (links, head) ← dlDelete q.links q.head im
  if q.inUse im then
    some (⟨(links.setPrev im junkPrev).setNext im junkNext, Function.update q.msg im junk, head,
      Function.update q.inUse im false⟩, q.msg im)
  else none

end Macros

section Lists

variable {ν : Type} [DecidableEq ν] {m : Links ν} {xs : List ν} {x : ν}

/-- The pointers of a list that ends where its first node points back. -/
structure Circular (m : Links ν) (head : Option ν) (xs : List ν) : Prop where
  nodup : xs.Nodup
  head : head = xs.head?
  linked : Linked m xs.getLast? xs

theorem Circular.append {head : Option ν} (h : Circular m head xs) (hx : x ∉ xs) :
    ∃ m', dlAppend m head x = some (m', (xs ++ [x]).head?) ∧
      Circular m' (xs ++ [x]).head? (xs ++ [x]) := by
  have hne : ∀ y ∈ xs, y ≠ x := fun y hy heq => hx (heq ▸ hy)
  have hnodup : (xs ++ [x]).Nodup := by simpa [List.nodup_append, h.nodup] using hne
  rw [h.head]
  cases xs with
  | nil =>
    refine ⟨(m.setPrev x (some x)).setNext x none, rfl, hnodup, rfl, ?_⟩
    intro l y r hl
    obtain ⟨rfl, rfl, rfl⟩ : l = [] ∧ x = y ∧ r = [] := by
      rw [eq_comm, List.nil_append, List.append_eq_singleton_iff] at hl
      simpa [eq_comm] using hl
    simp [Links.setNext, Links.setPrev]
  | cons y ys =>
    obtain ⟨last, hlast⟩ : ∃ last, (y :: ys).getLast? = some last := ⟨_, List.getLast?_cons⟩
    have hprev : m.prev y = some last := h.linked.prev_first.trans hlast
    have hyx : y ≠ x := hne y (by simp)
    have hlx : last ≠ x := hne last (List.mem_of_getLast? hlast)
    have hy : y ∉ ys ++ [x] := by simpa using (List.nodup_cons.mp hnodup).1
    have hpush := h.linked.pushBack hx h.nodup (by simp)
    have hfirst := hpush.setPrev_first hy (some x)
    refine ⟨(m.pushBack (y :: ys).getLast? x).setPrev y (some x), ?_, hnodup, rfl, ?_⟩
    · simp only [dlAppend, List.head?_cons, Links.setPrev, Links.setNext, Links.pushBack,
        Links.setNextAt, hprev, hlast, Function.update_of_ne hyx, Option.bind_eq_bind,
        Option.bind_some, Function.update_comm hlx]
      rfl
    · rw [List.getLast?_concat]
      exact hfirst

/-- DL_DELETE of any node of the list. -/
theorem Circular.delete {head : Option ν} (h : Circular m head xs) (hx : x ∈ xs) :
    ∃ m', dlDelete m head x = some (m', (xs.erase x).head?) ∧
      Circular m' (xs.erase x).head? (xs.erase x) := by
  obtain ⟨l, r, rfl⟩ := List.append_of_mem hx
  have hcut := List.nodup_append.mp h.nodup
  have hxl : x ∉ l := fun hmem => hcut.2.2 x hmem x (by simp) rfl
  have hxr : x ∉ r := (List.nodup_cons.mp hcut.2.1).1
  have herase : (l ++ x :: r).erase x = l ++ r := by simp [List.erase_append, hxl]
  have hnodup : (l ++ r).Nodup := h.nodup.sublist (by simp)
  obtain ⟨hnext, hback⟩ := h.linked l x r rfl
  rw [herase, h.head]
  cases l with
  | nil =>
    cases r with
    | nil =>
      refine ⟨m, ?_, hnodup, rfl, linked_nil⟩
      have hself : m.prev x = some x := by simpa using hback
      simp [dlDelete, hself]
    | cons y r =>
      -- the first node
      obtain ⟨last, hlast⟩ : ∃ last, (y :: r).getLast? = some last := ⟨_, List.getLast?_cons⟩
      have hprev : m.prev x = some last := by
        rw [hback, List.nil_append, List.getLast?_cons_cons]
        simpa using hlast
      have hlastx : last ≠ x := fun heq => hxr (heq ▸ List.mem_of_getLast? hlast)
      have hy : y ∉ r := (List.nodup_cons.mp hnodup).1
      refine ⟨m.setPrev y (some last), ?_, hnodup, rfl, ?_⟩
      · simp [dlDelete, hprev, hlastx, hnext]
      · rw [List.nil_append, hlast]
        exact h.linked.tail.setPrev_first hy _
  | cons first l =>
    obtain ⟨p, hp⟩ : ∃ p, (first :: l).getLast? = some p := ⟨_, List.getLast?_cons⟩
    have hprev : m.prev x = some p := by rw [hback, hp, Option.some_or]
    have hpx : p ≠ x := fun heq => hxl (heq ▸ List.mem_of_getLast? hp)
    have hfx : x ≠ first := fun heq => hxl (by simp [heq])
    have hkeep : ∀ q, (m.setNext p q).next x = m.next x := fun q => by
      simp [Links.setNext, hpx.symm]
    have hunlink := h.linked.unlink h.nodup (by simp)
    cases r with
    | nil =>
      -- the last node
      have hfirst : first ∉ l ++ [] := by simpa using (List.nodup_cons.mp hcut.1).1
      refine ⟨(m.unlink x).setPrev first (some p), ?_, hnodup, rfl, ?_⟩
      · simp [dlDelete, hprev, hpx, hfx, hkeep, hnext, Links.unlink, Links.setNextAt,
          Links.setPrevAt]
      · rw [List.append_nil, hp]
        rw [List.cons_append] at hunlink
        simpa using hunlink.setPrev_first hfirst (some p)
    | cons z r =>
      refine ⟨m.unlink x, ?_, hnodup, rfl, ?_⟩
      · simp [dlDelete, hprev, hpx, hfx, hkeep, hnext, Links.unlink, Links.setNextAt,
          Links.setPrevAt]
      · have hend : ∀ l' : List ν, (l' ++ z :: r).getLast? = some (r.getLast?.getD z) := by
          intro l'
          rw [List.getLast?_append, List.getLast?_cons, Option.some_or]
        rw [hend]
        rw [List.append_cons, hend] at hunlink
        exact hunlink

omit [DecidableEq ν] in
theorem Circular.congr {head : Option ν} {m' : Links ν} (h : Circular m head xs)
    (hsame : ∀ x ∈ xs, m'.next x = m.next x ∧ m'.prev x = m.prev x) : Circular m' head xs :=
  ⟨h.nodup, h.head, h.linked.congr hsame⟩

end Lists

section Runs

variable {ν μ : Type} [DecidableEq ν]

/-- The nodes `xs` of the queue carry the messages `msgs`. -/
structure Carries (q : Queue ν μ) (xs : List ν) (msgs : List μ) : Prop where
  circular : Circular q.links q.head xs
  inUse : ∀ x ∈ xs, q.inUse x = true
  msgs : xs.map q.msg = msgs

/-- Messages are put with nodes that are not in use, and taken while there are any. -/
inductive Run : Queue ν μ → List μ → List μ → Queue ν μ → Prop
  | nil (q) : Run q [] [] q
  | put {q q' q'' im msg puts taken} (him : q.inUse im = false)
      (hput : q.put im msg = some q') (hrun : Run q' puts taken q'') :
      Run q (msg :: puts) taken q''
  | take {q q' q'' junkPrev junkNext junk msg puts taken} (hhead : q.head.isSome)
      (htake : q.take junkPrev junkNext junk = some (q', msg)) (hrun : Run q' puts taken q'') :
      Run q puts (msg :: taken) q''

variable {q q' : Queue ν μ} {xs : List ν} {msgs : List μ}

theorem Carries.put (h : Carries q xs msgs) {im : ν} (him : q.inUse im = false) (msg : μ) :
    ∃ q', q.put im msg = some q' ∧ Carries q' (xs ++ [im]) (msgs ++ [msg]) := by
  have hnot : im ∉ xs := fun hmem => by simp [h.inUse im hmem] at him
  have hne : ∀ y ∈ xs, y ≠ im := fun y hy heq => hnot (heq ▸ hy)
  obtain ⟨m', hm', hcircular⟩ := h.circular.append hnot
  refine ⟨⟨m', Function.update q.msg im msg, (xs ++ [im]).head?,
    Function.update q.inUse im true⟩, by simp [Queue.put, hm'], hcircular, fun y hy => ?_, ?_⟩
  · by_cases hyi : y = im
    · simp [hyi]
    · have hy : y ∈ xs := by simpa [hyi] using hy
      simp [hyi, h.inUse y hy]
  · have hsame : xs.map (Function.update q.msg im msg) = xs.map q.msg :=
      List.map_congr_left fun y hy => Function.update_of_ne (hne y hy) ..
    simp [hsame, h.msgs]

/-- The first message is taken, whatever its node becomes. -/
theorem Carries.take {im : ν} {msg : μ} (h : Carries q (im :: xs) (msg :: msgs))
    (junkPrev junkNext : Option ν) (junk : μ) :
    ∃ q', q.take junkPrev junkNext junk = some (q', msg) ∧ Carries q' xs msgs := by
  have hnot : im ∉ xs := (List.nodup_cons.mp h.circular.nodup).1
  have hne : ∀ y ∈ xs, y ≠ im := fun y hy heq => hnot (heq ▸ hy)
  have hhead : q.head = some im := h.circular.head
  obtain ⟨m', hm', hcircular⟩ := h.circular.delete (List.mem_cons_self ..)
  rw [List.erase_cons_head] at hm' hcircular
  obtain ⟨hmsg, hmsgs⟩ := List.cons.inj h.msgs
  refine ⟨⟨(m'.setPrev im junkPrev).setNext im junkNext, Function.update q.msg im junk,
    xs.head?, Function.update q.inUse im false⟩, ?_, hcircular.congr fun y hy => ?_,
    fun y hy => ?_, ?_⟩
  · rw [hhead] at hm'
    simp [Queue.take, hhead, hm', h.inUse im (List.mem_cons_self ..), hmsg]
  · simp [Links.setNext, Links.setPrev, hne y hy]
  · simp [hne y hy, h.inUse y (List.mem_cons_of_mem _ hy)]
  · rw [← hmsgs]
    exact List.map_congr_left fun y hy => Function.update_of_ne (hne y hy) ..

theorem Run.carries {puts taken : List μ} (hrun : Run q puts taken q') (h : Carries q xs msgs) :
    ∃ xs' waiting, msgs ++ puts = taken ++ waiting ∧ Carries q' xs' waiting := by
  induction hrun generalizing xs msgs with
  | nil q => exact ⟨xs, msgs, by simp, h⟩
  | @put q q₁ q' im msg puts taken him hput _ ih =>
    obtain ⟨q₂, hq₂, hcarries⟩ := h.put him msg
    cases hput.symm.trans hq₂
    obtain ⟨xs', waiting, heq, hcarries'⟩ := ih hcarries
    exact ⟨xs', waiting, by simpa using heq, hcarries'⟩
  | @take q q₁ q' junkPrev junkNext junk msg puts taken hhead htake _ ih =>
    have hfirst := h.circular.head
    cases xs with
    | nil => simp [hfirst] at hhead
    | cons im xs =>
      obtain ⟨first, rest, rfl⟩ : ∃ first rest, msgs = first :: rest := ⟨_, _, h.msgs.symm⟩
      obtain ⟨q₂, hq₂, hcarries⟩ := h.take junkPrev junkNext junk
      cases htake.symm.trans hq₂
      obtain ⟨xs', waiting, heq, hcarries'⟩ := ih hcarries
      exact ⟨xs', waiting, by simpa using heq, hcarries'⟩

/-- Read along its pointers the queue is first in, first out: what was taken and what is still
waiting is what was put. The next message can be taken, and there is room for another. -/
theorem queue_in_memory (q q' : Queue ν μ) (puts taken : List μ) (hempty : q.head = none)
    (hrun : Run q puts taken q') :
    ∃ waiting, puts = taken ++ waiting ∧ (q'.head = none ↔ waiting = []) ∧
      (∀ msg rest, waiting = msg :: rest → ∀ junkPrev junkNext junk,
        ∃ q'', q'.take junkPrev junkNext junk = some (q'', msg)) ∧
      ∀ im msg, q'.inUse im = false → ∃ q'', q'.put im msg = some q'' := by
  have hstart : Carries q [] [] := ⟨⟨by simp, by simpa using hempty, linked_nil⟩, by simp, rfl⟩
  obtain ⟨xs, waiting, heq, hcarries⟩ := hrun.carries hstart
  refine ⟨waiting, by simpa using heq, ?_, ?_, fun im msg him => ?_⟩
  · rw [hcarries.circular.head, ← hcarries.msgs]
    cases xs <;> simp
  · rintro msg rest rfl junkPrev junkNext junk
    have hmsgs := hcarries.msgs
    cases xs with
    | nil => cases hmsgs
    | cons im xs =>
      obtain ⟨q'', hq'', -⟩ := hcarries.take junkPrev junkNext junk
      exact ⟨q'', hq''⟩
  · obtain ⟨q'', hq'', -⟩ := hcarries.put him msg
    exact ⟨q'', hq''⟩

/-- Two messages are put, the first is taken. -/
theorem queue_in_memory_two_messages : ∃ (q' : Queue (Fin 2) String) (waiting : List String),
    ["a", "b"] = ["a"] ++ waiting ∧ ∀ rest, waiting = "b" :: rest →
      ∃ q'', q'.take none none "" = some (q'', "b") := by
  let q : Queue (Fin 2) String :=
    ⟨⟨fun _ => none, fun _ => none⟩, fun _ => "", none, fun _ => false⟩
  have hplayed : ∃ q₁, q.put 0 "a" = some q₁ ∧ q₁.inUse 1 = false ∧
      ∃ q₂, q₁.put 1 "b" = some q₂ ∧ q₂.head.isSome ∧
      ∃ q₃, q₂.take (some 1) none "x" = some (q₃, "a") := ⟨_, rfl, rfl, _, rfl, rfl, _, rfl⟩
  obtain ⟨q₁, h₁, huse, q₂, h₂, hhead, q₃, h₃⟩ := hplayed
  obtain ⟨waiting, heq, -, htake, -⟩ := queue_in_memory q q₃ ["a", "b"] ["a"] rfl
    (.put rfl h₁ (.put huse h₂ (.take hhead h₃ (.nil q₃))))
  exact ⟨q₃, waiting, heq, fun rest hw => htake "b" rest hw none none ""⟩

end Runs

end EsyncUa.LinkedQueues
