import EsyncUa.Registration

/-!
Which runners a message reaches after any sequence of registrations.
An entry is the path, the routine and the address of a registered runner. As long as every
ua_unregister covers all entries that are left, the tree and the memory hold exactly the
entries; one that leaves an entry behind drops the tree under it.
-/
namespace EsyncUa.Delivery

open EsyncUa.JsonProperties EsyncUa.Components EsyncUa.Routing EsyncUa.RoutingTree
open EsyncUa.Registration

/-- The path of its type, the routine and the address of a registered runner. -/
structure Entry (ρ κ : Type) where
  path : List (List Char)
  uar : Option κ
  ri : ρ

inductive Call (ρ κ : Type) : Type
  | register (uah : List (Handler κ × Start ρ)) (ends : ρ → Bool)
  | unregister (uah : List (Handler κ)) (ends : ρ → Bool)

variable {ρ κ : Type} [LinearOrder ρ] [DecidableEq κ]

def call (callbacks : κ → Callbacks) (lib : Library ρ κ) : Call ρ κ → Option (Library ρ κ × Rc)
  | .register uah ends => uaRegister callbacks ends lib uah
  | .unregister uah ends => uaUnregister ends lib uah

/-- malloc returns distinct addresses that are not allocated. -/
def Allocates (lib : Library ρ κ) : Call ρ κ → Prop
  | .register uah _ => (uah.map fun h => h.2.address).Nodup ∧
      ∀ h ∈ uah, lib.runners h.2.address = none
  | .unregister _ _ => True

def initial : Library ρ κ := ⟨none, fun _ => none, [], .initialized⟩

/-- Sequences of successful calls and the library after them. -/
inductive Run (callbacks : κ → Callbacks) : List (Call ρ κ) → Library ρ κ → Prop
  | nil : Run callbacks [] initial
  | snoc {cs lib lib'} (c : Call ρ κ) (h : Run callbacks cs lib) (halloc : Allocates lib c)
      (hcall : call callbacks lib c = some (lib', eUaOk)) : Run callbacks (cs ++ [c]) lib'

def entriesOf (uah : List (Handler κ × Start ρ)) : Set (Entry ρ κ) :=
  {e | ∃ h ∈ uah, e = ⟨components h.1.typeHandler, h.1.routine, h.2.address⟩}

/-- One of the handlers has the path and the routine of the entry. -/
def Covers (uah : List (Handler κ)) (e : Entry ρ κ) : Prop :=
  ∃ h ∈ uah, components h.typeHandler = e.path ∧ h.routine = e.uar

def registeredAfter (S : Set (Entry ρ κ)) : Call ρ κ → Set (Entry ρ κ)
  | .register uah _ => S ∪ entriesOf uah
  | .unregister uah _ => {e ∈ S | ¬Covers uah e}

/-- The runners that were registered and have not been unregistered since. -/
def registered (cs : List (Call ρ κ)) : Set (Entry ρ κ) := cs.foldl registeredAfter ∅

/-- The runner is registered for the type or a prefix of it. -/
def Addressed (S : Set (Entry ρ κ)) (type : List Char) (ri : ρ) : Prop :=
  ∃ e ∈ S, e.ri = ri ∧ e.path <+: components type

/-- handle_message queues a message once to every runner it is addressed to and to no other. -/
def Delivers (S : Set (Entry ρ κ)) (lib : Library ρ κ) : Prop :=
  ∀ type msg, ∃ lib', handleMessage lib type msg = some lib' ∧ ∀ ri,
    (Addressed S type ri → ∃ info, lib.runners ri = some info ∧
      lib'.runners ri = some { info with queue := info.queue ++ [msg] }) ∧
    (¬Addressed S type ri → lib'.runners ri = lib.runners ri)

/-- Every ua_unregister of the sequence covers all runners registered before it. -/
def UnregistersAll (cs : List (Call ρ κ)) : Prop :=
  ∀ before uah ends, before ++ [Call.unregister uah ends] <+: cs →
    ∀ e ∈ registered before, Covers uah e

def pairs (S : Set (Entry ρ κ)) : Set (List (List Char) × ρ) :=
  {x | ∃ e ∈ S, e.path = x.1 ∧ e.ri = x.2}

/-- The tree and the memory hold exactly the entries, each runner with one of them. -/
structure Inv (S : Set (Entry ρ κ)) (lib : Library ρ κ) : Prop where
  holds : Holds (pairs S) (lib.riTree.getD .bare)
  allocated : ∀ e ∈ S, ∃ info, lib.runners e.ri = some info ∧ info.uar = e.uar
  single : ∀ e ∈ S, ∀ e' ∈ S, e.ri = e'.ri → e = e'

omit [DecidableEq κ] in
theorem inv_empty {lib : Library ρ κ} (htree : lib.riTree = none) :
    Inv (∅ : Set (Entry ρ κ)) lib := by
  have hpairs : pairs (∅ : Set (Entry ρ κ)) = ∅ := by
    ext x
    simp [pairs]
  refine ⟨?_, by simp, by simp⟩
  rw [hpairs, htree]
  exact holds_bare

/-- A gather on ri_tree. -/
theorem query_gathers (tree : Option (Node ρ)) (uaType : List Char) (tip : Bool) :
    ∃ g, queryRiTree tree none uaType false (some []) tip = some (tree, some g) ∧
      g = gatherAt tip (components uaType) (tree.getD .bare) := by
  cases tree with
  | none =>
      refine ⟨[], rfl, ?_⟩
      cases components uaType <;> cases tip <;> rfl
  | some root => exact ⟨_, by simp [queryRiTree, query_gather], rfl⟩

omit [DecidableEq κ] in
theorem mem_items_iff {S : Set (Entry ρ κ)} {lib : Library ρ κ} (h : Inv S lib)
    (path : List (List Char)) (ri : ρ) :
    ri ∈ itemsAt path (lib.riTree.getD .bare) ↔ ∃ e ∈ S, e.path = path ∧ e.ri = ri :=
  h.holds.mem_iff path ri

omit [DecidableEq κ] in
/-- Deleting one registered runner. -/
theorem inv_delete {S : Set (Entry ρ κ)} {lib : Library ρ κ} (h : Inv S lib) {e : Entry ρ κ}
    (he : e ∈ S) (uaType : List Char) (htype : components uaType = e.path)
    (info : Option (RunnerInfo κ)) :
    ∃ tree, queryRiTree lib.riTree (some e.ri) uaType true none false = some (tree, none) ∧
      Inv (S \ {e}) (setRunner { lib with riTree := tree } e.ri info) := by
  have hmem : e.ri ∈ itemsAt e.path (lib.riTree.getD .bare) :=
    (mem_items_iff h _ _).mpr ⟨e, he, rfl, rfl⟩
  cases htree : lib.riTree with
  | none =>
      rw [htree, Option.getD_none, itemsAt_bare] at hmem
      cases hmem
  | some root =>
      have hholds := h.holds
      rw [htree, Option.getD_some] at hholds
      obtain ⟨root', hchange, hroot'⟩ := holds_delete hholds uaType e.ri
        ⟨e, he, htype.symm, rfl⟩
      have hquery : queryHashTree root (some e.ri) uaType true none false =
          some (root', none) := by
        rw [query_delete]
        simpa [change, query_delete] using hchange
      refine ⟨some root', by simp [queryRiTree, hquery], ?_, ?_, ?_⟩
      · have hpairs : pairs (S \ {e}) =
            RoutingTree.registeredAfter (pairs S) (.delete uaType e.ri) := by
          ext ⟨path, ri⟩
          rw [RoutingTree.registeredAfter, htype]
          constructor
          · rintro ⟨e', ⟨he', hne⟩, rfl, rfl⟩
            refine ⟨⟨e', he', rfl, rfl⟩, ?_⟩
            intro heq
            exact hne (h.single e' he' e he (Prod.mk.inj heq).2)
          · rintro ⟨⟨e', he', rfl, rfl⟩, hne⟩
            refine ⟨e', ⟨he', ?_⟩, rfl, rfl⟩
            rintro rfl
            exact hne rfl
        rw [hpairs]
        exact hroot'
      · rintro e' ⟨he', hne⟩
        have hri : e'.ri ≠ e.ri := fun heq => hne (h.single e' he' e he heq)
        simpa [setRunner, Function.update_of_ne hri] using h.allocated e' he'
      · rintro e₁ ⟨he₁, -⟩ e₂ ⟨he₂, -⟩ heq
        exact h.single e₁ he₁ e₂ he₂ heq

/-- The loop over the gathered runners deletes those of the routine. -/
theorem inv_unregisterRunners (ends : ρ → Bool) (uaType : List Char) (uar : Option κ)
    (g : List ρ) (hg : g.Nodup) {S : Set (Entry ρ κ)} {lib : Library ρ κ} (ret : Rc)
    (h : Inv S lib) (hmem : ∀ ri ∈ g, ∃ e ∈ S, e.path = components uaType ∧ e.ri = ri) :
    ∃ lib' ret', unregisterRunners ends uaType uar g (lib, ret) = some (lib', ret') ∧
      Inv {e ∈ S | ¬(e.uar = uar ∧ e.ri ∈ g)} lib' ∧ ((∀ ri, ends ri = true) → ret' = ret) := by
  induction g generalizing S lib ret with
  | nil =>
      refine ⟨lib, ret, rfl, ?_, fun _ => rfl⟩
      simpa using h
  | cons ri rest ih =>
      obtain ⟨hri, hrest⟩ := List.nodup_cons.mp hg
      obtain ⟨e, he, hpath, rfl⟩ := hmem ri List.mem_cons_self
      obtain ⟨info, hinfo, huar⟩ := h.allocated e he
      by_cases hsame : e.uar = uar
      · have hrunner : info.uar = uar := huar.trans hsame
        have hrest' : ∀ r ∈ rest, ∃ e' ∈ S \ {e}, e'.path = components uaType ∧ e'.ri = r := by
          intro r hr
          obtain ⟨e', he', hpath', rfl⟩ := hmem r (List.mem_cons_of_mem _ hr)
          refine ⟨e', ⟨he', ?_⟩, hpath', rfl⟩
          rintro rfl
          exact hri hr
        have hset : {e' ∈ S \ {e} | ¬(e'.uar = uar ∧ e'.ri ∈ rest)} =
            {e' ∈ S | ¬(e'.uar = uar ∧ e'.ri ∈ e.ri :: rest)} := by
          ext e'
          constructor
          · rintro ⟨⟨he', hne⟩, hnot⟩
            refine ⟨he', fun hboth => ?_⟩
            rcases List.mem_cons.mp hboth.2 with heq | hin
            · exact hne (h.single e' he' e he heq)
            · exact hnot ⟨hboth.1, hin⟩
          · rintro ⟨he', hnot⟩
            refine ⟨⟨he', ?_⟩, fun hboth => hnot ⟨hboth.1, List.mem_cons_of_mem _ hboth.2⟩⟩
            rintro rfl
            exact hnot ⟨hsame, List.mem_cons_self⟩
        rw [← hset]
        by_cases hends : ends e.ri
        · obtain ⟨tree, hquery, hinv⟩ := inv_delete h he uaType hpath.symm none
          obtain ⟨lib', ret', hrun, hinv', hret⟩ := ih hrest ret hinv hrest'
          exact ⟨lib', ret', by simp [unregisterRunners, hinfo, hrunner, hquery, hends, hrun],
            hinv', hret⟩
        · obtain ⟨tree, hquery, hinv⟩ :=
            inv_delete h he uaType hpath.symm (some { info with run := false })
          obtain ⟨lib', ret', hrun, hinv', -⟩ := ih hrest eUaSys hinv hrest'
          rw [hrunner] at hrun
          exact ⟨lib', ret', by simp [unregisterRunners, hinfo, hrunner, hquery, hends, hrun],
            hinv', fun hall => absurd (hall e.ri) hends⟩
      · have hrunner : info.uar ≠ uar := fun heq => hsame (huar.symm.trans heq)
        obtain ⟨lib', ret', hrun, hinv', hret⟩ := ih hrest ret h
          fun r hr => hmem r (List.mem_cons_of_mem _ hr)
        have hset : {e' ∈ S | ¬(e'.uar = uar ∧ e'.ri ∈ rest)} =
            {e' ∈ S | ¬(e'.uar = uar ∧ e'.ri ∈ e.ri :: rest)} := by
          ext e'
          constructor
          · rintro ⟨he', hnot⟩
            refine ⟨he', fun hboth => ?_⟩
            rcases List.mem_cons.mp hboth.2 with heq | hin
            · rw [h.single e' he' e he heq] at hboth
              exact hsame hboth.1
            · exact hnot ⟨hboth.1, hin⟩
          · rintro ⟨he', hnot⟩
            exact ⟨he', fun hboth => hnot ⟨hboth.1, List.mem_cons_of_mem _ hboth.2⟩⟩
        rw [← hset]
        exact ⟨lib', ret', by simp [unregisterRunners, hinfo, hrunner, hrun], hinv', hret⟩

/-- The loop over the handlers leaves the entries that no handler covers. -/
theorem inv_unregisterHandlers (ends : ρ → Bool) (uah : List (Handler κ)) {S : Set (Entry ρ κ)}
    {lib : Library ρ κ} (ret : Rc) (h : Inv S lib) :
    ∃ lib' ret', unregisterHandlers ends uah (lib, ret) = some (lib', ret') ∧
      Inv {e ∈ S | ¬Covers uah e} lib' ∧ ((∀ ri, ends ri = true) → ret' = ret) := by
  induction uah generalizing S lib ret with
  | nil =>
      refine ⟨lib, ret, rfl, ?_, fun _ => rfl⟩
      simpa [Covers] using h
  | cons handler rest ih =>
      obtain ⟨g, hquery, hg⟩ := query_gathers lib.riTree handler.typeHandler true
      rw [gather_tip] at hg
      have hnodup : g.Nodup := by
        rw [hg]
        exact (h.holds.sound.items_sorted _).imp fun hlt => hlt.ne
      have hmem : ∀ ri ∈ g, ∃ e ∈ S, e.path = components handler.typeHandler ∧ e.ri = ri := by
        intro ri hri
        rw [hg] at hri
        exact (mem_items_iff h _ _).mp hri
      obtain ⟨lib₁, ret₁, hrunners, hinv₁, hret₁⟩ := inv_unregisterRunners ends handler.typeHandler
        handler.routine g hnodup ret h hmem
      obtain ⟨lib', ret', hrun, hinv', hret'⟩ := ih ret₁ hinv₁
      refine ⟨lib', ret', by simp [unregisterHandlers, hquery, hrunners, hrun], ?_,
        fun hall => (hret' hall).trans (hret₁ hall)⟩
      have hset : {e ∈ {e ∈ S | ¬(e.uar = handler.routine ∧ e.ri ∈ g)} | ¬Covers rest e} =
          {e ∈ S | ¬Covers (handler :: rest) e} := by
        ext e
        constructor
        · rintro ⟨⟨he, hnot⟩, hrest⟩
          refine ⟨he, ?_⟩
          rintro ⟨handler', hmem', hpath, huar⟩
          rcases List.mem_cons.mp hmem' with rfl | hin
          · refine hnot ⟨huar.symm, ?_⟩
            rw [hg]
            exact (mem_items_iff h _ _).mpr ⟨e, he, hpath.symm, rfl⟩
          · exact hrest ⟨handler', hin, hpath, huar⟩
        · rintro ⟨he, hnot⟩
          refine ⟨⟨he, ?_⟩, ?_⟩
          · rintro ⟨huar, hin⟩
            obtain ⟨e', he', hpath, hri⟩ := hmem _ hin
            rw [h.single e' he' e he hri] at hpath
            exact hnot ⟨handler, List.mem_cons_self, hpath.symm, huar.symm⟩
          · rintro ⟨handler', hin, hpath, huar⟩
            exact hnot ⟨handler', List.mem_cons_of_mem _ hin, hpath, huar⟩
      rw [← hset]
      exact hinv'

omit [LinearOrder ρ] [DecidableEq κ] in
theorem registeredAfter_unregister_eq_empty {S : Set (Entry ρ κ)} {uah : List (Handler κ)}
    (hall : ∀ e ∈ S, Covers uah e) : {e ∈ S | ¬Covers uah e} = ∅ := by
  ext e
  constructor
  · rintro ⟨he, hnot⟩
    exact hnot (hall e he)
  · intro he
    cases he

/-- ua_unregister drops the tree. -/
theorem uaUnregister_tree (ends : ρ → Bool) (uah : List (Handler κ)) {lib lib' : Library ρ κ}
    {ret : Rc} (hcall : uaUnregister ends lib uah = some (lib', ret)) : lib'.riTree = none := by
  obtain ⟨⟨lib₁, ret₁⟩, -, hret⟩ := Option.bind_eq_some_iff.mp hcall
  simp only [Option.pure_def, Option.some.injEq, Prod.mk.injEq] at hret
  rw [← hret.1]

omit [DecidableEq κ] in
/-- One successful round of ua_register adds the entry of its handler. -/
theorem inv_registerHandler (callbacks : κ → Callbacks) (handler : Handler κ) (start : Start ρ)
    {S : Set (Entry ρ κ)} {lib lib' : Library ρ κ} (h : Inv S lib)
    (hfree : lib.runners start.address = none)
    (hcall : registerHandler callbacks lib handler start = some (lib', eUaOk)) (root : Node ρ)
    (hroot : lib.riTree = some root) :
    Inv (Set.insert ⟨components handler.typeHandler, handler.routine, start.address⟩ S) lib' ∧
      (∃ root', lib'.riTree = some root') ∧
      ∀ ri, ri ≠ start.address → lib'.runners ri = lib.runners ri := by
  obtain ⟨type, routine⟩ := handler
  cases routine with
  | none => simp [registerHandler, eUaArg, eUaOk] at hcall
  | some uar =>
      have hholds := h.holds
      rw [hroot, Option.getD_some] at hholds
      obtain ⟨root', hchange, hroot'⟩ := holds_register hholds type start.address
      have hquery : queryHashTree root (some start.address) type false none false =
          some (root', none) := by
        rw [query_register]
        simpa [change, query_register] using hchange
      simp only [registerHandler, setRunner, hroot, queryRiTree, hquery] at hcall
      split at hcall
      · simp [eUaArg, eUaOk] at hcall
      split at hcall
      · simp [eUaArg, eUaOk] at hcall
      split at hcall
      · simp [eUaSys, eUaOk] at hcall
      simp only [Option.map_some, Option.bind_eq_bind, Option.bind_some] at hcall
      split at hcall
      · simp [eUaSys, eUaOk] at hcall
      simp only [Option.some.injEq, Prod.mk.injEq, and_true] at hcall
      rw [← hcall]
      have hnew : ∀ e ∈ S, e.ri ≠ start.address := by
        intro e he heq
        obtain ⟨info, hinfo, -⟩ := h.allocated e he
        rw [heq, hfree] at hinfo
        cases hinfo
      refine ⟨⟨?_, ?_, ?_⟩, ⟨root', rfl⟩, ?_⟩
      · have hpairs : pairs (Set.insert ⟨components type, some uar, start.address⟩ S) =
            RoutingTree.registeredAfter (pairs S) (.register type start.address) := by
          ext ⟨path, ri⟩
          rw [RoutingTree.registeredAfter]
          constructor
          · rintro ⟨e, rfl | he, hpath, hri⟩
            · exact Or.inl (Prod.ext hpath.symm hri.symm)
            · exact Or.inr ⟨e, he, hpath, hri⟩
          · rintro (heq | ⟨e, he, hpath, hri⟩)
            · cases heq
              exact ⟨_, Or.inl rfl, rfl, rfl⟩
            · exact ⟨e, Or.inr he, hpath, hri⟩
        rw [hpairs]
        exact hroot'
      · rintro e (rfl | he)
        · exact ⟨_, Function.update_self .., rfl⟩
        · obtain ⟨info, hinfo, huar⟩ := h.allocated e he
          exact ⟨info, by simpa [Function.update_of_ne (hnew e he)] using hinfo, huar⟩
      · rintro e₁ (rfl | he₁) e₂ (rfl | he₂) heq
        · rfl
        · exact absurd heq.symm (hnew e₂ he₂)
        · exact absurd heq (hnew e₁ he₁)
        · exact h.single e₁ he₁ e₂ he₂ heq
      · intro ri hne
        exact Function.update_of_ne hne _ _

/-- The loop of a successful ua_register adds the entries of its handlers. -/
theorem inv_registerHandlers (callbacks : κ → Callbacks) (ends : ρ → Bool)
    (all : List (Handler κ)) (uah : List (Handler κ × Start ρ))
    (hnodup : (uah.map fun h => h.2.address).Nodup) {S : Set (Entry ρ κ)}
    {lib lib' : Library ρ κ} (h : Inv S lib) (hroot : ∃ root, lib.riTree = some root)
    (hfree : ∀ h ∈ uah, lib.runners h.2.address = none)
    (hcall : registerHandlers callbacks ends all uah lib = some (lib', eUaOk)) :
    Inv (S ∪ entriesOf uah) lib' := by
  induction uah generalizing S lib with
  | nil =>
      cases hcall
      have hset : S ∪ entriesOf ([] : List (Handler κ × Start ρ)) = S := by
        simp [entriesOf]
      rw [hset]
      exact h
  | cons entry rest ih =>
      obtain ⟨handler, start⟩ := entry
      obtain ⟨root, hroot⟩ := hroot
      rw [List.map_cons, List.nodup_cons] at hnodup
      obtain ⟨⟨lib₁, err⟩, hround, hcall⟩ := Option.bind_eq_some_iff.mp hcall
      by_cases herr : err = eUaOk
      · simp only [herr, if_true] at hcall
        rw [herr] at hround
        obtain ⟨hinv, hroot₁, hsame⟩ := inv_registerHandler callbacks handler start h
          (hfree _ List.mem_cons_self) hround root hroot
        have hfree₁ : ∀ h ∈ rest, lib₁.runners h.2.address = none := by
          intro h₁ hh
          rw [hsame]
          · exact hfree h₁ (List.mem_cons_of_mem _ hh)
          · intro heq
            exact hnodup.1 (heq ▸ List.mem_map_of_mem hh)
        have hset : S ∪ entriesOf ((handler, start) :: rest) =
            Set.insert ⟨components handler.typeHandler, handler.routine, start.address⟩ S ∪
              entriesOf rest := by
          ext e
          constructor
          · rintro (he | ⟨h₁, hmem, rfl⟩)
            · exact Or.inl (Or.inr he)
            · rcases List.mem_cons.mp hmem with rfl | hin
              · exact Or.inl (Or.inl rfl)
              · exact Or.inr ⟨h₁, hin, rfl⟩
          · rintro ((rfl | he) | ⟨h₁, hmem, rfl⟩)
            · exact Or.inr ⟨_, List.mem_cons_self, rfl⟩
            · exact Or.inl he
            · exact Or.inr ⟨h₁, List.mem_cons_of_mem _ hmem, rfl⟩
        rw [hset]
        exact ih hnodup.2 hinv hroot₁ hfree₁ hcall
      · simp only [herr, if_false] at hcall
        obtain ⟨⟨lib₂, ret⟩, -, hret⟩ := Option.bind_eq_some_iff.mp hcall
        simp only [Option.pure_def, Option.some.injEq, Prod.mk.injEq] at hret
        exact absurd hret.2 herr

/-- Successful calls keep the invariant where ua_unregister covers what is registered. -/
theorem inv_call (callbacks : κ → Callbacks) (c : Call ρ κ) {S : Set (Entry ρ κ)}
    {lib lib' : Library ρ κ} (h : Inv S lib) (halloc : Allocates lib c)
    (hcall : call callbacks lib c = some (lib', eUaOk))
    (hall : ∀ uah ends, c = .unregister uah ends → ∀ e ∈ S, Covers uah e) :
    Inv (registeredAfter S c) lib' := by
  cases c with
  | register uah ends =>
      have h' : Inv S { lib with
          uah := uah.map Prod.fst, riTree := some (lib.riTree.getD .bare) } :=
        ⟨by simpa using h.holds, h.allocated, h.single⟩
      exact inv_registerHandlers callbacks ends _ uah halloc.1 h' ⟨_, rfl⟩ halloc.2 hcall
  | unregister uah ends =>
      have hcover := hall uah ends rfl
      have hset : registeredAfter S (.unregister uah ends) = ∅ :=
        registeredAfter_unregister_eq_empty hcover
      rw [hset]
      exact inv_empty (uaUnregister_tree ends uah hcall)

theorem inits_nodup {α : Type} (xs : List α) : xs.inits.Nodup := by
  induction xs with
  | nil => simp
  | cons x xs ih =>
      rw [List.inits_cons, List.nodup_cons]
      refine ⟨by simp, ih.map ?_⟩
      intro a b hab
      exact (List.cons.inj hab).2

omit [DecidableEq κ] in
/-- Queueing a message to distinct allocated runners. -/
theorem appendMessage_spec (msg : List Char) (g : List ρ) (hg : g.Nodup) (lib : Library ρ κ)
    (halloc : ∀ ri ∈ g, ∃ info, lib.runners ri = some info) :
    ∃ lib', appendMessage msg g lib = some lib' ∧ ∀ ri,
      (∀ info, ri ∈ g → lib.runners ri = some info →
        lib'.runners ri = some { info with queue := info.queue ++ [msg] }) ∧
      (ri ∉ g → lib'.runners ri = lib.runners ri) := by
  induction g generalizing lib with
  | nil =>
      refine ⟨lib, rfl, ?_⟩
      intro ri
      exact ⟨fun _ h => absurd h (List.not_mem_nil), fun _ => rfl⟩
  | cons r rest ih =>
      obtain ⟨hr, hrest⟩ := List.nodup_cons.mp hg
      obtain ⟨info, hinfo⟩ := halloc r List.mem_cons_self
      have halloc' : ∀ ri ∈ rest, ∃ info',
          (setRunner lib r (some { info with queue := info.queue ++ [msg] })).runners ri =
            some info' := by
        intro ri hri
        have hne : ri ≠ r := fun heq => hr (heq ▸ hri)
        simpa [setRunner, Function.update_of_ne hne] using halloc ri (List.mem_cons_of_mem _ hri)
      obtain ⟨lib', hrun, hspec⟩ := ih hrest _ halloc'
      refine ⟨lib', by simp [appendMessage, hinfo, hrun], ?_⟩
      intro ri
      by_cases heq : ri = r
      · subst heq
        refine ⟨?_, fun h => absurd List.mem_cons_self h⟩
        intro info' _ hinfo'
        rw [hinfo] at hinfo'
        cases hinfo'
        rw [(hspec ri).2 hr]
        exact Function.update_self ..
      · have hsame : ∀ i, (setRunner lib r i).runners ri = lib.runners ri := by
          intro i
          exact Function.update_of_ne heq _ _
        constructor
        · intro info' hin hinfo'
          have hrest' : ri ∈ rest := (List.mem_cons.mp hin).resolve_left heq
          exact (hspec ri).1 info' hrest' ((hsame _).trans hinfo')
        · intro hnot
          rw [(hspec ri).2 fun h => hnot (List.mem_cons_of_mem _ h), hsame]

omit [DecidableEq κ] in
/-- Under the invariant a message reaches exactly the runners it is addressed to. -/
theorem Inv.delivers {S : Set (Entry ρ κ)} {lib : Library ρ κ} (h : Inv S lib) :
    Delivers S lib := by
  intro type msg
  obtain ⟨g, hquery, hg⟩ := query_gathers lib.riTree type false
  rw [gather_prefixes] at hg
  have hmem : ∀ ri, ri ∈ g ↔ Addressed S type ri := by
    intro ri
    rw [hg, List.mem_flatMap]
    constructor
    · rintro ⟨p, hp, hri⟩
      obtain ⟨e, he, hpath, heq⟩ := (mem_items_iff h p ri).mp hri
      refine ⟨e, he, heq, ?_⟩
      rw [hpath]
      exact (List.mem_inits _ _).mp hp
    · rintro ⟨e, he, heq, hp⟩
      exact ⟨e.path, (List.mem_inits _ _).mpr hp, (mem_items_iff h _ _).mpr ⟨e, he, rfl, heq⟩⟩
  have hnodup : g.Nodup := by
    rw [hg, List.nodup_flatMap]
    refine ⟨?_, ?_⟩
    · intro p _
      exact (h.holds.sound.items_sorted p).imp fun hlt => hlt.ne
    · refine (inits_nodup _).imp ?_
      intro p q hpq ri hp hq
      obtain ⟨e, he, hpath, heq⟩ := (mem_items_iff h p ri).mp hp
      obtain ⟨e', he', hpath', heq'⟩ := (mem_items_iff h q ri).mp hq
      have hsame := h.single e he e' he' (heq.trans heq'.symm)
      rw [← hpath, ← hpath', hsame] at hpq
      exact hpq rfl
  have halloc : ∀ ri ∈ g, ∃ info, lib.runners ri = some info := by
    intro ri hri
    obtain ⟨e, he, rfl, -⟩ := (hmem ri).mp hri
    obtain ⟨info, hinfo, -⟩ := h.allocated e he
    exact ⟨info, hinfo⟩
  obtain ⟨lib', hrun, hspec⟩ := appendMessage_spec msg g hnodup lib halloc
  refine ⟨lib', by simp [handleMessage, hquery, hrun], ?_⟩
  intro ri
  constructor
  · intro haddr
    obtain ⟨info, hinfo⟩ := halloc ri ((hmem ri).mpr haddr)
    exact ⟨info, hinfo, (hspec ri).1 info ((hmem ri).mpr haddr) hinfo⟩
  · intro hnot
    exact (hspec ri).2 fun h => hnot ((hmem ri).mp h)

omit [LinearOrder ρ] [DecidableEq κ] in
theorem registered_append (cs : List (Call ρ κ)) (c : Call ρ κ) :
    registered (cs ++ [c]) = registeredAfter (registered cs) c := by
  simp [registered, List.foldl_append]

omit [LinearOrder ρ] [DecidableEq κ] in
/-- The path of a registered runner is the path of a type. -/
theorem exists_type (cs : List (Call ρ κ)) (e : Entry ρ κ) (he : e ∈ registered cs) :
    ∃ type, components type = e.path := by
  induction cs using List.reverseRecOn with
  | nil => cases he
  | append_singleton cs c ih =>
      rw [registered_append] at he
      cases c with
      | register uah ends =>
          rcases he with he | ⟨h, -, rfl⟩
          · exact ih he
          · exact ⟨_, rfl⟩
      | unregister uah ends => exact ih he.1

theorem Run.shorter {callbacks : κ → Callbacks} {cs : List (Call ρ κ)} {lib : Library ρ κ}
    (h : Run callbacks cs lib) {before : List (Call ρ κ)} (hbefore : before <+: cs) :
    ∃ lib', Run callbacks before lib' := by
  induction h with
  | nil =>
      rw [List.prefix_nil] at hbefore
      rw [hbefore]
      exact ⟨_, .nil⟩
  | snoc c h halloc hcall ih =>
      rcases List.prefix_concat_iff.mp hbefore with heq | hpre
      · rw [heq]
        exact ⟨_, .snoc c h halloc hcall⟩
      · exact ih hpre

theorem Run.inv {callbacks : κ → Callbacks} {cs : List (Call ρ κ)} {lib : Library ρ κ}
    (h : Run callbacks cs lib) (hall : UnregistersAll cs) : Inv (registered cs) lib := by
  induction h with
  | nil => exact inv_empty rfl
  | @snoc cs lib lib' c h halloc hcall ih =>
      rw [registered_append]
      refine inv_call callbacks c (ih ?_) halloc hcall ?_
      · intro before uah ends hpre
        exact hall before uah ends (hpre.trans (List.prefix_append _ _))
      · intro uah ends hc
        rw [hc] at hall
        exact hall cs uah ends (List.prefix_refl _)

/-- After an ua_unregister that leaves a runner registered no message reaches it. -/
theorem Run.not_delivers {callbacks : κ → Callbacks} {cs : List (Call ρ κ)} {lib : Library ρ κ}
    {uah : List (Handler κ)} {ends : ρ → Bool}
    (h : Run callbacks (cs ++ [.unregister uah ends]) lib) {e : Entry ρ κ}
    (he : e ∈ registered cs) (hleft : ¬Covers uah e) :
    ¬Delivers (registered (cs ++ [.unregister uah ends])) lib := by
  intro hdel
  have htree : lib.riTree = none := by
    generalize hcs : cs ++ [Call.unregister uah ends] = cs' at h
    cases h with
    | nil => simp at hcs
    | snoc c h halloc hcall =>
        obtain ⟨-, hc⟩ := List.append_inj' hcs rfl
        cases hc
        exact uaUnregister_tree ends uah hcall
  obtain ⟨type, htype⟩ := exists_type cs e he
  obtain ⟨lib', hrun, hspec⟩ := hdel type []
  have haddr : Addressed (registered (cs ++ [.unregister uah ends])) type e.ri := by
    rw [registered_append]
    refine ⟨e, ⟨he, hleft⟩, rfl, ?_⟩
    rw [htype]
  obtain ⟨info, hinfo, hqueued⟩ := (hspec e.ri).1 haddr
  have hsame : lib'.runners = lib.runners := by
    simp only [handleMessage, queryRiTree, htree, Option.bind_eq_bind, Option.bind_some,
      Option.getD_some, appendMessage, Option.some.injEq] at hrun
    rw [← hrun]
  rw [hsame, hinfo] at hqueued
  have hlen := congrArg (fun i => i.map fun j => j.queue.length) hqueued
  simp at hlen

/-- Messages keep reaching exactly the registered runners after every call of a sequence if and
only if every ua_unregister of it unregisters all runners that are registered. -/
theorem delivers_iff_unregisters_all (callbacks : κ → Callbacks) (cs : List (Call ρ κ))
    (lib : Library ρ κ) (h : Run callbacks cs lib) :
    (∀ before lib₁, before <+: cs → Run callbacks before lib₁ →
      Delivers (registered before) lib₁) ↔ UnregistersAll cs := by
  constructor
  · intro hdel before uah ends hpre e he
    by_contra hleft
    obtain ⟨lib₁, hrun⟩ := h.shorter hpre
    exact hrun.not_delivers he hleft (hdel _ lib₁ hpre hrun)
  · intro hall before lib₁ hpre hrun
    refine (hrun.inv ?_).delivers
    intro before' uah ends hpre'
    exact hall before' uah ends (hpre'.trans hpre)

/-- One routine with a message callback, registered for two types. -/
def twoHandlers : List (Handler Nat × Start Nat) :=
  [(⟨"/A".toList, some 0⟩, ⟨1, true, true⟩), (⟨"/A/B".toList, some 0⟩, ⟨2, true, true⟩)]

theorem run_twoHandlers :
    ∃ lib, Run (fun _ => ⟨false, false, true⟩) [.register twoHandlers fun _ => true] lib := by
  have hcall : ∃ lib, call (fun _ => ⟨false, false, true⟩) initial
      (.register twoHandlers fun _ => true) = some (lib, eUaOk) := by
    simp [call, uaRegister, twoHandlers, registerHandlers, registerHandler, queryRiTree,
      setRunner, query_register, initial, eUaOk]
  obtain ⟨lib, hlib⟩ := hcall
  exact ⟨lib, Run.nil.snoc _ ⟨by decide, fun _ _ => rfl⟩ hlib⟩

omit [LinearOrder ρ] [DecidableEq κ] in
theorem unregistersAll_register (uah : List (Handler κ × Start ρ)) (ends : ρ → Bool) :
    UnregistersAll [.register uah ends] := by
  intro before uah' ends' hpre
  rcases before with - | ⟨c, before⟩
  · obtain ⟨rest, hrest⟩ := hpre
    cases hrest
  · obtain ⟨rest, hrest⟩ := hpre
    simp at hrest

theorem delivers_iff_unregisters_all_example :
    ∃ lib : Library Nat Nat, Delivers (registered [.register twoHandlers fun _ => true]) lib := by
  obtain ⟨lib, h⟩ := run_twoHandlers
  exact ⟨lib, (delivers_iff_unregisters_all _ _ lib h).mpr (unregistersAll_register _ _) _ lib
    (List.prefix_refl _) h⟩

/-- Unregistering one of two handlers takes the messages of the other one away too. -/
theorem partial_unregister_loses_runner :
    ¬∀ (callbacks : Nat → Callbacks) (cs : List (Call Nat Nat)) (lib : Library Nat Nat),
      Run callbacks cs lib → Delivers (registered cs) lib := by
  intro hall
  obtain ⟨lib, h⟩ := run_twoHandlers
  have hinv := h.inv (unregistersAll_register _ _)
  obtain ⟨lib₁, ret₁, hrun, -, hret⟩ :=
    inv_unregisterHandlers (fun _ => true) [⟨"/A".toList, some 0⟩] eUaOk hinv
  rw [hret fun _ => rfl] at hrun
  have hcall : call (fun _ => ⟨false, false, true⟩) lib
      (.unregister [⟨"/A".toList, some 0⟩] fun _ => true) =
        some ({ lib₁ with state := .initialized, riTree := none }, eUaOk) := by
    simp only [call, uaUnregister, hrun]
    rfl
  have hrun₂ := h.snoc (Call.unregister _ _) trivial hcall
  refine hrun₂.not_delivers (e := ⟨components "/A/B".toList, some 0, 2⟩) ?_ ?_ (hall _ _ _ hrun₂)
  · exact Or.inr ⟨_, List.mem_cons_of_mem _ List.mem_cons_self, rfl⟩
  · rintro ⟨handler, hmem, hpath, -⟩
    rw [List.mem_singleton.mp hmem] at hpath
    revert hpath
    decide

end EsyncUa.Delivery
