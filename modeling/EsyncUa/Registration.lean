import EsyncUa.Components
import EsyncUa.RoutingTree

/-!
Registration of handlers with the library and delivery of bus messages to their runners.
ua_register allocates one runner for each handler and puts it in the routing tree;
ua_unregister takes the runners of a handler out of the tree, frees them, and then drops
the tree. A message is queued to every runner that the tree gathers for its type.
The addresses that malloc returns and the outcomes of the thread calls are inputs.
-/
namespace EsyncUa.Registration

open EsyncUa.JsonProperties EsyncUa.Components EsyncUa.Routing EsyncUa.RoutingTree

def eUaArg : Rc := -3

/-- ua_handler_t; `routine` is the address that get_routine returns. -/
structure Handler (κ : Type) where
  typeHandler : List Char
  routine : Option κ

/-- Which of the callbacks that ua_register checks a routine has. -/
structure Callbacks where
  onGetVersion : Bool
  onInstall : Bool
  onMessage : Bool

structure RunnerInfo (κ : Type) where
  type : List Char
  uar : Option κ
  run : Bool
  queue : List (List Char)

/-- The registration state of the library; `none` in `runners` is memory that is not
allocated. -/
structure Library (ρ κ : Type) where
  riTree : Option (Node ρ)
  runners : ρ → Option (RunnerInfo κ)
  uah : List (Handler κ)
  state : UaInternalState

/-- The address of a new runner and whether its locks, its thread and the lock of its
status are created. -/
structure Start (ρ : Type) where
  address : ρ
  threadCreated : Bool
  statusLockCreated : Bool

section Model

variable {ρ κ : Type} [LinearOrder ρ] [DecidableEq κ]

/-- query_hash_tree on ri_tree, which may be null. -/
def queryRiTree (tree : Option (Node ρ)) (ri : Option ρ) (uaType : List Char) (isDelete : Bool)
    (gather : Option (List ρ)) (tip : Bool) : Option (Option (Node ρ) × Option (List ρ)) :=
  match tree with
  | none => some (none, gather)
  | some current =>
      (queryHashTree current ri uaType isDelete gather tip).map fun r => (some r.1, r.2)

def setRunner (lib : Library ρ κ) (ri : ρ) (info : Option (RunnerInfo κ)) : Library ρ κ :=
  { lib with runners := Function.update lib.runners ri info }

/-- One round of the loop of ua_register. -/
def registerHandler (callbacks : κ → Callbacks) (lib : Library ρ κ) (uah : Handler κ)
    (start : Start ρ) : Option (Library ρ κ × Rc) :=
  let ri := start.address
  let lib := setRunner lib ri (some ⟨uah.typeHandler, uah.routine, true, []⟩)
  match uah.routine with
  | none => some (lib, eUaArg)
  | some uar =>
      if uah.typeHandler = [] then some (lib, eUaArg)
      else if ((callbacks uar).onGetVersion = false ∨ (callbacks uar).onInstall = false) ∧
          (callbacks uar).onMessage = false then some (lib, eUaArg)
      else if start.threadCreated = false then some (lib, eUaSys)
      else do
        let (tree, _) ← queryRiTree lib.riTree (some ri) uah.typeHandler false none false
        let lib := { lib with riTree := tree }
        if start.statusLockCreated = false then some (lib, eUaSys)
        else some ({ lib with state := .handlerRegistered }, eUaOk)

/-- The loop of ua_unregister over the runners gathered for one handler; `ends` tells
whether the thread of a runner is joined and its locks destroyed. -/
def unregisterRunners (ends : ρ → Bool) (uaType : List Char) (uar : Option κ) :
    List ρ → Library ρ κ × Rc → Option (Library ρ κ × Rc)
  | [], r => some r
  | ri :: rest, (lib, ret) => do
      let info ← lib.runners ri
      if info.uar = uar then
        let (tree, _) ← queryRiTree lib.riTree (some ri) uaType true none false
        let lib := { lib with riTree := tree }
        if ends ri then unregisterRunners ends uaType uar rest (setRunner lib ri none, ret)
        else
          unregisterRunners ends uaType uar rest
            (setRunner lib ri (some { info with run := false }), eUaSys)
      else unregisterRunners ends uaType uar rest (lib, ret)

/-- The loop of ua_unregister over its handlers. -/
def unregisterHandlers (ends : ρ → Bool) :
    List (Handler κ) → Library ρ κ × Rc → Option (Library ρ κ × Rc)
  | [], r => some r
  | uah :: rest, (lib, ret) => do
      let (tree, riList) ← queryRiTree lib.riTree none uah.typeHandler false (some []) true
      let r ← unregisterRunners ends uah.typeHandler uah.routine (riList.getD [])
        ({ lib with riTree := tree }, ret)
      unregisterHandlers ends rest r

/-- ua_unregister. -/
def uaUnregister (ends : ρ → Bool) (lib : Library ρ κ) (uah : List (Handler κ)) :
    Option (Library ρ κ × Rc) := do
  let (lib, ret) ← unregisterHandlers ends uah (lib, eUaOk)
  return ({ lib with state := .initialized, riTree := none }, ret)

/-- The loop of ua_register; a round that fails frees its runner and unregisters all handlers. -/
def registerHandlers (callbacks : κ → Callbacks) (ends : ρ → Bool) (all : List (Handler κ)) :
    List (Handler κ × Start ρ) → Library ρ κ → Option (Library ρ κ × Rc)
  | [], lib => some (lib, eUaOk)
  | (uah, start) :: rest, lib => do
      let (lib, err) ← registerHandler callbacks lib uah start
      if err = eUaOk then registerHandlers callbacks ends all rest lib
      else do
        let (lib, _) ← uaUnregister ends (setRunner lib start.address none) all
        return (lib, err)

/-- ua_register; each handler comes with the start of its runner. -/
def uaRegister (callbacks : κ → Callbacks) (ends : ρ → Bool) (lib : Library ρ κ)
    (uah : List (Handler κ × Start ρ)) : Option (Library ρ κ × Rc) :=
  let all := uah.map Prod.fst
  registerHandlers callbacks ends all uah
    { lib with uah := all, riTree := some (lib.riTree.getD .bare) }

/-- The loop of handle_message over the gathered runners. -/
def appendMessage (msg : List Char) : List ρ → Library ρ κ → Option (Library ρ κ)
  | [], lib => some lib
  | ri :: rest, lib => do
      let info ← lib.runners ri
      appendMessage msg rest (setRunner lib ri (some { info with queue := info.queue ++ [msg] }))

/-- handle_message. -/
def handleMessage (lib : Library ρ κ) (type msg : List Char) : Option (Library ρ κ) := do
  let (tree, riList) ← queryRiTree lib.riTree none type false (some []) false
  appendMessage msg (riList.getD []) { lib with riTree := tree }

end Model

end EsyncUa.Registration
