import EsyncUa.DownloadRuns
import EsyncUa.Phases

/-!
The one download context of the agent, which the workers of all its components share. The
guard of ua_dl_start_download compares the requested package with the name and the version of
a context that exists; ua_dl_init zeroes them with the context and nobody sets them.
-/
namespace EsyncUa.DownloadContexts

open EsyncUa.JsonProperties EsyncUa.Programs EsyncUa.Machines EsyncUa.Downloads EsyncUa.Phases
open EsyncUa.Schedules

/-- ua_dl_context_t as the guard sees it, with the rest as the thread that made it left it. -/
structure DlContext where
  name : Option String
  version : Option String
  stopCompletedStatus : Bool
  dlc : UaDlContext

/-- The contexts ever made, by address, the address `ua_dlc`, and what is known of the last
message: `old_campaign_id` and `download_postponed`. -/
structure Globals where
  context : Nat → Option DlContext
  next : Nat
  uaDlc : Option Nat
  oldCampaignId : Int32
  downloadPostponed : Bool

/-- The context that `ua_dlc` points to. -/
def Globals.current (g : Globals) : Option DlContext := g.uaDlc.bind g.context

/-- A start-download message whose properties have been read; `campaign` is the value of the
id as atoi reads it. -/
structure StartDownload where
  pkgInfo : PkgInfo
  campaign : Int32

/-- The two files that a finished download leaves. -/
inductive DownloadedFile
  | received | encrypted

inductive ContextOp
  | accessDownloaded (pkgInfo : PkgInfo) (file : DownloadedFile)
  | sessionRestart
  | setOldCampaignId (campaign : Int32)
  | setDownloadPostponed (postponed : Bool)
  | enter (request : PkgInfo)
  | compare (value : Option String) (with_ : String)
  | publish (dlc : UaDlContext)
  | release (dlc : Option Nat)
  | clear
  | setStopCompletedStatus
  | download (o : DlOp)
  | returned (request : PkgInfo) (rc : Rc)
  | running
  | crash

/-- `enter` answers whether there is a context; nothing answers a step that is never over and the
use of a null pointer. -/
@[reducible] def ContextOp.Ans : ContextOp → Type
  | accessDownloaded _ _ | sessionRestart | enter _ => Bool
  | download o => o.Ans
  | running | crash => Empty
  | setOldCampaignId _ | setDownloadPostponed _ | compare _ _ | publish _ | release _ | clear
  | setStopCompletedStatus | returned _ _ => Unit

abbrev ContextProg := Prog Globals ContextOp.Ans

def op (o : ContextOp) : ContextProg o.Ans := Prog.perform o

/-- A part of the download that works on the context at an address, or on none. -/
def download {α : Type} (dlc : Option Nat) (p : DlProg α) : ContextProg α :=
  p.embed (fun g => ⟨(dlc.bind g.context).map (·.stopCompletedStatus), g.downloadPostponed⟩)
    ContextOp.download fun _ b => b

/-- The field of a context that is not null. -/
def orCrash {α : Type} : Option α → ContextProg α
  | some a => pure a
  | none => do
      let crashed : Empty ← op .crash
      crashed.elim

/-- `0 != strcmp(…)` with a field of the current context. -/
def differs (field : DlContext → Option String) (with_ : String) : ContextProg Bool := do
  let current ← Prog.read Globals.current
  let dlc ← orCrash current
  op (.compare (field dlc) with_)
  let value ← orCrash (field dlc)
  pure (value != with_)

/-- ua_dl_release of the current context. -/
def uaDlRelease : ContextProg Unit := do
  let dlc ← Prog.read Globals.uaDlc
  op (.release dlc)

/-- The guard of ua_dl_start_download when there is a context; true if the request is for the
download in progress. -/
def sameDownload (pkgInfo : PkgInfo) : ContextProg Bool := do
  let version ← differs (·.version) pkgInfo.version
  let other ← (if version then pure true else differs (·.name) pkgInfo.name)
  if other then
    uaDlRelease
    op .clear
    pure false
  else pure true

/-- ua_dl_init, which publishes the context when it has settled the files. -/
def uaDlInitContext (pkgInfo : PkgInfo) : ContextProg Bool := do
  let made ← download none (uaDlInit pkgInfo)
  match made with
  | none => pure false
  | some dlc =>
      op (.publish dlc)
      pure true

/-- ua_dl_step_action of the current context; without fuel it is still running. -/
def stepAction (fuel : Nat) : ContextProg Rc := do
  let g ← Prog.read id
  match g.uaDlc, g.current with
  | some dlc, some context => do
      let ret ← download (some dlc) (uaDlStepAction fuel context.dlc)
      match ret with
      | some ret => pure ret
      | none => do
          let ended : Empty ← op .running
          ended.elim
  | _, _ => pure eUaErr

/-- ua_dl_start_download. -/
def uaDlStartDownload (fuel : Nat) (pkgInfo : PkgInfo) : ContextProg Unit := do
  let exists_ : Bool ← op (.enter pkgInfo)
  let same ← (if exists_ then sameDownload pkgInfo else pure false)
  if same then op (.returned pkgInfo eUaOk)
  else
    let made ← uaDlInitContext pkgInfo
    if made then
      let _ ← download none (Downloads.op .sendQueryTrust)
      let ret ← stepAction fuel
      uaDlRelease
      op .clear
      op (.returned pkgInfo ret)
    else op (.returned pkgInfo eUaErr)

/-- The message is a repetition: its campaign is the last one and its file is there. -/
def alreadyProcessed (jsonObj : StartDownload) : ContextProg Bool := do
  let g ← Prog.read id
  if jsonObj.campaign = g.oldCampaignId then
    let received : Bool ← op (.accessDownloaded jsonObj.pkgInfo .received)
    let there : Bool ← (if received then pure true
      else op (.accessDownloaded jsonObj.pkgInfo .encrypted))
    if there then
      let restart : Bool ← op .sessionRestart
      if restart then pure false
      else
        let postponed ← Prog.read Globals.downloadPostponed
        pure !postponed
    else pure false
  else pure false

/-- process_start_download. -/
def processStartDownload (fuel : Nat) (jsonObj : StartDownload) : ContextProg Unit := do
  let processed ← alreadyProcessed jsonObj
  if processed then pure ()
  else
    op (.setDownloadPostponed false)
    op (.setOldCampaignId jsonObj.campaign)
    uaDlStartDownload fuel jsonObj.pkgInfo

/-- ua_dl_stop_sending_completed_status. -/
def uaDlStopSendingCompletedStatus : ContextProg Unit := do
  let current ← Prog.read Globals.current
  if current.any (!·.stopCompletedStatus) then op .setStopCompletedStatus
  else pure ()

/-- process_download_postpone. -/
def processDownloadPostpone : ContextProg Unit := op (.setDownloadPostponed true)

/-! The runs. -/

/-- The workers of the components `κ` and the threads of the other messages. -/
inductive Thread (κ : Type)
  | worker (u : κ) | message (n : Nat)
  deriving DecidableEq

/-- An entry of ua_dl_start_download with the context that it finds, a comparison, and a
result. -/
inductive ContextEvent (κ : Type)
  | entered (t : Thread κ) (request : PkgInfo) (exists_ : Bool) (found : Option DlContext)
  | compared (t : Thread κ) (value : Option String) (with_ : String)
  | returned (t : Thread κ) (request : PkgInfo) (rc : Rc)

structure ContextState (κ : Type) where
  globals : Globals
  history : List (ContextEvent κ)

variable {κ : Type}

def did (s : ContextState κ) (e : ContextEvent κ) : ContextState κ :=
  { s with history := e :: s.history }

def Globals.setContext (g : Globals) (a : Nat) (dlc : Option DlContext) : Globals :=
  { g with context := Function.update g.context a dlc }

/-- The context is zeroed when it is made, its name and its version with it. -/
def Globals.publish (g : Globals) (dlc : UaDlContext) : Globals :=
  { g.setContext g.next (some ⟨none, none, false, dlc⟩) with
    next := g.next + 1
    uaDlc := some g.next }

def Globals.stop (g : Globals) : Globals :=
  match g.uaDlc with
  | none => g
  | some a => g.setContext a ((g.context a).map ({ · with stopCompletedStatus := true }))

/-- The state after an operation of a thread with an answer; `none` if the answer is not
possible. -/
def effect (t : Thread κ) : (o : ContextOp) → o.Ans → ContextState κ → Option (ContextState κ)
  | .enter request, (b : Bool), s =>
      if b = s.globals.uaDlc.isSome then some (did s (.entered t request b s.globals.current))
      else none
  | .compare value with_, _, s => some (did s (.compared t value with_))
  | .publish dlc, _, s => some { s with globals := s.globals.publish dlc }
  | .release none, _, s => some s
  | .release (some a), _, s => some { s with globals := s.globals.setContext a none }
  | .clear, _, s => some { s with globals := { s.globals with uaDlc := none } }
  | .setStopCompletedStatus, _, s => some { s with globals := s.globals.stop }
  | .setOldCampaignId campaign, _, s =>
      some { s with globals := { s.globals with oldCampaignId := campaign } }
  | .setDownloadPostponed postponed, _, s =>
      some { s with globals := { s.globals with downloadPostponed := postponed } }
  | .returned request rc, _, s => some (did s (.returned t request rc))
  | .accessDownloaded _ _, _, s | .sessionRestart, _, s | .download _, _, s => some s

/-- What the messages of the bus make a thread run. -/
def Arrives : Thread κ → ContextProg Unit → Prop
  | .worker _, p => ∃ fuel jsonObj, p = processStartDownload fuel jsonObj
  | .message _, p => p = uaDlStopSendingCompletedStatus ∨ p = processDownloadPostpone

/-- The memory of an agent that has just started. -/
def startGlobals : Globals := ⟨fun _ => none, 0, none, 0, false⟩

/-- The runs of an agent with the components `κ`; the history is that of the process. -/
def machine (κ : Type) : Machine (Thread κ) Globals (ContextState κ) ContextOp.Ans where
  mem := ContextState.globals
  init := fun s => s = ⟨startGlobals, []⟩
  act := fun t o b s s' => effect t o b s = some s'
  fork := fun _ _ _ => none
  arrive := fun t p s s' => Arrives t p ∧ s' = s
  restart := fun _ s' => s' = ⟨startGlobals, []⟩

/-- The context that the last entry of a thread found. -/
def lastFound [DecidableEq κ] (t : Thread κ) : List (ContextEvent κ) → Option DlContext
  | [] => none
  | .entered t' _ _ found :: h => if t' = t then found else lastFound t h
  | _ :: h => lastFound t h

/-- The guard works: a context that exists has the name and the version of its download, nothing
is compared with an absent string, and a request for the download in progress succeeds. -/
structure Guarded [DecidableEq κ] (h : List (ContextEvent κ)) : Prop where
  named : ∀ t request found, .entered t request true found ∈ h → ∃ dlc, found = some dlc ∧
    dlc.name = some dlc.dlc.pkgInfo.name ∧ dlc.version = some dlc.dlc.pkgInfo.version
  compares : ∀ t value with_, .compared t value with_ ∈ h → value ≠ none
  answers : ∀ after before t request rc dlc, h = after ++ .returned t request rc :: before →
    lastFound t before = some dlc → dlc.dlc.pkgInfo.name = request.name →
    dlc.dlc.pkgInfo.version = request.version → rc = eUaOk

/-- No ua_dl_start_download was entered while a context existed. -/
def EnteredAlone (h : List (ContextEvent κ)) : Prop :=
  ∀ t request found, .entered t request true found ∉ h

/-! No context has a name or a version. -/

/-- The contexts that exist and those that were found have neither name nor version; they are
found only where `ua_dlc` is not null. -/
structure Unnamed (s : ContextState κ) : Prop where
  context : ∀ a dlc, s.globals.context a = some dlc → dlc.name = none ∧ dlc.version = none
  found : ∀ t request b dlc, .entered t request b (some dlc) ∈ s.history →
    dlc.name = none ∧ b = true

theorem unnamed_did {s : ContextState κ} {e : ContextEvent κ} (hs : Unnamed s)
    (he : ∀ t request b dlc, e = .entered t request b (some dlc) → dlc.name = none ∧ b = true) :
    Unnamed (did s e) := by
  refine ⟨hs.context, fun t request b dlc hmem => ?_⟩
  obtain heq | hmem := List.mem_cons.mp hmem
  · exact he t request b dlc heq.symm
  · exact hs.found t request b dlc hmem

theorem unnamed_setContext {s : ContextState κ} {a : Nat} {dlc : Option DlContext}
    (hs : Unnamed s) (hdlc : ∀ d, dlc = some d → d.name = none ∧ d.version = none) :
    Unnamed { s with globals := s.globals.setContext a dlc } := by
  refine ⟨fun a' d hd => ?_, hs.found⟩
  by_cases ha : a' = a
  · apply hdlc
    simpa [Globals.setContext, ha] using hd
  · apply hs.context a'
    simpa [Globals.setContext, ha] using hd

theorem unnamed_stop {s : ContextState κ} (hs : Unnamed s) :
    Unnamed { s with globals := s.globals.stop } := by
  unfold Globals.stop
  cases s.globals.uaDlc with
  | none => exact hs
  | some a =>
    refine unnamed_setContext hs fun d hd => ?_
    obtain ⟨d', hd', heq⟩ := Option.map_eq_some_iff.mp hd
    rw [← heq]
    exact hs.context a d' hd'

theorem unnamed_publish {s : ContextState κ} (hs : Unnamed s) (dlc : UaDlContext) :
    Unnamed { s with globals := s.globals.publish dlc } := by
  have hset : Unnamed { s with
      globals := s.globals.setContext s.globals.next (some ⟨none, none, false, dlc⟩) } := by
    refine unnamed_setContext hs fun d hd => ?_
    rw [← Option.some.inj hd]
    exact ⟨rfl, rfl⟩
  exact ⟨hset.context, hs.found⟩

theorem effect_unnamed {t : Thread κ} {o : ContextOp} {b : o.Ans} {s s' : ContextState κ}
    (hs : Unnamed s) (h : effect t o b s = some s') : Unnamed s' := by
  cases o with
  | enter request =>
    simp only [effect] at h
    split at h
    · rename_i hb
      cases h
      refine unnamed_did hs fun t' request' b' dlc heq => ?_
      injection heq with _ _ hb' hfound
      obtain ⟨a, hcurrent, ha⟩ := Option.bind_eq_some_iff.mp hfound
      rw [hcurrent] at hb
      exact ⟨(hs.context a dlc ha).1, hb'.symm.trans hb⟩
    · cases h
  | compare value with_ =>
    cases h
    exact unnamed_did hs (by simp)
  | returned request rc =>
    cases h
    exact unnamed_did hs (by simp)
  | publish dlc =>
    cases h
    exact unnamed_publish hs dlc
  | release dlc =>
    cases dlc with
    | none =>
      cases h
      exact hs
    | some a =>
      cases h
      exact unnamed_setContext hs (by simp)
  | setStopCompletedStatus =>
    cases h
    exact unnamed_stop hs
  | running | crash => exact b.elim
  | clear | setOldCampaignId _ | setDownloadPostponed _ =>
    cases h
    exact ⟨hs.context, hs.found⟩
  | accessDownloaded _ _ | sessionRestart | download _ =>
    cases h
    exact hs

theorem unnamed_of_reachable [DecidableEq κ]
    {c : Config (Thread κ) Globals (ContextState κ) ContextOp.Ans}
    (hc : (machine κ).Reachable c) : Unnamed c.st := by
  refine hc.invariant ?_ ?_ ?_ ?_
  · intro s hs
    rw [hs]
    exact ⟨by simp [startGlobals], by simp⟩
  · intro t o b s s' hs hact
    exact effect_unnamed hs hact
  · intro t p s s' hs hactive
    rw [hactive.2]
    exact hs
  · intro s s' _ hrestart
    rw [hrestart]
    exact ⟨by simp [startGlobals], by simp⟩

/-! A comparison follows an entry that found a context. -/

/-- Some ua_dl_start_download was entered while a context existed. -/
def Met (h : List (ContextEvent κ)) : Prop :=
  ∃ t request found, .entered t request true found ∈ h

/-- Whether the current entry of the thread found a context. -/
def afterOp (x : Bool) : (o : ContextOp) → o.Ans → Bool
  | .enter _, b => b
  | .returned _ _, _ => false
  | _, _ => x

/-- A thread compares only when it has found a context. -/
def protocol (κ : Type) : Protocol (Thread κ) Globals Bool ContextOp.Ans where
  reads := fun _ _ => True
  sees := fun _ x _ x' => x' = x
  may := fun _ _ _ => True
  does := fun _ x o b x' =>
    x' = afterOp x o b ∧ ∀ value with_, o = .compare value with_ → x = true

/-- What holds after a thread has found a context, and after a comparison. -/
def Fits (_t : Thread κ) (x : Bool) (s : ContextState κ) : Prop :=
  (x = true → Met s.history) ∧
    ∀ t value with_, .compared t value with_ ∈ s.history → Met s.history

abbrev Keeps {α : Type} (t : Thread κ) (p : ContextProg α) (x : Bool) : Prop :=
  (protocol κ).Follows t p x fun _ x' => x' = x

variable {t : Thread κ} {x : Bool} {α β : Type}

theorem Keeps.bind {p : ContextProg α} {f : α → ContextProg β} {Q : β → Bool → Prop}
    (hp : Keeps t p x) (hf : ∀ a, (protocol κ).Follows t (f a) x Q) :
    (protocol κ).Follows t (p >>= f) x Q := by
  refine Protocol.Follows.bind (hp.mono fun a x' hx => ?_)
  rw [hx]
  exact hf a

theorem keeps_read (f : Globals → α) : Keeps t (Prog.read f) x :=
  ⟨trivial, fun _ => ⟨x, rfl, rfl⟩⟩

theorem keeps_op {o : ContextOp} (ho : ∀ b, afterOp x o b = x)
    (hcompare : ∀ value with_, o = .compare value with_ → x = true) : Keeps t (op o) x :=
  .perform trivial fun b => ⟨(ho b).symm, hcompare⟩

theorem keeps_download (dlc : Option Nat) (p : DlProg α) : Keeps t (download dlc p) x := by
  refine .within (Prog.all_embed _ _ _ p) trivial (fun _ => rfl) fun o ho => ⟨trivial, fun b => ?_⟩
  obtain ⟨o', rfl⟩ := ho
  exact ⟨rfl, by simp⟩

theorem keeps_orCrash (value : Option α) : Keeps t (orCrash value) x := by
  cases value with
  | none => exact ⟨trivial, fun b => b.elim⟩
  | some a => rfl

theorem keeps_differs (field : DlContext → Option String) (with_ : String) :
    Keeps t (differs field with_) true := by
  refine (keeps_read _).bind fun current => (keeps_orCrash _).bind fun dlc => ?_
  refine (keeps_op (fun _ => rfl) fun _ _ _ => rfl).bind fun _ => ?_
  exact (keeps_orCrash _).bind fun value => rfl

theorem keeps_uaDlRelease : Keeps t uaDlRelease x :=
  (keeps_read _).bind fun _ => keeps_op (fun _ => rfl) (by simp)

theorem keeps_sameDownload (pkgInfo : PkgInfo) : Keeps t (sameDownload pkgInfo) true := by
  refine (keeps_differs _ _).bind fun version => ?_
  have hname : Keeps t
      (if version then pure true else differs (·.name) pkgInfo.name) true := by
    cases version with
    | false => exact keeps_differs _ _
    | true => rfl
  refine hname.bind fun other => ?_
  cases other with
  | false => rfl
  | true =>
    refine keeps_uaDlRelease.bind fun _ => ?_
    exact (keeps_op (fun _ => rfl) (by simp)).bind fun _ => rfl

theorem keeps_uaDlInitContext (pkgInfo : PkgInfo) : Keeps t (uaDlInitContext pkgInfo) x := by
  refine (keeps_download _ _).bind fun made => ?_
  cases made with
  | none => rfl
  | some dlc => exact (keeps_op (fun _ => rfl) (by simp)).bind fun _ => rfl

theorem keeps_stepAction (fuel : Nat) : Keeps t (stepAction fuel) x := by
  refine (keeps_read _).bind fun g => ?_
  split
  · refine (keeps_download _ _).bind fun ret => ?_
    cases ret with
    | none => exact ⟨trivial, fun b => b.elim⟩
    | some ret => rfl
  · rfl

theorem keeps_alreadyProcessed (jsonObj : StartDownload) :
    Keeps t (alreadyProcessed jsonObj) x := by
  refine (keeps_read _).bind fun g => ?_
  split
  · refine (keeps_op (fun _ => rfl) (by simp)).bind fun received => ?_
    have hthere : Keeps t (if received then pure true
        else op (.accessDownloaded jsonObj.pkgInfo .encrypted)) x := by
      cases received with
      | false => exact keeps_op (fun _ => rfl) (by simp)
      | true => rfl
    refine hthere.bind fun there => ?_
    cases there with
    | false => rfl
    | true =>
      refine (keeps_op (fun _ => rfl) (by simp)).bind fun restart => ?_
      cases restart with
      | false => exact (keeps_read _).bind fun _ => rfl
      | true => rfl
  · rfl

/-- With its result the thread has left the guard. -/
theorem follows_returned (request : PkgInfo) (rc : Rc) :
    (protocol κ).Follows t (op (.returned request rc)) x fun _ x' => x' = false :=
  .perform trivial fun _ => ⟨rfl, by simp⟩

theorem uaDlStartDownload_follows (fuel : Nat) (pkgInfo : PkgInfo) :
    (protocol κ).Follows t (uaDlStartDownload fuel pkgInfo) x fun _ x' => x' = false := by
  refine ⟨trivial, fun b => ⟨b, ⟨rfl, by simp⟩, ?_⟩⟩
  have hsame : Keeps t (if b = true then sameDownload pkgInfo else pure false) b := by
    cases b with
    | false => rfl
    | true => exact keeps_sameDownload pkgInfo
  refine hsame.bind fun same => ?_
  cases same with
  | true => exact follows_returned pkgInfo eUaOk
  | false =>
    refine (keeps_uaDlInitContext pkgInfo).bind fun made => ?_
    cases made with
    | false => exact follows_returned pkgInfo eUaErr
    | true =>
      refine (keeps_download _ _).bind fun _ => (keeps_stepAction fuel).bind fun ret => ?_
      refine keeps_uaDlRelease.bind fun _ => ?_
      exact (keeps_op (fun _ => rfl) (by simp)).bind fun _ => follows_returned pkgInfo ret

theorem arrives_follows {p : ContextProg Unit} (h : Arrives t p) :
    (protocol κ).Follows t p false fun _ x => x = false := by
  cases t with
  | worker u =>
    obtain ⟨fuel, jsonObj, rfl⟩ := h
    refine (keeps_alreadyProcessed jsonObj).bind fun processed => ?_
    cases processed with
    | true => rfl
    | false =>
      refine (keeps_op (fun _ => rfl) (by simp)).bind fun _ => ?_
      exact (keeps_op (fun _ => rfl) (by simp)).bind fun _ => uaDlStartDownload_follows _ _
  | message n =>
    obtain rfl | rfl := h
    · refine (keeps_read _).bind fun current => ?_
      split
      · exact keeps_op (fun _ => rfl) (by simp)
      · rfl
    · exact keeps_op (fun _ => rfl) (by simp)

/-- The event that an operation with an answer adds to the history. -/
def eventOf (t : Thread κ) : (o : ContextOp) → o.Ans → ContextState κ → List (ContextEvent κ)
  | .enter request, b, s => [.entered t request b s.globals.current]
  | .compare value with_, _, _ => [.compared t value with_]
  | .returned request rc, _, _ => [.returned t request rc]
  | _, _, _ => []

theorem effect_history {o : ContextOp} {b : o.Ans} {s s' : ContextState κ}
    (h : effect t o b s = some s') : s'.history = eventOf t o b s ++ s.history := by
  cases o with
  | enter request =>
    simp only [effect] at h
    split at h
    · cases h
      rfl
    · cases h
  | release dlc =>
    cases dlc <;> cases h <;> rfl
  | running | crash => exact b.elim
  | _ =>
    cases h
    rfl

theorem met_append {l h : List (ContextEvent κ)} (hmet : Met h) : Met (l ++ h) := by
  obtain ⟨t, request, found, hmem⟩ := hmet
  exact ⟨t, request, found, List.mem_append_right l hmem⟩

/-- What one operation keeps, for its thread and for the others. -/
theorem effect_fits {o : ContextOp} {b : o.Ans} {s s' : ContextState κ} {x' : Bool}
    (hx : Fits t x s) (h : effect t o b s = some s') (hdoes : (protocol κ).does t x o b x') :
    Fits t x' s' ∧ ∀ t₂ x₂, Fits t₂ x₂ s → Fits t₂ x₂ s' := by
  have hhistory := effect_history h
  have hcompared : ∀ t' value with_, .compared t' value with_ ∈ s'.history → Met s'.history := by
    intro t' value with_ hmem
    rw [hhistory] at hmem ⊢
    apply met_append
    obtain hmem | hmem := List.mem_append.mp hmem
    · cases o with
      | compare value' with_' => exact hx.1 (hdoes.2 _ _ rfl)
      | enter _ | returned _ _ => simp [eventOf] at hmem
      | _ => cases hmem
    · exact hx.2 _ _ _ hmem
  have hkeep : ∀ t₂ x₂, Fits t₂ x₂ s → Fits t₂ x₂ s' := by
    intro t₂ x₂ h₂
    refine ⟨fun hx₂ => ?_, hcompared⟩
    rw [hhistory]
    exact met_append (h₂.1 hx₂)
  refine ⟨⟨fun hx' => ?_, hcompared⟩, hkeep⟩
  rw [hdoes.1] at hx'
  cases o with
  | enter request =>
    rw [hhistory, show b = true from hx']
    exact ⟨t, request, _, List.mem_append_left _ (List.mem_singleton_self _)⟩
  | returned _ _ => cases hx'
  | _ => exact (hkeep t x hx).1 hx'

theorem sound : (protocol κ).Sound false Fits (machine κ) where
  init := by
    intro s hs t
    rw [hs]
    exact ⟨by simp, by simp⟩
  restart := by
    intro s s' hs t
    rw [hs]
    exact ⟨by simp, by simp⟩
  sees := by
    intro t s phase x' hfits hsees
    rw [hsees]
    exact hfits t
  act := by
    intro t o b s s' phase x' hfits hact hdoes
    obtain ⟨ht, hothers⟩ := effect_fits (hfits t) hact hdoes
    exact ⟨ht, fun t₂ _ _ => hothers t₂ _ (hfits t₂), by simp [machine]⟩
  arrive := by
    intro t p s s' phase hfits hrest harrive
    rw [harrive.2]
    refine ⟨⟨false, ?_, arrives_follows harrive.1⟩, fun t₂ _ => hfits t₂⟩
    rw [← hrest]
    exact hfits t

section Runs

variable [DecidableEq κ] {c : Config (Thread κ) Globals (ContextState κ) ContextOp.Ans}

theorem lastFound_entered {t : Thread κ} {dlc : DlContext} (h : List (ContextEvent κ))
    (hlast : lastFound t h = some dlc) :
    ∃ request b, .entered t request b (some dlc) ∈ h := by
  induction h with
  | nil => cases hlast
  | cons e h ih =>
    cases e with
    | entered t' request b found =>
      by_cases ht : t' = t
      · simp only [lastFound, if_pos ht] at hlast
        subst ht hlast
        exact ⟨request, b, List.mem_cons_self⟩
      · simp only [lastFound, if_neg ht] at hlast
        obtain ⟨request', b', hmem⟩ := ih hlast
        exact ⟨request', b', List.mem_cons_of_mem _ hmem⟩
    | compared _ _ _ | returned _ _ _ =>
      obtain ⟨request', b', hmem⟩ := ih hlast
      exact ⟨request', b', List.mem_cons_of_mem _ hmem⟩

/-- A history whose entries found no context meets the guard; no entry that finds one does. -/
theorem guarded_iff_enteredAlone (hc : (machine κ).Reachable c) :
    Guarded c.st.history ↔ EnteredAlone c.st.history := by
  have hunnamed := unnamed_of_reachable hc
  constructor
  · intro hguarded t request found hmem
    obtain ⟨dlc, rfl, hname, -⟩ := hguarded.named t request found hmem
    rw [(hunnamed.found t request true dlc hmem).1] at hname
    cases hname
  · intro halone
    have hnotMet : ¬Met c.st.history := by
      intro ⟨t, request, found, hmem⟩
      exact halone t request found hmem
    refine ⟨fun t request found hmem => absurd hmem (halone t request found), ?_, ?_⟩
    · intro t value with_ hmem
      obtain ⟨phase, hphase⟩ := sound.phases hc
      exact absurd ((hphase t).1.2 t value with_ hmem) hnotMet
    · intro after before t request rc dlc hhistory hlast
      obtain ⟨request', b, hmem⟩ := lastFound_entered before hlast
      have hin : .entered t request' b (some dlc) ∈ c.st.history := by
        rw [hhistory]
        exact List.mem_append_right after (List.mem_cons_of_mem _ hmem)
      obtain ⟨-, rfl⟩ := hunnamed.found t request' b dlc hin
      exact absurd hin (halone t request' _)

end Runs

/-! Two components that download one after the other, and at the same time. -/

/-- The answers of a download that succeeds, with no file from an earlier one. -/
def usual (s : ContextState κ) : (o : ContextOp) → Option o.Ans
  | .enter _ => some s.globals.uaDlc.isSome
  | .accessDownloaded _ _ | .sessionRestart => some false
  | .download o => DownloadRuns.succeeding o
  | .running | .crash => none
  | .setOldCampaignId _ | .setDownloadPostponed _ | .compare _ _ | .publish _ | .release _ | .clear
  | .setStopCompletedStatus | .returned _ _ => some ()

def player (κ : Type) : Player (machine κ) where
  answer := fun t s o => (usual s o).bind fun b => (effect t o b s).map fun s' => (b, s')
  sound := by
    intro t s o b s' h
    exact (answered h).2

/-- A start-download message for a component. -/
def start (u : Nat) (jsonObj : StartDownload) : Move (machine Nat) :=
  .arrive (.worker u) (processStartDownload 20 jsonObj) some fun _ _ hs =>
    ⟨⟨20, jsonObj, rfl⟩, (Option.some.inj hs).symm⟩

def stopReports : Move (machine Nat) :=
  .arrive (.message 0) uaDlStopSendingCompletedStatus some fun _ _ hs =>
    ⟨Or.inl rfl, (Option.some.inj hs).symm⟩

def firstPkg : StartDownload := ⟨⟨"one", "1", "first", 0⟩, 1⟩

def secondPkg : StartDownload := ⟨⟨"two", "2", "second", 0⟩, 2⟩

def afterSchedule (moves : List (Move (machine Nat))) :
    Config (Thread Nat) Globals (ContextState Nat) ContextOp.Ans :=
  (player Nat).play moves ⟨⟨startGlobals, []⟩, idlePool⟩

theorem afterSchedule_reachable (moves : List (Move (machine Nat))) :
    (machine Nat).Reachable (afterSchedule moves) :=
  Player.play_reachable _ _ (.init _ rfl)

/-- The second download begins when the first one has ended. -/
def inTurn : List (Move (machine Nat)) :=
  [start 0 firstPkg, .steps (.worker 0) 40, stopReports, .steps (.message 0) 4,
    .steps (.worker 0) 40, start 1 secondPkg, .steps (.worker 1) 40]

def isEntry : ContextEvent κ → Option Bool
  | .entered _ _ exists_ _ => some exists_
  | _ => none

theorem guarded_iff_enteredAlone_example :
    (afterSchedule inTurn).st.history.filterMap isEntry = [false, false] ∧
      Guarded (afterSchedule inTurn).st.history := by
  have hentries : (afterSchedule inTurn).st.history.filterMap isEntry = [false, false] := by
    decide +kernel
  refine ⟨hentries, (guarded_iff_enteredAlone (afterSchedule_reachable inTurn)).mpr ?_⟩
  intro t request found hmem
  have htrue : true ∈ (afterSchedule inTurn).st.history.filterMap isEntry :=
    List.mem_filterMap.mpr ⟨_, hmem, rfl⟩
  rw [hentries] at htrue
  simp at htrue

/-- The second download begins while the first one reports that it is complete. -/
def overlapping : List (Move (machine Nat)) :=
  [start 0 firstPkg, .steps (.worker 0) 40, start 1 secondPkg, .steps (.worker 1) 40]

def isAbsentComparison : ContextEvent κ → Bool
  | .compared _ none _ => true
  | _ => false

/-- Two components that download at the same time make the guard compare a null pointer. -/
theorem absent_version_compared :
    ¬∀ (c : Config (Thread Nat) Globals (ContextState Nat) ContextOp.Ans),
      (machine Nat).Reachable c → Guarded c.st.history := by
  intro hall
  have hany : (afterSchedule overlapping).st.history.any isAbsentComparison = true := by
    decide +kernel
  obtain ⟨e, hmem, he⟩ := List.any_eq_true.mp hany
  have hguarded := hall _ (afterSchedule_reachable overlapping)
  cases e with
  | compared t value with_ =>
    cases value with
    | none => exact hguarded.compares t none with_ hmem rfl
    | some _ => cases he
  | entered _ _ _ _ | returned _ _ _ => cases he

end EsyncUa.DownloadContexts
