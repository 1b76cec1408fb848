import EsyncUa.Agents
import EsyncUa.Schedules

/-!
Runs of the agent that are played. The answers that the shared state determines are computed;
an oracle gives the answers of the environment. A condition on the events of a run is
checked at every event, and a run stops where it would be violated.
-/
namespace EsyncUa.Rehearsals

open EsyncUa.JsonProperties EsyncUa.Components EsyncUa.Programs EsyncUa.Operations
open EsyncUa.Installation EsyncUa.Messages EsyncUa.Machines EsyncUa.Schedules EsyncUa.Agents

/-- What the environment answers, depending on what has happened so far. -/
structure Oracle where
  ext : World → (o : ExtOp) → Option o.Ans
  wakeup : World → Wakeup
  written : World → Bool

/-- The answer to an operation of thread `t`. Threads can always be started, and the waiting
thread is woken up by the oracle only if it was not signalled. -/
def Oracle.choose (ω : Oracle) (cfg : AgentConfig) (t : Tid) (w : World) : (o : Op) → Option o.Ans
  | .ext o => ω.ext w o
  | .assign _ _ | .assignIntl _ | .mark _ | .mutexLock _ | .mutexUnlock _ | .condSignal _
  | .condTimedwait _ | .remove _ => some ()
  | .testCleanupOk uacc => some (w.shared.comp uacc).cleanupOkAfterUpdate
  | .matchReplyId uacc replyTo =>
      some (replyIdMatched replyTo (w.shared.comp uacc).updateStatusInfo.replyId)
  | .chkIncomingSeq uacc name num =>
      some (handlerChkIncomingSeqOutdated (w.shared.comp uacc).seqIn name num).2
  | .updateOutgoingSeq name updateNum =>
      some (handlerUpdateOutgoingSeqNum w.shared.intl.seqOut name updateNum).2
  | .setCompContext uacc updateCc =>
      some (Records.updateSetCompContext (w.shared.comp uacc) w.shared.intl.componentCtrl
        updateCc).1
  | .condWakeup uacc =>
      some (if t ∈ (w.shared.comp uacc).updateStatusInfo.cond then ω.wakeup w else .signalled)
  | .recordOpen _ => some true
  | .recordWrite _ _ => some (ω.written w)
  | .recordLoad path => some (path.bind w.shared.records)
  | .queryHashTree type => some (cfg.route type).head?
  | .createWorker _ => some (some 0)
  | .createResume _ => some true
  | .createPresence => some (some 0)
  | .createSequence => some (some (0, 1))

variable (cfg : AgentConfig) (C : Tid → Event → World → Prop)

theorem whenEvents_cons {t : Tid} {e : Event} {w : World} {s : Shared} (h : C t e w) :
    WhenEvents C t w ⟨s, e :: w.trace⟩ := by
  intro e' he
  obtain ⟨rfl, -⟩ := List.cons.inj he
  exact h

def begun : AgentConfiguration := ⟨⟨cfg.started .empty .empty, []⟩, idlePool⟩

theorem begun_reachable : (runsWhere cfg C).Reachable (begun cfg) :=
  .init _ ⟨rfl, .empty, rfl⟩

variable [∀ t e w, Decidable (C t e w)]

/-- The player that answers as the oracle says, as long as the condition is met. -/
def player (ω : Oracle) : Player (runsWhere cfg C) where
  answer := fun t w o =>
    (ω.choose cfg t w o).bind fun b => (effect cfg t w.shared o b).bind fun s =>
      if C t (.did t o b) w then some (b, ⟨s, .did t o b :: w.trace⟩) else none
  sound := by
    intro t w o b w' h
    simp only [Option.bind_eq_some_iff] at h
    obtain ⟨b', -, s, heffect, h⟩ := h
    split at h
    · rename_i hC
      simp only [Option.some.injEq, Prod.mk.injEq] at h
      obtain ⟨rfl, rfl⟩ := h
      exact ⟨⟨heffect, rfl⟩, whenEvents_cons C hC⟩
    · simp at h

/-- An event from outside gives thread `t` a program. -/
def arrival (t : Tid) (p : UaProg Unit) (e : Event) (h : Arrive cfg t p e) :
    Move (runsWhere cfg C) :=
  .arrive t p (fun w => if C t e w then some { w with trace := e :: w.trace } else none) (by
    intro w w' hw
    split at hw
    · rename_i hC
      simp only [Option.some.injEq] at hw
      subst hw
      exact ⟨⟨e, h, rfl⟩, whenEvents_cons C hC⟩
    · simp at hw)

/-- A message for the registered component `uacc`. -/
def message (uacc : UaccPtr) (hreg : uacc < cfg.nUah) (msg : Json) : Move (runsWhere cfg C) :=
  arrival cfg C (.runner uacc) (runnerPass uacc (some msg)) (.received uacc (some msg))
    (.message uacc (some msg) hreg)

/-- The DM client is there. -/
def connected : Move (runsWhere cfg C) :=
  arrival cfg C .bus (handlePresence cfg.nUah true) (.presence true) (.presence true)

/-- A restart of the agent, after which no package has control data. -/
def reboot : Move (runsWhere cfg C) :=
  .restart (fun w => ⟨cfg.started .empty w.shared.records, .rebooted :: w.trace⟩)
    fun _ => ⟨rfl, .empty, rfl⟩

/-- The configuration after a schedule, from the start of the agent. -/
def rehearse (ω : Oracle) (moves : List (Move (runsWhere cfg C))) : AgentConfiguration :=
  (player cfg C ω).play moves (begun cfg)

theorem rehearse_reachable (ω : Oracle) (moves : List (Move (runsWhere cfg C))) :
    (runsWhere cfg C).Reachable (rehearse cfg C ω moves) :=
  (player cfg C ω).play_reachable moves (begun_reachable cfg C)

/-- Any event may happen. -/
abbrev Anything : Tid → Event → World → Prop := fun _ _ _ => True

theorem agent_reachable (ω : Oracle) (moves : List (Move (runsWhere cfg Anything))) :
    (agent cfg).Reachable (rehearse cfg Anything ω moves) :=
  (rehearse_reachable cfg Anything ω moves).of_restrict

/-! An agent with components for which nearly everything goes well. -/

def sampleRoutine : UaRoutine where
  onGetVersion := true
  onSetVersion := false
  onPreInstall := false
  onInstall := true
  onPostInstall := false
  onTransferFile := false
  onPrepareInstall := false
  onPrepareDownload := false
  onMessage := false
  onConfirmUpdate := false

def sampleConfig (rebootSupport : Bool) (nUah : Nat) : AgentConfig where
  delta := false
  cacheDir := some "/cache"
  backupDir := some "/data"
  rebootSupport := rebootSupport
  packageVerificationDisabled := true
  backupSource := 0
  maxRetry := 0
  qpFailureResponse := false
  asyncQueryPackage := false
  nUah := nUah
  typeHandler := fun _ => "/ECU"
  getRoutine := fun _ => sampleRoutine
  route := fun _ => [0]
  accepted := fun _ => .inl ⟨rfl, rfl⟩

/-- Files are there, manifests are empty, messages are sent and `version` is installed. -/
def usualAnswer (version : String) : (o : ExtOp) → Option o.Ans
  | .callback _ .onGetVersion _ => some ⟨eUaOk, some version, .none⟩
  | .callback _ .onSetVersion _ => some eUaOk
  | .callback _ .onPreInstall _ => some .inProgress
  | .callback _ .onInstall _ => some .completed
  | .callback _ .onPostInstall _ => some ()
  | .callback _ .onTransferFile _ => some ⟨eUaOk, none⟩
  | .callback _ .onPrepareInstall _ => some ⟨.ready, none, .none⟩
  | .callback _ .onPrepareDownload _ => some .consent
  | .callback _ .onMessage _ => some false
  | .callback _ .onConfirmUpdate _ => some ()
  | .uaSendMessage _ | .addPkgFileManifest _ _ | .removeOldBackup _ _ _ _
  | .deltaReconstruct _ _ _ | .verifyFileHashB64 _ _ | .makeFileHardLink _ _
  | .copyFile _ _ => some eUaOk
  | .sha256xcmp _ _ => some 1
  | .randstring => some (some "reply")
  | .access path => some path.isSome
  | .isDeltaPackage _ | .isPreparedDeltaPackage _ | .deltaUseExternalAlgo => some false
  | .rmdirp _ | .unlink _ | .freeMsg _ => some ()
  | .getPkgFileManifest _ _ => some .err
  | .parsePkgManifest _ | .calculateSha256B64 _ | .getDeltaCapability => some none
  | .calcSha256X _ => some (some .empty)
  | .crash => none

def usualOracle (version : String) : Oracle :=
  ⟨fun _ o => usualAnswer version o, fun _ => .timedOut, fun _ => true⟩

/-- A message about a package. -/
def packageMessage (type : String) (body : List (String × Json)) (name version : String)
    (pkg : List (String × Json)) : Json :=
  .object [("type", .string type), ("body", .object (body ++ [("package", .object
    ([("type", .string "/ECU"), ("name", .string name), ("version", .string version)] ++ pkg))]))]

/-- The reply that grants the request for an installation. -/
def grantingReply : Json :=
  .object [("type", .string bmtUpdateStatus), ("reply-to", .string "reply"),
    ("body", .object [("successful", .bool true)])]

/-- The package file is on the target. -/
def downloadedFile (version : String) : List (String × Json) :=
  [("version-list", .object [(version, .object [("file", .string "/file"),
    ("downloaded", .bool true), ("sha-256", .string "digest")])])]

end EsyncUa.Rehearsals
