import EsyncUa.Rehearsals
import EsyncUa.RestPhases
import Mathlib.Data.Nat.Init

/-!
The consent to an installation. The request is a status message, its reply sets a flag of the
component, and the installation goes on if the flag is set. In the runs in which a request can
be sent, and is made while no earlier reply is left over, no package is installed without the
consent to this very installation.
-/
namespace EsyncUa.Consents

open EsyncUa.JsonProperties EsyncUa.Components EsyncUa.Records EsyncUa.Programs
open EsyncUa.Operations EsyncUa.Installation EsyncUa.Updater EsyncUa.Messages EsyncUa.Machines
open EsyncUa.Agents EsyncUa.Footprints EsyncUa.Frames EsyncUa.Phases EsyncUa.RestPhases
open EsyncUa.Rehearsals

/-- The reply id of the request of a thread, once the status with it has been sent. -/
def request (u : UaccPtr) (t : Tid) : List Event → Option String
  | [] => none
  | .did t' (.assign u' (.replyId (some _))) _ :: h =>
      if t' = t ∧ u' = u then none else request u t h
  | .did t' (.ext (.uaSendMessage (.updateStatus m))) rc :: h =>
      if t' = t ∧ m.status = .inProgress then (if rc = eUaOk then m.replyId else none)
      else request u t h
  | .rebooted :: _ => none
  | _ :: h => request u t h

/-- The other thread processes a reply that has come after the request was sent, with the
reply id of the request. -/
def answering (u : UaccPtr) (t t' : Tid) : List Event → Bool
  | [] => false
  | .did t₁ (.assign u' (.replyId (some _))) _ :: h =>
      !decide (t₁ = t ∧ u' = u) && answering u t t' h
  | .did t₁ (.matchReplyId u' replyTo) b :: h =>
      if t₁ = t' ∧ u' = u then b && replyTo.isSome && decide (request u t h = replyTo)
      else answering u t t' h
  | .rebooted :: _ => false
  | _ :: h => answering u t t' h

/-- A reply to the request has been processed, which grants it. -/
def granted (u : UaccPtr) (t : Tid) : List Event → Bool
  | [] => false
  | .did t₁ (.assign u' (.replyId (some _))) _ :: h =>
      !decide (t₁ = t ∧ u' = u) && granted u t h
  | .did t₁ (.assign u' (.successful true)) _ :: h =>
      decide (u' = u) && answering u t t₁ h || granted u t h
  | .rebooted :: _ => false
  | _ :: h => granted u t h

/-- If `on_install` has just been called, then with the consent to this installation. -/
def InstalledByConsent (u : UaccPtr) (h : List Event) : Prop :=
  ∀ t ctl b h', h = .did t (.ext (.callback u .onInstall ctl)) b :: h' → granted u t h' = true

/-- The threads that have made a request and have not come to the end of their wait. -/
def asking (u : UaccPtr) : List Event → List Tid
  | [] => []
  | .did t (.assign u' (.replyId (some _))) _ :: h =>
      if u' = u then t :: asking u h else asking u h
  | .did t (.mutexUnlock (.updateStatus u')) _ :: h =>
      if u' = u then (asking u h).filter (· ≠ t) else asking u h
  | .rebooted :: _ => []
  | _ :: h => asking u h

/-- The threads that process a reply that has been matched. -/
def accepting (u : UaccPtr) : List Event → List Tid
  | [] => []
  | .did t (.matchReplyId u' _) b :: h =>
      if u' = u then (if b then [t] else []) ++ (accepting u h).filter (· ≠ t) else accepting u h
  | .did t (.condSignal u') _ :: h =>
      if u' = u then (accepting u h).filter (· ≠ t) else accepting u h
  | .rebooted :: _ => []
  | _ :: h => accepting u h

/-- A request can be sent and has a reply id; when it is made, no earlier reply is being
processed and none has left its verdict. A reply is matched only to a status that has been sent. -/
def Fresh (_t : Tid) (e : Event) (w : World) : Prop :=
  match e with
  | .did _ (.ext (.uaSendMessage (.updateStatus m))) rc =>
      m.status = .inProgress → rc = eUaOk ∧ m.replyId.isSome
  | .did _ (.assign u (.replyId (some _))) _ =>
      (w.shared.comp u).updateStatusInfo.successful = false ∧ accepting u w.trace = []
  | .did _ (.matchReplyId u replyTo) true =>
      ∀ t' ∈ asking u w.trace, request u t' w.trace = replyTo
  | _ => True

instance (t : Tid) (e : Event) (w : World) : Decidable (Fresh t e w) := by
  unfold Fresh
  split <;> infer_instance

/-- The phases of a request: its reply id is set, it is sent, it is granted; and of a reply. -/
inductive Phase
  | rest | asked (replyId : Option String) | sent | consented | accepts

/-- The installation and the flag of the component. -/
def Guarded (u : UaccPtr) (o : Op) : Prop :=
  Op.on o = some u ∧ Op.kind o ∈ [Kind.install, .successful]

/-- The kinds of operations of requests and replies. -/
abbrev consentKinds : List Kind :=
  [.install, .successful, .send, .replyId, .lock, .cond, .matchReply]

inductive Does (u : UaccPtr) : Phase → (o : Op) → o.Ans → Phase → Prop
  | rest (o b) (h : ¬Guarded u o) : Does u .rest o b .rest
  | other (x o b) (h : Op.kind o ∉ consentKinds) : Does u x o b x
  | ask (replyId b) : Does u .rest (.assign u (.replyId replyId)) b (.asked replyId)
  | send (replyId) (m : UpdateStatus) (rc : Rc) (hid : m.replyId = replyId)
      (h : m.status = .inProgress) :
      Does u (.asked replyId) (.ext (.uaSendMessage (.updateStatus m))) rc
        (if rc = eUaOk then .sent else .consented)
  | lock (lock b) : Does u .sent (.mutexLock lock) b .sent
  | wait (b) : Does u .sent (.condTimedwait u) b .sent
  | wakeup (b) : Does u .sent (.condWakeup u) b .sent
  | giveUp (b) : Does u .sent (.assign u (.replyId none)) b .sent
  | take (b) : Does u .consented (.assign u (.successful false)) b .consented
  | keep (o b) (h : Op.kind o ∉ [Kind.install, .successful, .replyId]) :
      Does u .consented o b .consented
  | install (ctl b) : Does u .consented (.ext (.callback u .onInstall ctl)) b .rest
  | accept (replyTo) : Does u .rest (.matchReplyId u replyTo) true .accepts
  | verdict (value b) : Does u .accepts (.assign u (.successful value)) b .accepts
  | release (o b) (h : Op.kind o ∉ [Kind.install, .successful, .matchReply, .cond]) :
      Does u .accepts o b .accepts
  | signal (b) : Does u .accepts (.condSignal u) b .rest

/-- A thread that has sent its request goes on if it reads that the flag is set. -/
def protocol (u : UaccPtr) : Protocol Tid Shared Phase Op.Ans where
  reads := fun _ _ => True
  sees := fun _ x m x' => x' = x ∨ x' = .rest ∨
    x = .sent ∧ (m.comp u).updateStatusInfo.successful = true ∧ x' = .consented
  may := fun _ _ _ => True
  does := fun _ => Does u

variable {u : UaccPtr} {t : Tid} {α : Type}

/-! The programs keep to the protocol. -/

theorem not_guarded_of_kind {o : Op} (h : Op.kind o ∉ [Kind.install, .successful]) :
    ¬Guarded u o := fun hguarded => h hguarded.2

theorem follows_rest {p : UaProg α} (hp : p.All fun o => ¬Guarded u o) :
    Rests (protocol u) t .rest p :=
  .within hp trivial (fun _ => .inl rfl) fun o ho => ⟨trivial, fun b => .rest o b ho⟩

theorem follows_consented {p : UaProg α} {ks : List Kind} (hp : p.All (Within u ks))
    (hks : ∀ k ∈ [Kind.install, .successful, .replyId], k ∉ ks) :
    (protocol u).Follows t p .consented fun _ x' => x' = .consented :=
  .within hp trivial (fun _ => .inl rfl) fun o ho =>
    ⟨trivial, fun b => .keep o b fun hmem => hks _ hmem ho.2⟩

theorem restsOutside : RestsOutside (protocol u) t .rest where
  reads := trivial
  sees := fun _ => .inl rfl
  does := by
    intro o ho
    have hkinds : [Kind.install, .successful] ⊆ installOnly := by decide
    exact ⟨trivial, fun b => .rest o b fun hguarded => ho (hkinds hguarded.2)⟩

/-- The request: after it has been sent, the thread may wait for the reply. -/
theorem sendRequest_follows (pkgFile : Option PkgFile) (ue : UpdateErr) :
    (protocol u).Follows t (sendInstallStatus u .inProgress pkgFile ue) .rest
      fun err x => x = if err = eUaOk then .sent else .consented := by
  have hlist : Rests (protocol u) t .rest (statusVersionList .inProgress pkgFile ue) :=
    rests_of_within restsOutside (statusVersionList_within u [.env] (by decide) _ pkgFile ue)
      (by decide)
  have hsequence : ∀ name, Rests (protocol u) t .rest (statusSequence name) := fun name =>
    rests_of_all restsOutside (by simp [statusSequence, Op.kind])
  have hrandstring : Rests (protocol u) t .rest (ext .randstring) :=
    rests_of_all restsOutside (by simp [Op.kind, ExtOp.kind])
  have hreply : (protocol u).Follows t (statusReplyId u .inProgress) .rest
      fun replyId x => x = .asked replyId := by
    refine Protocol.Follows.bind (hrandstring.mono ?_)
    intro replyId x hx
    subst hx
    exact ⟨trivial, fun b => ⟨.asked replyId, .ask replyId b, rfl⟩⟩
  have hrest : ∀ {β : Type} {p : UaProg β} {f : β → UaProg Rc}, Rests (protocol u) t .rest p →
      (∀ a, (protocol u).Follows t (f a) .rest
        fun err x => x = if err = eUaOk then .sent else .consented) →
      (protocol u).Follows t (p >>= f) .rest
        fun err x => x = if err = eUaOk then .sent else .consented := by
    intro β p f hp hf
    refine .bind (hp.mono fun a x hx => ?_)
    subst hx
    exact hf a
  unfold sendInstallStatus
  refine hrest (rests_readComp restsOutside u _) fun pkgInfo =>
    hrest (rests_orCrash restsOutside _) fun name =>
    hrest (rests_orCrash restsOutside _) fun type =>
    hrest (rests_orCrash restsOutside _) fun version =>
    hrest (rests_readIntl restsOutside _) fun customMsg => hrest hlist fun versionList =>
    hrest (hsequence name) fun sequence => ?_
  refine .bind (hreply.mono fun replyId x hx => ?_)
  subst hx
  exact ⟨trivial, fun rc => ⟨_, .send replyId _ rc rfl rfl, rfl⟩⟩

/-- What the thread may do after the decision: install only with the consent. -/
def Decided (state : InstallState) (x : Phase) : Prop :=
  if state = .inProgress then x = .consented else x = .rest

theorem awaitConsent_follows : (protocol u).Follows t (awaitConsent u) .sent Decided := by
  refine .bind ⟨trivial, fun b => ⟨.sent, .lock _ b, ?_⟩⟩
  refine .bind ⟨trivial, fun b => ⟨.sent, .wait b, ?_⟩⟩
  refine .bind ⟨trivial, fun rc => ⟨.sent, .wakeup rc, ?_⟩⟩
  have hgiveUp : (protocol u).Follows t (doIf (rc = .timedOut) (assign u (.replyId none))) .sent
      fun _ x => x = .sent := by
    unfold doIf
    split
    · exact ⟨trivial, fun b => ⟨.sent, .giveUp b, rfl⟩⟩
    · rfl
  have htake : (protocol u).Follows t (takeSuccessful u) .sent Decided := by
    refine .bind ⟨trivial, fun m => ?_⟩
    by_cases hflag : (m.comp u).updateStatusInfo.successful = true
    · refine ⟨.consented, .inr (.inr ⟨rfl, hflag, rfl⟩), ?_⟩
      simp only [hflag]
      exact .bind ⟨trivial, fun b => ⟨.consented, .take b, rfl⟩⟩
    · refine ⟨.rest, .inr (.inl rfl), ?_⟩
      simp only [hflag]
      exact rfl
  refine .bind (hgiveUp.mono fun _ x hx => ?_)
  subst hx
  refine .bind (htake.mono fun state x hx => ?_)
  refine .bind ⟨trivial, fun b => ?_⟩
  by_cases hstate : state = .inProgress
  · rw [Decided, if_pos hstate] at hx
    subst hx
    refine ⟨.consented, .keep _ b (by simp [Op.kind, Mutex.kind]), ?_⟩
    change Decided state _
    rw [Decided, if_pos hstate]
  · rw [Decided, if_neg hstate] at hx
    subst hx
    refine ⟨.rest, .rest _ b (not_guarded_of_kind (by simp [Op.kind, Mutex.kind])), ?_⟩
    change Decided state _
    rw [Decided, if_neg hstate]

theorem preUpdateAction_follows : (protocol u).Follows t (preUpdateAction u) .rest Decided := by
  have hpre : Rests (protocol u) t .rest (preInstall u) :=
    rests_of_all restsOutside (by simp [preInstall, Op.kind, ExtOp.kind])
  refine .bind (hpre.mono fun state x hx => ?_)
  subst hx
  split
  · rename_i hstate
    subst hstate
    refine .bind ⟨trivial, fun m => ⟨.rest, .inl rfl, ?_⟩⟩
    refine .bind ((sendRequest_follows _ _).mono fun err x hx => ?_)
    subst hx
    split
    · exact awaitConsent_follows
    · rfl
  · rename_i hstate
    change Decided state .rest
    rw [Decided, if_neg hstate]

theorem updateAction_follows : (protocol u).Follows t (updateAction u) .consented
    fun _ x => x = .rest := by
  refine .bind ⟨trivial, fun m => ?_⟩
  by_cases hinstall : (m.comp u).uar.onInstall = true
  · refine ⟨.consented, .inl rfl, ?_⟩
    refine .bind ⟨trivial, fun m₁ => ⟨.consented, .inl rfl, ?_⟩⟩
    refine .bind ⟨trivial, fun m₂ => ⟨.consented, .inl rfl, ?_⟩⟩
    simp only [hinstall]
    refine .bind ⟨trivial, fun m₃ => ⟨.consented, .inl rfl, ?_⟩⟩
    refine .bind ⟨trivial, fun state => ⟨.rest, .install _ state, ?_⟩⟩
    have hset : ∀ c : Prop, ∀ [Decidable c], ∀ ctl, Rests (protocol u) t .rest
        (doIf c (ignoring (callback u .onSetVersion ctl))) := fun c _ ctl =>
      rests_of_all restsOutside (by simp [Op.kind, ExtOp.kind])
    have hreport : Rests (protocol u) t .rest (reportInstall u state) :=
      rests_of_within restsOutside (reportInstall_within u _ (fun _ h => h) state) (by decide)
    exact Rests.bind (hset _ _) fun _ => Rests.bind (rests_readComp restsOutside u _) fun _ =>
      Rests.bind (rests_doIf hreport) fun _ => rfl
  · refine ⟨.rest, .inr (.inl rfl), ?_⟩
    refine .bind ⟨trivial, fun m₁ => ⟨.rest, .inl rfl, ?_⟩⟩
    refine .bind ⟨trivial, fun m₂ => ⟨.rest, .inl rfl, ?_⟩⟩
    simp only [hinstall]
    exact rfl

theorem updateRecordedInstall_follows {updateSts : InstallState} {x : Phase}
    (hx : Decided updateSts x) (rebootSupport : Bool) :
    (protocol u).Follows t (updateRecordedInstall u updateSts rebootSupport) x
      fun _ x => x = .rest := by
  have hinstall : (protocol u).Follows t
      (if updateSts = .inProgress then installAndPost u else pure updateSts) x
      fun _ x => x = .rest := by
    by_cases hstate : updateSts = .inProgress
    · rw [Decided, if_pos hstate] at hx
      subst hx
      rw [if_pos hstate]
      refine .bind (updateAction_follows.mono fun state x hx => ?_)
      subst hx
      exact Rests.bind (rests_postUpdateAction restsOutside u) fun _ => rfl
    · rw [Decided, if_neg hstate] at hx
      subst hx
      rw [if_neg hstate]
      rfl
  refine .bind (hinstall.mono fun state x hx => ?_)
  subst hx
  refine Rests.bind (rests_readComp restsOutside u _) fun recordFile => ?_
  exact Rests.bind (rests_of_all restsOutside (by simp [Op.kind])) fun _ => rfl

theorem ownInstall_rests (rebootSupport : Bool) :
    Rests (protocol u) t .rest (updateStartInstallOperations u rebootSupport) := by
  have hsame : Rests (protocol u) t .rest (isInstalledAlready u) :=
    rests_of_all restsOutside
      (by simp [isInstalledAlready, updateInstalledVersionSame, Op.kind, ExtOp.kind])
  have hdone : Rests (protocol u) t .rest
      (ignoring (sendInstallStatus u .completed none .none)) :=
    Rests.bind (rests_sendInstallStatus restsOutside u _ _ _) fun _ => rfl
  have hrecord : (doIf rebootSupport (saveRecord u)).All
      (Within u [.env, .recordSave, .saved]) := by
    simp [saveRecord_within]
  have hsave : ∀ {state : InstallState} {x : Phase}, Decided state x →
      (protocol u).Follows t (doIf rebootSupport (saveRecord u)) x fun _ x => Decided state x := by
    intro state x hx
    by_cases hstate : state = .inProgress
    · simp only [Decided, if_pos hstate] at hx ⊢
      subst hx
      exact follows_consented hrecord (by decide)
    · simp only [Decided, if_neg hstate] at hx ⊢
      subst hx
      exact follows_rest (hrecord.mono fun _ ho => not_guarded_of_kind fun hmem => by
        have hks : ∀ k ∈ [Kind.install, .successful], k ∉ [Kind.env, .recordSave, .saved] := by
          decide
        exact hks _ hmem ho.2)
  refine Rests.bind hsame fun same => rests_ite ?_ ?_
  · exact Rests.bind hdone fun _ =>
      Rests.bind (rests_postUpdateAction restsOutside u) fun _ => rfl
  · refine Protocol.Follows.bind (preUpdateAction_follows.mono fun state x hx => ?_)
    refine .bind ((hsave hx).mono fun _ x hx => ?_)
    exact updateRecordedInstall_follows hx rebootSupport

theorem ownReply_rests (jsonObj : Json) :
    Rests (protocol u) t .rest (processUpdateStatus u jsonObj) := by
  have hstore : ∀ verdict, (protocol u).Follows t (storeVerdict u verdict) .accepts
      fun _ x => x = .accepts := by
    intro verdict
    cases verdict with
    | none => rfl
    | some value => exact ⟨trivial, fun b => ⟨.accepts, .verdict value b, rfl⟩⟩
  have haccept : (protocol u).Follows t (acceptReply u jsonObj) .accepts
      fun _ x => x = .rest := by
    refine .bind ⟨trivial, fun b => ⟨.accepts, .release _ b (by simp [Op.kind, Assign.kind]), ?_⟩⟩
    refine .bind ⟨trivial, fun b => ⟨.accepts, .release _ b (by simp [Op.kind, Mutex.kind]), ?_⟩⟩
    refine .bind ((hstore _).mono fun _ x hx => ?_)
    subst hx
    refine .bind ⟨trivial, fun b => ⟨.rest, .signal b, ?_⟩⟩
    exact rests_op restsOutside (by simp [Op.kind, Mutex.kind])
  refine rests_doIf (Protocol.Follows.bind ⟨trivial, fun b => ?_⟩)
  cases b with
  | true => exact ⟨.accepts, .accept _, haccept⟩
  | false =>
    exact ⟨.rest, .rest _ _ (not_guarded_of_kind (by simp [Op.kind])), rfl⟩

theorem follows_other {u' : UaccPtr} {p : UaProg α} {ks : List Kind} (hp : p.All (Within u' ks))
    (hne : u ≠ u') : Rests (protocol u) t .rest p :=
  follows_rest (hp.mono fun o ho (hguarded : Guarded u o) => hne (ho.1 u hguarded.1))

theorem rests_updateStartInstallOperations (u' : UaccPtr) (rebootSupport : Bool) :
    Rests (protocol u) t .rest (updateStartInstallOperations u' rebootSupport) := by
  by_cases hu : u = u'
  · subst hu
    exact ownInstall_rests rebootSupport
  · exact follows_other (updateStartInstallOperations_within u' _ (fun _ h => h) _) hu

theorem rests_processUpdateStatus (u' : UaccPtr) (jsonObj : Json) :
    Rests (protocol u) t .rest (processUpdateStatus u' jsonObj) := by
  by_cases hu : u = u'
  · subst hu
    exact ownReply_rests jsonObj
  · exact follows_other (processUpdateStatus_within u' _ (fun _ h => h) jsonObj) hu

/-! What an event does to the history of the requests. -/

section Events

variable {t₁ t' : Tid} {o : Op} {b : o.Ans} {h : List Event}

theorem request_other (hne : t₁ ≠ t) : request u t (.did t₁ o b :: h) = request u t h := by
  conv =>
    lhs
    unfold request
  split <;> simp_all

theorem granted_other (hne : t₁ ≠ t) (hgranted : granted u t h = true) :
    granted u t (.did t₁ o b :: h) = true := by
  unfold granted
  split <;> simp_all

theorem answering_other (hne : t₁ ≠ t) (hne' : t₁ ≠ t') :
    answering u t t' (.did t₁ o b :: h) = answering u t t' h := by
  conv =>
    lhs
    unfold answering
  split <;> simp_all

theorem answering_unmatched (hne : t₁ ≠ t) (hkind : Op.kind o ≠ .matchReply) :
    answering u t t' (.did t₁ o b :: h) = answering u t t' h := by
  conv =>
    lhs
    unfold answering
  split <;> simp_all [Op.kind]

theorem accepting_unmatched (hkind : Op.kind o ≠ .matchReply)
    (hmem : t ∈ accepting u (.did t₁ o b :: h)) : t ∈ accepting u h := by
  unfold accepting at hmem
  split at hmem <;> simp_all [Op.kind]
  split at hmem <;> simp_all

theorem asking_other (hne : t₁ ≠ t) (hmem : t ∈ asking u h) :
    t ∈ asking u (.did t₁ o b :: h) := by
  have hne' : t ≠ t₁ := hne.symm
  unfold asking
  split <;> simp_all
  all_goals split <;> simp_all

theorem accepting_other (hne : t₁ ≠ t) :
    t ∈ accepting u (.did t₁ o b :: h) ↔ t ∈ accepting u h := by
  have hne' : t ≠ t₁ := hne.symm
  conv =>
    lhs
    unfold accepting
  split <;> simp_all
  all_goals split <;> simp_all

theorem request_same (hkind : Op.kind o ∉ [Kind.replyId, .send]) :
    request u t (.did t₁ o b :: h) = request u t h := by
  conv =>
    lhs
    unfold request
  split <;> simp_all [Op.kind, Assign.kind, ExtOp.kind]

theorem granted_same (hkind : Op.kind o ∉ [Kind.replyId, .successful]) :
    granted u t (.did t₁ o b :: h) = granted u t h := by
  conv =>
    lhs
    unfold granted
  split <;> simp_all [Op.kind, Assign.kind]

theorem answering_same (hkind : Op.kind o ∉ [Kind.replyId, .matchReply]) :
    answering u t t' (.did t₁ o b :: h) = answering u t t' h := by
  conv =>
    lhs
    unfold answering
  split <;> simp_all [Op.kind, Assign.kind]

theorem asking_same (hkind : Op.kind o ∉ [Kind.replyId, .lock]) :
    asking u (.did t₁ o b :: h) = asking u h := by
  conv =>
    lhs
    unfold asking
  split <;> simp_all [Op.kind, Assign.kind, Mutex.kind]

theorem accepting_same (hkind : Op.kind o ∉ [Kind.matchReply, .cond]) :
    accepting u (.did t₁ o b :: h) = accepting u h := by
  conv =>
    lhs
    unfold accepting
  split <;> simp_all [Op.kind]

end Events

/-! What the phases say about the state. -/

def flag (u : UaccPtr) (w : World) : Bool := (w.shared.comp u).updateStatusInfo.successful

/-- What a phase says of its thread: a request that has been sent can only be granted by a
reply to it. -/
def At (u : UaccPtr) (t : Tid) (x : Phase) (w : World) : Prop :=
  match x with
  | .rest => True
  | .asked replyId => replyId.isSome → t ∈ asking u w.trace ∧ request u t w.trace = none ∧
      accepting u w.trace = [] ∧ flag u w = false
  | .sent => t ∈ asking u w.trace ∧
      (∀ t' ∈ accepting u w.trace, answering u t t' w.trace = true) ∧
      (flag u w = true → granted u t w.trace = true)
  | .consented => granted u t w.trace = true
  | .accepts => t ∈ accepting u w.trace

structure Fits (u : UaccPtr) (t : Tid) (x : Phase) (w : World) : Prop where
  consent : InstalledByConsent u w.trace
  at_ : At u t x w

section Steps

variable {cfg : AgentConfig} {w w' : World} {o : Op} {b : o.Ans} {t₁ : Tid}

theorem ignores_successful : Ignores (·.updateStatusInfo.successful) [.successful] where
  assign := by intro x c h; cases x <;> simp_all [Assign.apply, Assign.kind]
  seqIn := fun _ _ _ => rfl
  status := fun _ _ _ => rfl
  setContext := by
    intro _ c ctrl cc
    unfold updateSetCompContext
    grind

theorem flag_same (heffect : effect cfg t₁ w.shared o b = some w'.shared)
    (hkind : Op.kind o ≠ .successful) : flag u w' = flag u w :=
  effect_frame ignores_successful heffect (by simpa using hkind) u

/-- Who sets the flag, or takes it back. -/
theorem flag_step (heffect : effect cfg t₁ w.shared o b = some w'.shared) {x x' : Phase}
    (hdoes : Does u x o b x') :
    flag u w' = flag u w ∨ flag u w' = false ∨
      x = .accepts ∧ ∃ value, o = .assign u (.successful value) := by
  by_cases hkind : Op.kind o = .successful
  · by_cases hon : Op.on o = some u
    · cases hdoes with
      | take =>
        have hshared := Option.some.inj heffect
        refine .inr (.inl ?_)
        simp [flag, ← hshared, Shared.setComp, Assign.apply]
      | verdict value => exact .inr (.inr ⟨rfl, value, rfl⟩)
      | rest _ _ hguarded => exact absurd ⟨hon, by simp [hkind]⟩ hguarded
      | other _ _ _ h | keep _ _ h | release _ _ h => simp [hkind] at h
      | lock lock => cases lock <;> cases hkind
      | _ => cases hkind
    · refine .inl ?_
      rw [flag, effect_other heffect hon]
      rfl
  · exact .inl (flag_same heffect hkind)

/-- A reply is matched. -/
def Matches (u : UaccPtr) (e : Event) : Prop :=
  ∃ t₁ replyTo, e = .did t₁ (.matchReplyId u replyTo) true

theorem accepting_nil (hno : ¬Matches u (.did t₁ o b)) {h : List Event}
    (hnil : accepting u h = []) : accepting u (.did t₁ o b :: h) = [] := by
  unfold accepting
  split
  · rfl
  · rename_i t u' replyTo b' h' heq
    obtain ⟨hevent, rfl⟩ := List.cons.inj heq
    rw [hevent] at hno
    split
    · rename_i hu
      subst hu
      cases b' with
      | true => exact absurd ⟨t, replyTo, rfl⟩ hno
      | false => simp [hnil]
    · exact hnil
  all_goals simp_all

theorem eq_of_kind_matchReply (h : Op.kind o = .matchReply) :
    ∃ u' replyTo, o = .matchReplyId u' replyTo := by
  cases o with
  | matchReplyId u' replyTo => exact ⟨u', replyTo, rfl⟩
  | ext o =>
    cases o with
    | callback u f ctl => cases f <;> cases h
    | _ => cases h
  | assign u' x => cases x <;> cases h
  | assignIntl x => cases x <;> cases h
  | mark m => cases m <;> cases h
  | mutexLock lock | mutexUnlock lock => cases lock <;> cases h
  | _ => cases h

theorem matched_some {u' : UaccPtr} {replyTo : Option String} {s s' : Shared}
    (h : effect cfg t₁ s (.matchReplyId u' replyTo) true = some s') : replyTo.isSome = true := by
  simp only [effect] at h
  split at h
  · rename_i hmatched
    cases replyTo with
    | none => cases hmatched
    | some replyTo => rfl
  · cases h

/-- The threads that answer a request before an event, answer it after the event. -/
theorem answering_step (hne : t₁ ≠ t) (hC : Fresh t₁ (.did t₁ o b) w)
    (heffect : effect cfg t₁ w.shared o b = some w'.shared) (hasking : t ∈ asking u w.trace)
    (h : ∀ t' ∈ accepting u w.trace, answering u t t' w.trace = true) :
    ∀ t' ∈ accepting u (.did t₁ o b :: w.trace),
      answering u t t' (.did t₁ o b :: w.trace) = true := by
  intro t' ht'
  by_cases ht : t' = t₁
  · subst ht
    by_cases hkind : Op.kind o = .matchReply
    · obtain ⟨u', replyTo, rfl⟩ := eq_of_kind_matchReply hkind
      by_cases hu : u' = u
      · subst hu
        cases b with
        | true =>
          have hreply : request u' t w.trace = replyTo := hC t hasking
          simp [answering, hreply, matched_some heffect]
        | false => simp [accepting] at ht'
      · simp only [accepting, hu, if_false] at ht'
        simp only [answering, hu, and_false, if_false]
        exact h t' ht'
    · rw [answering_unmatched hne hkind]
      exact h t' (accepting_unmatched hkind ht')
  · rw [answering_other hne (Ne.symm ht)]
    exact h t' ((accepting_other (Ne.symm ht)).mp ht')

/-- What a phase says of one thread stays when another one takes a step. -/
theorem at_other {x x' y : Phase} (hne : t₁ ≠ t) (hC : Fresh t₁ (.did t₁ o b) w)
    (heffect : effect cfg t₁ w.shared o b = some w'.shared)
    (htrace : w'.trace = .did t₁ o b :: w.trace) (hat : At u t₁ x w) (hdoes : Does u x o b x')
    (h : At u t y w) : At u t y w' := by
  have hflag := flag_step heffect hdoes
  cases y with
  | rest => trivial
  | asked replyId =>
    intro hsome
    obtain ⟨hasking, hrequest, hnil, hfalse⟩ := h hsome
    rw [htrace]
    refine ⟨asking_other hne hasking, (request_other hne).trans hrequest,
      accepting_nil ?_ hnil, ?_⟩
    · rintro ⟨t₂, replyTo, hevent⟩
      cases hevent
      have hreply : request u t w.trace = replyTo := hC t hasking
      have hmatched := matched_some heffect
      rw [← hreply, hrequest] at hmatched
      cases hmatched
    · rcases hflag with hsame | hfalse' | ⟨rfl, -⟩
      · exact hsame.trans hfalse
      · exact hfalse'
      · -- A thread that stores a verdict has matched a reply.
        rw [At, hnil] at hat
        cases hat
  | sent =>
    obtain ⟨hasking, hanswering, hgranted⟩ := h
    rw [At, htrace]
    refine ⟨asking_other hne hasking, answering_step hne hC heffect hasking hanswering, ?_⟩
    intro htrue
    rcases hflag with hsame | hfalse' | ⟨rfl, value, rfl⟩
    · exact granted_other hne (hgranted (hsame.symm.trans htrue))
    · rw [hfalse'] at htrue
      cases htrue
    · have hanswers : answering u t t₁ w.trace = true := hanswering t₁ hat
      have hshared := Option.some.inj heffect
      have hvalue : value = true := by
        rw [flag, ← hshared] at htrue
        simpa [Shared.setComp, Assign.apply] using htrue
      subst hvalue
      simp [granted, hanswers]
  | consented =>
    rw [At, htrace]
    exact granted_other hne h
  | accepts =>
    rw [At, htrace]
    exact (accepting_other hne).mpr h

/-- What the next phase says of the thread that takes a step. -/
theorem at_own {x x' : Phase} (hC : Fresh t (.did t o b) w)
    (heffect : effect cfg t w.shared o b = some w'.shared)
    (htrace : w'.trace = .did t o b :: w.trace) (hat : At u t x w) (hdoes : Does u x o b x') :
    At u t x' w' := by
  have hsent : Op.kind o ≠ .successful →
      asking u (.did t o b :: w.trace) = asking u w.trace →
      accepting u (.did t o b :: w.trace) = accepting u w.trace →
      (∀ t', answering u t t' (.did t o b :: w.trace) = answering u t t' w.trace) →
      granted u t (.did t o b :: w.trace) = granted u t w.trace →
      At u t .sent w → At u t .sent w' := by
    intro hkind hask haccept hanswer hgrant hold
    obtain ⟨hasking, hanswering, hgranted⟩ := hold
    rw [At, htrace, hask, haccept, hgrant, flag_same heffect hkind]
    refine ⟨hasking, fun t' ht' => ?_, hgranted⟩
    rw [hanswer]
    exact hanswering t' ht'
  cases hdoes with
  | rest | install | signal => trivial
  | other _ _ _ hkind =>
    have hask : asking u (.did t o b :: w.trace) = asking u w.trace :=
      asking_same (by simp_all)
    have haccept : accepting u (.did t o b :: w.trace) = accepting u w.trace :=
      accepting_same (by simp_all)
    have hgrant : granted u t (.did t o b :: w.trace) = granted u t w.trace :=
      granted_same (by simp_all)
    cases x with
    | rest => trivial
    | asked replyId =>
      intro hsome
      rw [htrace, hask, haccept, request_same (by simp_all), flag_same heffect (by simp_all)]
      exact hat hsome
    | sent =>
      exact hsent (by simp_all) hask haccept (fun t' => answering_same (by simp_all)) hgrant hat
    | consented =>
      rw [At, htrace, hgrant]
      exact hat
    | accepts =>
      rw [At, htrace, haccept]
      exact hat
  | ask replyId =>
    intro hsome
    obtain ⟨replyId, rfl⟩ := Option.isSome_iff_exists.mp hsome
    obtain ⟨hfalse, hnil⟩ : flag u w = false ∧ accepting u w.trace = [] := hC
    rw [htrace, flag_same heffect (by simp [Op.kind, Assign.kind]),
      accepting_same (by simp [Op.kind, Assign.kind])]
    exact ⟨by simp [asking], by simp [request], hnil, hfalse⟩
  | send replyId m rc hid hstatus =>
    obtain ⟨rfl, hsome⟩ : rc = eUaOk ∧ m.replyId.isSome := hC hstatus
    rw [hid] at hsome
    obtain ⟨hasking, -, hnil, hfalse⟩ := hat hsome
    rw [if_pos rfl, At, htrace, asking_same (by simp [Op.kind, ExtOp.kind]),
      accepting_same (by simp [Op.kind, ExtOp.kind]), hnil,
      flag_same heffect (by simp [Op.kind, ExtOp.kind]), hfalse]
    refine ⟨hasking, fun t' ht' => ?_, fun h => ?_⟩
    · cases ht'
    · cases h
  | lock lock =>
    have hkind : Op.kind (.mutexLock lock) ≠ .successful := by
      cases lock <;> simp [Op.kind, Mutex.kind]
    exact hsent hkind (by simp [asking]) (by simp [accepting])
      (fun t' => by simp [answering]) (by simp [granted]) hat
  | wait | wakeup | giveUp =>
    exact hsent (by simp [Op.kind, Assign.kind]) (by simp [asking]) (by simp [accepting])
      (fun t' => by simp [answering]) (by simp [granted]) hat
  | take =>
    have hgranted : granted u t w.trace = true := hat
    rw [At, htrace]
    simpa [granted] using hgranted
  | keep _ _ hkind =>
    rw [At, htrace, granted_same (by simp_all)]
    exact hat
  | accept replyTo =>
    rw [At, htrace]
    simp [accepting]
  | verdict value =>
    rw [At, htrace, accepting_same (by simp [Op.kind, Assign.kind])]
    exact hat
  | release _ _ hkind =>
    rw [At, htrace, accepting_same (by simp_all)]
    exact hat

/-- `on_install` is called by a thread that has the consent. -/
theorem installs_with_consent {x x' : Phase} (hat : At u t x w) (hdoes : Does u x o b x') :
    InstalledByConsent u (.did t o b :: w.trace) := by
  intro t₂ ctl b₂ h' heq
  obtain ⟨hevent, rfl⟩ := List.cons.inj heq
  cases hevent
  cases hdoes with
  | install => exact hat
  | rest _ _ hguarded =>
    exact absurd ⟨by simp [Op.on], by simp [Op.kind, ExtOp.kind]⟩ hguarded
  | other _ _ _ h | keep _ _ h | release _ _ h => simp [Op.kind, ExtOp.kind] at h

end Steps

variable {cfg : AgentConfig}

theorem sound : (protocol u).Sound .rest (Fits u) (runsWhere cfg Fresh) where
  init := by
    intro w hinit t
    obtain ⟨htrace, -⟩ := hinit
    refine ⟨fun t₂ ctl b h' heq => ?_, trivial⟩
    rw [htrace] at heq
    cases heq
  restart := by
    intro w w' hrestart t
    obtain ⟨htrace, -⟩ := hrestart
    refine ⟨fun t₂ ctl b h' heq => ?_, trivial⟩
    rw [htrace] at heq
    cases heq
  sees := by
    intro t w phase x' hfits hsees
    obtain ⟨hconsent, hat⟩ := hfits t
    rcases hsees with rfl | rfl | ⟨hsent, hflag, rfl⟩
    · exact ⟨hconsent, hat⟩
    · exact ⟨hconsent, trivial⟩
    · rw [hsent] at hat
      exact ⟨hconsent, hat.2.2 hflag⟩
  act := by
    intro t o b w w' phase x' hfits hact hdoes
    obtain ⟨⟨heffect, htrace⟩, hwhen⟩ := hact
    have hC : Fresh t (.did t o b) w := hwhen _ htrace
    have hat := (hfits t).at_
    have hconsent : InstalledByConsent u w'.trace := by
      rw [htrace]
      exact installs_with_consent hat hdoes
    have hothers : ∀ t₂, t₂ ≠ t → Fits u t₂ (phase t₂) w' := fun t₂ hne =>
      ⟨hconsent, at_other (Ne.symm hne) hC heffect htrace hat hdoes (hfits t₂).at_⟩
    refine ⟨⟨hconsent, at_own hC heffect htrace hat hdoes⟩, fun t₂ hne _ => hothers t₂ hne,
      fun t₂ p hne hfork hrest => ?_⟩
    have hfits₂ := hothers t₂ hne
    rw [hrest] at hfits₂
    exact ⟨.rest, hfits₂, rests_forked restsOutside (show fork t o b = some (t₂, p) from hfork)
      fun u' => rests_workerAction restsOutside (rests_updateStartInstallOperations u')
        (rests_processUpdateStatus u')⟩
  arrive := by
    intro t p w w' phase hfits hrest h
    obtain ⟨⟨e, harrive, hw⟩, _⟩ := h
    have hkeep : ∀ t₂, Fits u t₂ (phase t₂) w' := by
      intro t₂
      refine ⟨fun t₃ ctl b h' heq => ?_, ?_⟩
      · rw [hw] at heq
        obtain ⟨hevent, -⟩ := List.cons.inj heq
        rw [hevent] at harrive
        cases harrive
      · have hat := (hfits t₂).at_
        rw [hw]
        cases harrive <;> exact hat
    refine ⟨⟨.rest, ?_, ?_⟩, fun t₂ _ => hkeep t₂⟩
    · have ht := hkeep t
      rw [hrest] at ht
      exact ht
    · cases harrive with
      | message u' msg hreg =>
        exact rests_runnerPass restsOutside (rests_updateStartInstallOperations u')
          (rests_processUpdateStatus u') msg
      | presence connected => exact rests_handlePresence restsOutside cfg.nUah connected

/-- In the runs in which requests are fresh, no package is installed without the consent to its
installation. -/
theorem installedByConsent_of_fresh {c : AgentConfiguration}
    (hc : (runsWhere cfg Fresh).Reachable c) (u : UaccPtr) :
    InstalledByConsent u c.st.trace := by
  obtain ⟨phase, hphase⟩ := (sound (u := u)).phases hc
  exact (hphase (.runner u)).1.consent

/-! A request that is granted, and one that cannot be sent. -/

def updateTwo : Json :=
  packageMessage bmtReadyUpdate [] "pkg" "2" (downloadedFile "2")

/-- A worker that has made `n` steps for a ready-update when a reply comes, and then `m` more. -/
def updatedWhile (C : Tid → Event → World → Prop) [∀ t e w, Decidable (C t e w)] (ω : Oracle)
    (n m : Nat) : AgentConfiguration :=
  rehearse (sampleConfig false 1) C ω
    [connected (sampleConfig false 1) C, .steps .bus 60, .steps (.presence 0) 10,
      message (sampleConfig false 1) C 0 Nat.one_pos updateTwo, .steps (.runner 0) 60,
      .steps (.worker 0 0) n, message (sampleConfig false 1) C 0 Nat.one_pos grantingReply,
      .steps (.runner 0) 60, .steps (.worker 0 0) m]

/-- The thread that has just called `on_install` for the first component. -/
def installer : List Event → Option Tid
  | .did t (.ext (.callback 0 .onInstall _)) _ :: _ => some t
  | _ => none

theorem installedByConsent_example :
    installer (updatedWhile Fresh (usualOracle "1") 67 9).st.trace = some (.worker 0 0) ∧
      InstalledByConsent 0 (updatedWhile Fresh (usualOracle "1") 67 9).st.trace :=
  ⟨by decide +kernel, installedByConsent_of_fresh (rehearse_reachable _ _ _ _) 0⟩

/-- The bus sends nothing. -/
def unsent : Oracle where
  ext := fun _ o =>
    match o with
    | .uaSendMessage _ => some eUaErr
    | o => usualAnswer "1" o
  wakeup := fun _ => .timedOut
  written := fun _ => true

/-- The package is installed as if the request had been granted. -/
theorem unsent_request_installs :
    (agent (sampleConfig false 1)).Reachable (updatedWhile Anything unsent 0 72) ∧
      ¬InstalledByConsent 0 (updatedWhile Anything unsent 0 72).st.trace := by
  have hinstaller : installer (updatedWhile Anything unsent 0 72).st.trace =
      some (.worker 0 0) := by decide +kernel
  have hgranted : granted 0 (.worker 0 0) (updatedWhile Anything unsent 0 72).st.trace.tail =
      false := by decide +kernel
  refine ⟨agent_reachable _ _ _, fun h => ?_⟩
  generalize (updatedWhile Anything unsent 0 72).st.trace = trace at hinstaller hgranted h
  unfold installer at hinstaller
  split at hinstaller
  · cases hinstaller
    have htrue := h _ _ _ _ rfl
    exact Bool.false_ne_true (hgranted.symm.trans htrue)
  · cases hinstaller

end EsyncUa.Consents
