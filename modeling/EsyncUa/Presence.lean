import EsyncUa.CStrings
import EsyncUa.LastWrites
import EsyncUa.Messages

/-!
Presence events of the bus (`on_xl4bus_presence` in `xl4busclient.c`). Every address of the DM
client or of the broker, in either list, assigns the one connection state that the event is
handled with, so a broker entry can hide the DM client's.
-/
namespace EsyncUa.Presence

open CStrings LastWrites Installation

/-- The special addresses; `unknown` is any number but those of the first two. -/
inductive Special
  | dmClient | dmBroker | unknown (special : Nat)
  deriving DecidableEq

inductive Address
  | special (special : Special)
  | updateAgent (name : String)
  | group (name : String)
  | unknown (type : Nat)
  deriving DecidableEq

/-- `esync_bus_conn_state_t`. -/
inductive BusConnState
  | none | brokerNotConnected | brokerConnected | dmcNotConnected | dmcConnected
  deriving DecidableEq

/-- What an address assigns to the connection state in a list with these two states. -/
def assigns (dmc broker : BusConnState) : Address → Option BusConnState
  | .special .dmClient => some dmc
  | .special .dmBroker => some broker
  | _ => Option.none

def connectedState : Address → Option BusConnState := assigns .dmcConnected .brokerConnected

def disconnectedState : Address → Option BusConnState :=
  assigns .dmcNotConnected .brokerNotConnected

/-- The loop over one list; the addresses are counted in an `int`. -/
def scan (state : Address → Option BusConnState) :
    List Address → Nat → BusConnState → Option (Nat × BusConnState)
  | [], num, connectionState => some (num, connectionState)
  | a :: rest, num, connectionState => do
      let num ← int (num + 1)
      scan state rest num ((state a).getD connectionState)

/-- The arguments of `handle_presence`. -/
structure PresenceEvent where
  connected : Nat
  disconnected : Nat
  connectionState : BusConnState
  deriving DecidableEq

/-- `on_xl4bus_presence`: the call of `handle_presence`. -/
def onXl4busPresence (connected disconnected : List Address) : Option PresenceEvent := do
  let (numConnected, connectionState) ← scan connectedState connected 0 .none
  let (numDisconnected, connectionState) ←
    scan disconnectedState disconnected 0 connectionState
  pure ⟨numConnected, numDisconnected, connectionState⟩

/-- `handle_presence`, with `nUah` registered handlers. -/
def handlePresence (nUah : Nat) (event : PresenceEvent) : UaProg Unit :=
  match event.connectionState with
  | .dmcNotConnected => Messages.handlePresence nUah false
  | .dmcConnected => Messages.handlePresence nUah true
  | .none | .brokerNotConnected | .brokerConnected => pure ()

theorem scan_eq (state : Address → Option BusConnState) (addresses : List Address) (num : Nat)
    (connectionState : BusConnState) (hnum : num < 2 ^ 31) :
    scan state addresses num connectionState =
      if num + addresses.length < 2 ^ 31 then
        some (num + addresses.length, assigned state connectionState addresses)
      else none := by
  induction addresses generalizing num connectionState with
  | nil => rw [scan, List.length_nil, if_pos (by omega), assigned_nil, Nat.add_zero]
  | cons a rest ih =>
    unfold scan
    by_cases hnext : num + 1 < 2 ^ 31
    · rw [int_of_lt hnext]
      simpa [Nat.add_comm, Nat.add_left_comm] using ih (num + 1) _ hnext
    · have hlong : ¬num + (a :: rest).length < 2 ^ 31 := by
        rw [List.length_cons]
        omega
      rw [if_neg hlong, int_of_not_lt hnext]
      rfl

/-- The state that the event is handled with. -/
def reported (connected disconnected : List Address) : BusConnState :=
  assigned disconnectedState (assigned connectedState .none connected) disconnected

theorem onXl4busPresence_eq_some_iff (connected disconnected : List Address)
    (event : PresenceEvent) :
    onXl4busPresence connected disconnected = some event ↔
      connected.length < 2 ^ 31 ∧ disconnected.length < 2 ^ 31 ∧
        event = ⟨connected.length, disconnected.length, reported connected disconnected⟩ := by
  unfold onXl4busPresence
  rw [scan_eq _ _ 0 _ (by decide), Nat.zero_add]
  constructor
  · intro h
    obtain ⟨first, hfirst, hcall⟩ := Option.bind_eq_some_iff.mp h
    obtain ⟨hconnected, hfirst⟩ := Option.ite_none_right_eq_some.mp hfirst
    obtain rfl := Option.some.inj hfirst
    dsimp only at hcall
    rw [scan_eq _ _ 0 _ (by decide), Nat.zero_add] at hcall
    obtain ⟨second, hsecond, hcall⟩ := Option.bind_eq_some_iff.mp hcall
    obtain ⟨hdisconnected, hsecond⟩ := Option.ite_none_right_eq_some.mp hsecond
    obtain rfl := Option.some.inj hsecond
    exact ⟨hconnected, hdisconnected, (Option.some.inj hcall).symm⟩
  · rintro ⟨hconnected, hdisconnected, rfl⟩
    rw [if_pos hconnected]
    dsimp only [Option.bind_eq_bind, Option.bind_some]
    rw [scan_eq _ _ 0 _ (by decide), Nat.zero_add, if_pos hdisconnected]
    rfl

def client : Address := .special .dmClient

def broker : Address := .special .dmBroker

theorem assigns_eq_some_iff (dmc brokerState : BusConnState) (a : Address)
    (value : BusConnState) :
    assigns dmc brokerState a = some value ↔
      a = client ∧ value = dmc ∨ a = broker ∧ value = brokerState := by
  unfold client broker
  cases a with
  | special special => cases special <;> simp [assigns, eq_comm]
  | updateAgent name => simp [assigns]
  | group name => simp [assigns]
  | unknown type => simp [assigns]

/-- Without a broker entry the DM client's entry decides. -/
theorem assigned_client (dmc brokerState old : BusConnState) (addresses : List Address)
    (hclient : client ∈ addresses) (hbroker : broker ∉ addresses) :
    assigned (assigns dmc brokerState) old addresses = dmc := by
  refine assigned_of_agreeing _ _ _ _ ?_ ⟨client, hclient, rfl⟩
  intro a ha
  cases hassigns : assigns dmc brokerState a with
  | none => exact Or.inl rfl
  | some value =>
    rcases (assigns_eq_some_iff _ _ _ _).mp hassigns with ⟨-, rfl⟩ | ⟨rfl, -⟩
    · exact Or.inr rfl
    · exact absurd ha hbroker

theorem assigned_absent (dmc brokerState old : BusConnState) (addresses : List Address)
    (hclient : client ∉ addresses) (hbroker : broker ∉ addresses) :
    assigned (assigns dmc brokerState) old addresses = old := by
  refine assigned_of_silent _ _ _ fun a ha => ?_
  cases hassigns : assigns dmc brokerState a with
  | none => rfl
  | some value =>
    rcases (assigns_eq_some_iff _ _ _ _).mp hassigns with ⟨rfl, -⟩ | ⟨rfl, -⟩
    · exact absurd ha hclient
    · exact absurd ha hbroker

theorem assigned_perm_iff_not_both (dmc brokerState old : BusConnState) (hne : dmc ≠ brokerState)
    (addresses : List Address) :
    (∀ reordered, reordered.Perm addresses →
        assigned (assigns dmc brokerState) old reordered =
          assigned (assigns dmc brokerState) old addresses) ↔
      (client ∈ addresses → broker ∉ addresses) := by
  rw [assigned_perm_iff]
  constructor
  · intro h hclient hbroker
    exact hne (h client hclient broker hbroker dmc brokerState rfl rfl)
  · intro h item hitem other hother value another hvalue hanother
    rcases (assigns_eq_some_iff _ _ _ _).mp hvalue with ⟨rfl, rfl⟩ | ⟨rfl, rfl⟩ <;>
      rcases (assigns_eq_some_iff _ _ _ _).mp hanother with ⟨rfl, rfl⟩ | ⟨rfl, rfl⟩
    · rfl
    · exact absurd hother (h hitem)
    · exact absurd hitem (h hother)
    · rfl

/-- What a presence event has to report: the DM client's entry, whatever the order. -/
def Reports (connected disconnected : List Address) : Prop :=
  ∃ event,
    (∀ connected' disconnected', connected'.Perm connected → disconnected'.Perm disconnected →
      onXl4busPresence connected' disconnected' = some event) ∧
    (client ∈ connected → client ∉ disconnected → event.connectionState = .dmcConnected) ∧
    (client ∈ disconnected → client ∉ connected → event.connectionState = .dmcNotConnected)

/-- The lists can be counted, and no broker entry competes with the DM client's. -/
structure Unambiguous (connected disconnected : List Address) : Prop where
  connected_short : connected.length < 2 ^ 31
  disconnected_short : disconnected.length < 2 ^ 31
  disconnected_alone : client ∈ disconnected → broker ∉ disconnected
  connected_alone : client ∈ connected → client ∉ disconnected →
    broker ∉ connected ∧ broker ∉ disconnected

/-- Without competing entries the state is the same in every order. -/
theorem Unambiguous.reported_perm {connected disconnected : List Address}
    (h : Unambiguous connected disconnected) {connected' disconnected' : List Address}
    (hconnected : connected'.Perm connected) (hdisconnected : disconnected'.Perm disconnected) :
    reported connected' disconnected' = reported connected disconnected := by
  unfold reported
  have hlast (old : BusConnState) : assigned disconnectedState old disconnected' =
      assigned disconnectedState old disconnected :=
    (assigned_perm_iff_not_both _ _ old (by decide) disconnected).mpr h.disconnected_alone
      disconnected' hdisconnected
  rw [hlast]
  by_cases hclient : client ∈ disconnected
  · exact (assigned_client _ _ _ disconnected hclient (h.disconnected_alone hclient)).trans
      (assigned_client _ _ _ disconnected hclient (h.disconnected_alone hclient)).symm
  · have hfirst := (assigned_perm_iff_not_both .dmcConnected .brokerConnected .none (by decide)
      connected).mpr (fun hmem => (h.connected_alone hmem hclient).1) connected' hconnected
    exact congrArg (assigned disconnectedState · disconnected) hfirst

theorem Unambiguous.reports {connected disconnected : List Address}
    (h : Unambiguous connected disconnected) : Reports connected disconnected := by
  refine ⟨⟨connected.length, disconnected.length, reported connected disconnected⟩, ?_, ?_, ?_⟩
  · intro connected' disconnected' hconnected hdisconnected
    apply (onXl4busPresence_eq_some_iff _ _ _).mpr
    rw [hconnected.length_eq, hdisconnected.length_eq,
      h.reported_perm hconnected hdisconnected]
    exact ⟨h.connected_short, h.disconnected_short, rfl⟩
  · intro hmem habsent
    obtain ⟨hbroker, hbroker'⟩ := h.connected_alone hmem habsent
    exact (assigned_absent _ _ _ disconnected habsent hbroker').trans
      (assigned_client _ _ _ connected hmem hbroker)
  · intro hmem habsent
    exact assigned_client _ _ _ disconnected hmem (h.disconnected_alone hmem)

theorem Reports.unambiguous {connected disconnected : List Address}
    (h : Reports connected disconnected) : Unambiguous connected disconnected := by
  obtain ⟨event, hall, hconnected, hdisconnected⟩ := h
  obtain ⟨hshort, hshort', hevent⟩ :=
    (onXl4busPresence_eq_some_iff _ _ _).mp (hall _ _ (.refl connected) (.refl disconnected))
  have hstate {connected' disconnected' : List Address} (hperm : connected'.Perm connected)
      (hperm' : disconnected'.Perm disconnected) :
      reported connected' disconnected' = event.connectionState := by
    obtain ⟨-, -, heq⟩ := (onXl4busPresence_eq_some_iff _ _ _).mp (hall _ _ hperm hperm')
    rw [heq]
  refine ⟨hshort, hshort', ?_, ?_⟩
  · apply (assigned_perm_iff_not_both .dmcNotConnected .brokerNotConnected
      (assigned connectedState .none connected) (by decide) disconnected).mp
    intro reordered hperm
    exact (hstate (.refl connected) hperm).trans (hstate (.refl connected) (.refl _)).symm
  · intro hmem habsent
    have hbroker' : broker ∉ disconnected := by
      intro hbroker
      obtain ⟨reordered, hperm, hlast⟩ := exists_perm_assigned disconnectedState
        (assigned connectedState .none connected) disconnected broker _ hbroker rfl
      have hclash := (hstate (.refl connected) hperm).symm.trans hlast
      rw [hconnected hmem habsent] at hclash
      exact absurd hclash (by decide)
    refine ⟨?_, hbroker'⟩
    have hsilent (old : BusConnState) : assigned disconnectedState old disconnected = old :=
      assigned_absent _ _ old disconnected habsent hbroker'
    refine (assigned_perm_iff_not_both .dmcConnected .brokerConnected .none (by decide)
      connected).mp ?_ hmem
    intro reordered hperm
    have hone := hstate hperm (.refl disconnected)
    have hother := hstate (.refl connected) (.refl disconnected)
    unfold reported at hone hother
    rw [hsilent] at hone hother
    exact hone.trans hother.symm

/-- The DM client is reported in every order of the addresses exactly when no broker entry
competes with its entry. -/
theorem reports_iff (connected disconnected : List Address) :
    Reports connected disconnected ↔ Unambiguous connected disconnected :=
  ⟨Reports.unambiguous, Unambiguous.reports⟩

/-- The broker's entry behind the client's hides that the client has connected. -/
theorem broker_hides_client : ¬Reports [client, broker] [] := by
  rintro ⟨event, hall, hconnected, -⟩
  have hevent := hall [client, broker] [] (.refl _) (.refl _)
  have hstate := hconnected (by decide) (by decide)
  have hcall : onXl4busPresence [client, broker] [] = some ⟨2, 0, .brokerConnected⟩ := by decide
  obtain rfl := Option.some.inj (hcall.symm.trans hevent)
  exact absurd hstate (by decide)

/-- An unambiguous event with the DM client starts the resume and the presence handlers. -/
theorem handlePresence_connected (nUah : Nat) {connected disconnected : List Address}
    (h : Unambiguous connected disconnected) (hmem : client ∈ connected)
    (habsent : client ∉ disconnected) :
    (onXl4busPresence connected disconnected).map (handlePresence nUah) =
      some (Messages.handlePresence nUah true) := by
  obtain ⟨event, hall, hconnected, -⟩ := h.reports
  rw [hall connected disconnected (.refl _) (.refl _), Option.map_some, handlePresence,
    hconnected hmem habsent]

/-- A broker entry as the last special one starts nothing. -/
theorem handlePresence_broker (nUah : Nat) (connected later : List Address)
    (hconnected : connected.length + 1 + later.length < 2 ^ 31)
    (hclient : client ∉ later) (hbroker : broker ∉ later) :
    (onXl4busPresence (connected ++ broker :: later) []).map (handlePresence nUah) =
      some (pure ()) := by
  have hstate : reported (connected ++ broker :: later) [] = .brokerConnected := by
    unfold reported
    rw [assigned_nil, assigned_append, assigned_cons]
    exact assigned_absent _ _ _ later hclient hbroker
  have hevent := (onXl4busPresence_eq_some_iff (connected ++ broker :: later) [] _).mpr
    ⟨by simp only [List.length_append, List.length_cons]; omega, by simp, rfl⟩
  rw [hevent, Option.map_some, handlePresence, hstate]

end EsyncUa.Presence
