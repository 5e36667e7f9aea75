import WeakChain.Core.Codec
import WeakChain.Lib.Run
import WeakChain.Net.SignedData
import WeakChain.Rbft.Node

/-!
# RBFT view changes

When the patience of a node runs out it raises its epoch and sends a signed `LaidDownMsg` to the
primary of that epoch.  A node that has collected `N - f` of them for one epoch and state becomes
the primary: it broadcasts them as a `NewViewCertificate`, together with the signatures of the
nodes that want to join.  The others check the certificate, extend their list of members by the
newcomers, and follow; a newcomer gets the certificate with the command history.

`Member` is a node with what it keeps for view changes.  The handlers follow the source, with its
order of effects: an assertion that fails throws, so what was done before it stays.  What a handler
does within a view is that of `Node`.
-/

namespace WeakChain

namespace Rbft

/-! ### Messages -/

/-- `cmds_to_state`. -/
def cmdsToState (_cmds : List Cmd) : Bytes := ascii "<mocked-state>"

/-- `LaidDownMsg`. -/
structure LaidDownMsg where
  /-- A greeting. -/
  msg : Bytes
  /-- The epoch for which the sender has laid down. -/
  epoch : ℤ
  /-- The state of the sender. -/
  state : Bytes
  deriving DecidableEq

namespace LaidDownMsg

/-- `LaidDownMsg::toPb`. -/
def toPb (m : LaidDownMsg) : hiPb.LaidDownMsg := ⟨m.msg, .ofInt m.epoch, m.state⟩

/-- `LaidDownMsg::fromPb`. -/
def fromPb (pb : hiPb.LaidDownMsg) : LaidDownMsg := ⟨pb.msg, pb.epoch.toInt, pb.state⟩

variable [Pb hiPb.LaidDownMsg]

/-- `LaidDownMsg::toString`. -/
def toString (m : LaidDownMsg) : Bytes := serializeAsString m.toPb

/-- `LaidDownMsg::fromString`; nothing if it returns `false`. -/
def fromString (s : Bytes) : Option LaidDownMsg :=
  let r := parseFromString (M := hiPb.LaidDownMsg) s
  if r.1 then some (fromPb r.2) else none

/-- Protobuf reads back the laid-down messages that nodes send.  The field `state` is a `string`, so
this is not said of every message. -/
def ReadsBack : Prop :=
  ∀ pb : hiPb.LaidDownMsg, pb.state = cmdsToState [] →
    parseFromString (serializeAsString pb) = (true, pb)

theorem fromString_toString (hpb : ReadsBack) {msg : LaidDownMsg}
    (hepoch : int32 msg.epoch = msg.epoch) (hstate : msg.state = cmdsToState []) :
    fromString msg.toString = some msg := by
  have hread : parseFromString (serializeAsString msg.toPb) = (true, msg.toPb) := hpb _ hstate
  have hint : (Int32.ofInt msg.epoch).toInt = msg.epoch := by
    rw [Int32.toInt_ofInt]
    exact hepoch
  rw [fromString, toString, hread]
  simp [fromPb, toPb, hint]

end LaidDownMsg

/-- `NewViewCertificate`. -/
structure NewViewCertificate where
  /-- A greeting. -/
  msg : Bytes
  /-- The epoch for which the messages have been collected. -/
  epoch : ℤ
  /-- The signed laid-down messages. -/
  newViewCertificate : List Bytes
  /-- What the newcomers have signed. -/
  sigOfNodesToBeAdded : List Bytes
  /-- The command history, for the newcomers. -/
  cmds : List Cmd
  deriving DecidableEq

namespace NewViewCertificate

/-- The certificate that a new primary broadcasts. -/
def ofPrimary (e : ℤ) (myList sigForNewcomers : List Bytes) : NewViewCertificate where
  msg := ascii "Hi, I am the primary now"
  epoch := e
  newViewCertificate := myList
  sigOfNodesToBeAdded := sigForNewcomers
  cmds := []

/-- `NewViewCertificate::toPb`. -/
def toPb (m : NewViewCertificate) : hiPb.NewViewCertificate :=
  ⟨m.msg, .ofInt m.epoch, m.newViewCertificate, m.sigOfNodesToBeAdded, m.cmds⟩

/-- `NewViewCertificate::fromPb`. -/
def fromPb (pb : hiPb.NewViewCertificate) : NewViewCertificate :=
  ⟨pb.msg, pb.epoch.toInt, pb.newViewCertificate, pb.sigOfNodesToBeAdded, pb.cmds⟩

variable [Pb hiPb.NewViewCertificate]

/-- `NewViewCertificate::toString`. -/
def toString (m : NewViewCertificate) : Bytes := serializeAsString m.toPb

/-- `NewViewCertificate::fromString`; nothing if it returns `false`. -/
def fromString (s : Bytes) : Option NewViewCertificate :=
  let r := parseFromString (M := hiPb.NewViewCertificate) s
  if r.1 then some (fromPb r.2) else none

theorem fromString_toString (hpb : Pb.ReadsBack hiPb.NewViewCertificate) {m : NewViewCertificate}
    (hepoch : int32 m.epoch = m.epoch) : fromString m.toString = some m := by
  have hint : (Int32.ofInt m.epoch).toInt = m.epoch := by
    rw [Int32.toInt_ofInt]
    exact hepoch
  rw [fromString, toString, hpb]
  simp [fromPb, toPb, hint]

end NewViewCertificate

/-- All targets. -/
inductive Route
  /-- A target of a view. -/
  | view (t : Target)
  /-- `/ILaidDown`. -/
  | iLaidDown
  /-- `/IamThePrimary`. -/
  | iamThePrimary
  /-- `/pleaseAddMeNoBoardcast`. -/
  | pleaseAddMeNoBoardcast
  /-- `/IamThePrimaryForNewcomer`. -/
  | iamThePrimaryForNewcomer
  deriving DecidableEq

/-- A datagram to any target. -/
structure Datagram where
  /-- The (authenticated) sender. -/
  src : Endpoint
  /-- The receiver. -/
  dst : Endpoint
  /-- The handler it is for. -/
  route : Route
  /-- The data. -/
  data : Bytes
  deriving DecidableEq

/-- A datagram of a view. -/
def Packet.toDatagram (p : Packet) : Datagram := ⟨p.src, p.dst, .view p.target, p.data⟩

/-! ### Members -/

/-- A node with what it keeps for view changes.  An absent entry of the history is the
empty list. -/
structure Member (X : Type*) extends Node X where
  /-- The signed laid-down messages collected, by epoch and state. -/
  laidDownHistory : ℤ → Bytes → List Bytes
  /-- What the nodes that want to join have signed, a `set` in its order. -/
  sigOfNodesToBeAdded : List Bytes

/-- What a handler leaves behind. -/
structure Outcome (X : Type*) where
  /-- The node after the call. -/
  member : Member X
  /-- The datagrams sent, in order. -/
  sent : List Datagram := []
  /-- The arguments of the calls of `finally_execute_it`. -/
  executed : List Cmd := []
  /-- The certificate that has been broadcast, if there is one. -/
  cert : Option NewViewCertificate := none
  /-- The node has entered a view. -/
  entered : Bool := false

/-- Insert a string into a `set`. -/
def insertStr (a : Bytes) : List Bytes → List Bytes
  | [] => [a]
  | b :: l => if a = b then b :: l else if a < b then a :: b :: l else b :: insertStr a l

/-- Tear a message open, and read the laid-down message in it. -/
def openLaidDown [Pb hiPb.LaidDownMsg] (S : IMsgManageable) (s : Bytes) :
    Option (Endpoint × LaidDownMsg) :=
  match S.tearMsgOpen s with
  | none => none
  | some (sender, data) => (LaidDownMsg.fromString data).map fun msg => (sender, msg)

/-- `get_newcommers`: who has signed, as a `set` in its order. -/
def getNewcommers (S : IMsgManageable) (sigs : List Bytes) : List Endpoint :=
  sigs.foldl (fun o sig =>
    match S.tearMsgOpen sig with
    | none => o
    | some (n, _) => insertStr n o) []

/-- The loop of `check_cert`: the hosts that have signed, if all messages are right. -/
def checkLoop [Pb hiPb.LaidDownMsg] (S : IMsgManageable) (state : Bytes) (e : ℤ) :
    Finset Endpoint → List Bytes → Option (Finset Endpoint)
  | hosts, [] => some hosts
  | hosts, s :: l =>
    match openLaidDown S s with
    | none => none
    | some (host, msg) =>
      if msg.state = state ∧ msg.epoch = e then checkLoop S state e (insert host hosts) l else none

namespace Member

/-- What can happen to a node. -/
inductive Input
  /-- A client calls `handle_execute`, giving its name. -/
  | client (src : Endpoint) (data : Cmd)
  /-- A datagram arrives. -/
  | datagram (src : Endpoint) (route : Route) (data : Bytes)
  /-- The patience runs out.  A newcomer has no timer. -/
  | timeout
  deriving DecidableEq

variable {X : Type*} (S : IMsgManageable) (E : IForConsensusExecutable X) (m : Member X)

/-- Install what a handler of a view has left behind. -/
def withView (o : Out X) : Outcome X where
  member := { m with toNode := o.node }
  sent := o.sent.map Packet.toDatagram
  executed := o.executed

/-- `get_state`. -/
def getState : Bytes := cmdsToState m.commandHistory

/-- `N() - f()`, the number of laid-down messages that make a primary.  Without members the
subtraction of the `size_t`s wraps. -/
def needed : ℕ := if m.N = 0 then 2 ^ 64 - (2 ^ 64 - 1) / 3 else m.N - m.f

/-- The member at the place of an epoch. -/
def memberAt (e : ℤ) : Endpoint := m.allEndpoints.getD (toSizeT e % m.N) []

/-- `clear_memory`. -/
def clearMemory : Member X := { m with viewChangeState := false, receivedCommands := ∅ }

/-- `start_listening_as_primary`. -/
def startListeningAsPrimary : Member X := { m.clearMemory with role := .primary }

/-- `start_listening_as_sub`. -/
def startListeningAsSub : Member X :=
  if m.role = .sub then m.clearMemory else { m.clearMemory with role := .sub }

/-- `epoch_considering_newcomers`: the `int`s become `size_t`s, and the result an `int` again. -/
def epochConsideringNewcomers (e numNewcomers : ℤ) : ℤ :=
  int32 ((e % 2 ^ 64 + (e % 2 ^ 64) / m.N * (int32 numNewcomers % 2 ^ 64)) % 2 ^ 64)

/-- `boardcast_to_others`. -/
def boardcastToOthers (route : Route) (data : Bytes) : List Datagram :=
  (m.allEndpoints.filter fun node => node ≠ m.listenedEndpoint).map
    fun node => ⟨m.listenedEndpoint, node, route, data⟩

/-- The constructor. -/
def start (listenedEndpoint : Endpoint) (allEndpoints : List Endpoint) (exe : X) : Member X where
  listenedEndpoint := listenedEndpoint
  allEndpoints := allEndpoints
  epoch := 0
  viewChangeState := false
  role :=
    if listenedEndpoint ∉ allEndpoints then .newcomer
    else if allEndpoints.getD 0 [] = listenedEndpoint then .primary
    else .sub
  toBeConfirmedCommands := fun _ => ∅
  toBeCommittedCommands := fun _ => ∅
  receivedCommands := ∅
  commandHistory := []
  exe := exe
  laidDownHistory := fun _ _ => []
  sigOfNodesToBeAdded := []

/-- What `start_listening_as_newcomer` sends. -/
def pleaseAddMe : List Datagram :=
  m.boardcastToOthers .pleaseAddMeNoBoardcast (S.prepareMsg (ascii "Hi, please let me in."))

/-- Replace the list of an epoch and a state. -/
def setLaidDown (e : ℤ) (state : Bytes) (l : List Bytes) : Member X :=
  { m with
    laidDownHistory :=
      Function.update m.laidDownHistory e (Function.update (m.laidDownHistory e) state l) }

/-- The node after the first lines of `trigger_view_change`. -/
def layDown : Member X := { m with epoch := int32 (m.epoch + 1), viewChangeState := true }

/-- The message of `trigger_view_change`. -/
def laidDownMsg : LaidDownMsg :=
  ⟨ascii "Dear " ++ m.primary ++ ascii ", I laid down for U.", m.epoch, m.getState⟩

/-- Clear `sig_of_nodes_to_be_added`. -/
def popSigs : Member X := { m with sigOfNodesToBeAdded := [] }

/-- Push the newcomers to the list of members. -/
def pushNewcomers (newcomers : List Endpoint) : Member X :=
  { m with allEndpoints := m.allEndpoints ++ newcomers }

/-- The new view in `handle_new_primary`: the epoch is computed before the newcomers are added. -/
def follow (e : ℤ) (newcomers : List Endpoint) : Member X :=
  let m := { m.popSigs with
    epoch := m.epochConsideringNewcomers e newcomers.length
    laidDownHistory := fun _ _ => [] }
  (m.pushNewcomers newcomers).startListeningAsSub

/-- The epoch and the members in `try_to_be_primary` and `handle_new_primary_for_newcomer`: the
epoch is computed before the newcomers are added. -/
def enroll (e : ℤ) (newcomers : List Endpoint) : Member X :=
  { m with epoch := m.epochConsideringNewcomers e newcomers.length }.pushNewcomers newcomers

/-- The commands in `handle_new_primary_for_newcomer`.  The executor takes them by reference, so the
history has them as it left them. -/
def catchUp (cmds : List Cmd) : Member X :=
  let r := E.executeAll m.exe cmds
  { m with exe := r.1, commandHistory := r.2 }

/-- The end of `handle_new_primary_for_newcomer`.  If the node is not among the newcomers the
assertion fails, and the epoch and the list of members have changed already. -/
def settle (cmds : List Cmd) : Outcome X :=
  if m.listenedEndpoint ∉ m.allEndpoints then { member := m }
  else { member := (m.catchUp E cmds).startListeningAsSub, entered := true }

/-- `handle_add_new_node_no_boardcast`. -/
def handleAddNewNodeNoBoardcast (_endpoint : Endpoint) (data : Bytes) : Outcome X :=
  { member := { m with sigOfNodesToBeAdded := insertStr data m.sigOfNodesToBeAdded } }

variable [Pb hiPb.LaidDownMsg]

/-- `check_cert`.  The epoch of the first message is not looked at. -/
def checkCert (l : List Bytes) (e : ℤ) (forNewcomer : Bool) : Bool :=
  match l with
  | [] => false
  | s :: l =>
    match openLaidDown S s with
    | none => false
    | some (host, msg₀) =>
      if !forNewcomer && msg₀.state ≠ m.getState then false
      else
        let state := if forNewcomer then msg₀.state else m.getState
        match checkLoop S state e {host} l with
        | none => false
        | some hosts => m.needed ≤ hosts.card

variable [Pb hiPb.NewViewCertificate]

/-- `try_to_be_primary` without newcomers: broadcast the certificate and be the primary. -/
def leadAlone (e : ℤ) (myList : List Bytes) : Outcome X :=
  let cert := NewViewCertificate.ofPrimary e myList []
  { member := { m.popSigs with epoch := e }.startListeningAsPrimary
    sent := m.boardcastToOthers .iamThePrimary cert.toString
    cert := some cert
    entered := true }

/-- `try_to_be_primary` with newcomers.  The others get the certificate before the newcomers are
added, the newcomers get it with the command history. -/
def leadWith (e : ℤ) (myList : List Bytes) (newcomers : List Endpoint) : Outcome X :=
  let cert := NewViewCertificate.ofPrimary e myList m.sigOfNodesToBeAdded
  let certForNewcomers := { cert with cmds := m.commandHistory }
  { member := (m.enroll e newcomers).popSigs.startListeningAsPrimary
    sent := m.boardcastToOthers .iamThePrimary cert.toString ++ newcomers.map fun newcomer =>
      ⟨m.listenedEndpoint, newcomer, .iamThePrimaryForNewcomer, certForNewcomers.toString⟩
    cert := some cert
    entered := true }

/-- `try_to_be_primary`. -/
def tryToBePrimary (e : ℤ) (state : Bytes) (myList : List Bytes) : Outcome X :=
  -- the two assertions
  if m.memberAt e ≠ m.listenedEndpoint then { member := m }
  else if m.getState ≠ state then { member := m }
  else
    let newcomers := getNewcommers S m.sigOfNodesToBeAdded
    if newcomers.isEmpty then m.leadAlone e myList else m.leadWith e myList newcomers

/-- `remember_this_laiddown_and_be_primary_maybe`. -/
def rememberThisLaiddownAndBePrimaryMaybe (o : LaidDownMsg) (data : Bytes) : Outcome X :=
  let toBeAddedList := m.laidDownHistory o.epoch o.state
  if data ∈ toBeAddedList then { member := m }
  else
    let toBeAddedList := toBeAddedList ++ [data]
    let m := m.setLaidDown o.epoch o.state toBeAddedList
    if m.needed ≤ toBeAddedList.length then m.tryToBePrimary S o.epoch o.state toBeAddedList
    else { member := m }

/-- `handle_laid_down`.  It does not matter who sends the message, only who has signed it. -/
def handleLaidDown (_endpoint : Endpoint) (data : Bytes) : Outcome X :=
  match openLaidDown S data with
  | none => { member := m }
  | some (_, msg) =>
    if msg.epoch < m.epoch then { member := m }
    else if m.memberAt msg.epoch ≠ m.listenedEndpoint then { member := m }
    else m.rememberThisLaiddownAndBePrimaryMaybe S msg data

/-- `trigger_view_change`. -/
def triggerViewChange : Outcome X :=
  let m := m.layDown
  let data := S.prepareMsg m.laidDownMsg.toString
  if m.primary = m.listenedEndpoint then
    m.rememberThisLaiddownAndBePrimaryMaybe S m.laidDownMsg data
  else { member := m, sent := [⟨m.listenedEndpoint, m.primary, .iLaidDown, data⟩] }

/-- `handle_new_primary`. -/
def handleNewPrimary (_endpoint : Endpoint) (data : Bytes) : Outcome X :=
  match NewViewCertificate.fromString data with
  | none => { member := m }
  | some o =>
    let newcomers := getNewcommers S o.sigOfNodesToBeAdded
    if newcomers.any (· ∈ m.allEndpoints) then { member := m }
    else if m.epoch > o.epoch then { member := m }
    else if !m.checkCert S o.newViewCertificate o.epoch false then { member := m }
    else { member := m.follow o.epoch newcomers, entered := true }

/-- `handle_new_primary_for_newcomer`. -/
def handleNewPrimaryForNewcomer (_endpoint : Endpoint) (data : Bytes) : Outcome X :=
  match NewViewCertificate.fromString data with
  | none => { member := m }
  | some d =>
    if !m.checkCert S d.newViewCertificate d.epoch true then { member := m }
    else (m.enroll d.epoch (getNewcommers S d.sigOfNodesToBeAdded)).settle E d.cmds

/-- The handler registered for a target; a datagram without a handler is dropped. -/
def receive (src : Endpoint) (route : Route) (data : Bytes) : Outcome X :=
  match m.role, route with
  | .newcomer, .iamThePrimaryForNewcomer => m.handleNewPrimaryForNewcomer S E src data
  | .newcomer, _ => { member := m }
  | _, .iLaidDown => m.handleLaidDown S src data
  | _, .iamThePrimary => m.handleNewPrimary S src data
  | _, .pleaseAddMeNoBoardcast => m.handleAddNewNodeNoBoardcast src data
  | _, .iamThePrimaryForNewcomer => { member := m }
  | _, .view t => m.withView (m.toNode.receive E src t data)

/-- What the node does. -/
def handle : Input → Outcome X
  | .client src data => m.withView (m.toNode.handleExecute E src data)
  | .datagram src route data => m.receive S E src route data
  | .timeout => if m.role = .newcomer then { member := m } else m.triggerViewChange S

/-! ### What a node can do -/

/-- The node after `try_to_be_primary`. -/
def lead (e : ℤ) : Member X :=
  let newcomers := getNewcommers S m.sigOfNodesToBeAdded
  if newcomers.isEmpty then { m.popSigs with epoch := e }.startListeningAsPrimary
  else (m.enroll e newcomers).popSigs.startListeningAsPrimary

/-- The signatures that `try_to_be_primary` sends on: none if there is no newcomer. -/
def sigForNewcomers : List Bytes :=
  if (getNewcommers S m.sigOfNodesToBeAdded).isEmpty then [] else m.sigOfNodesToBeAdded

variable {S E m}

omit [Pb hiPb.LaidDownMsg] in
/-- `try_to_be_primary` does nothing, or it makes the node the primary. -/
theorem tryToBePrimary_cases (e : ℤ) (state : Bytes) (myList : List Bytes) :
    m.tryToBePrimary S e state myList = { member := m } ∨
      (m.memberAt e = m.listenedEndpoint ∧ m.getState = state ∧
        ∃ sent, m.tryToBePrimary S e state myList =
          ⟨m.lead S e, sent, [], some (.ofPrimary e myList (m.sigForNewcomers S)), true⟩) := by
  unfold tryToBePrimary lead sigForNewcomers
  by_cases hself : m.memberAt e = m.listenedEndpoint
  · by_cases hstate : m.getState = state
    · right
      refine ⟨hself, hstate, ?_⟩
      rw [if_neg (not_not.2 hself), if_neg (not_not.2 hstate)]
      dsimp only
      cases (getNewcommers S m.sigOfNodesToBeAdded).isEmpty with
      | true => exact ⟨_, rfl⟩
      | false => exact ⟨_, rfl⟩
    · left
      rw [if_neg (not_not.2 hself), if_pos hstate]
  · exact .inl (if_pos hself)

variable (S E m)

omit [Pb hiPb.NewViewCertificate] in
/-- A laid-down message reaches the node that is to be the primary: one that arrives, or its own.
The node that remembers it is `m₁`. -/
inductive Collects (m : Member X) : Input → Member X → LaidDownMsg → Bytes → Prop
  | datagram (src host : Endpoint) (msg : LaidDownMsg) (data : Bytes) (hrole : m.role ≠ .newcomer)
      (hopen : openLaidDown S data = some (host, msg)) (hepoch : m.epoch ≤ msg.epoch) :
      Collects m (.datagram src .iLaidDown data) m msg data
  | timeout (hrole : m.role ≠ .newcomer) :
      Collects m .timeout m.layDown m.layDown.laidDownMsg
        (S.prepareMsg m.layDown.laidDownMsg.toString)

omit [Pb hiPb.LaidDownMsg] [Pb hiPb.NewViewCertificate] in
/-- The list of the epoch and the state of a message, with the message. -/
def extendedList (msg : LaidDownMsg) (data : Bytes) : List Bytes :=
  m.laidDownHistory msg.epoch msg.state ++ [data]

omit [Pb hiPb.LaidDownMsg] [Pb hiPb.NewViewCertificate] in
/-- The node with a message added to its list. -/
def remember (msg : LaidDownMsg) (data : Bytes) : Member X :=
  m.setLaidDown msg.epoch msg.state (m.extendedList msg data)

/-- Everything a node can do, guards included. -/
inductive Does (m : Member X) : Input → Outcome X → Prop
  /-- The input is ignored.  Only a newcomer ignores the time. -/
  | idle (i : Input) (hrole : i = .timeout → m.role = .newcomer) : Does m i { member := m }
  /-- A client asks for the execution of a command. -/
  | client (src : Endpoint) (data : Cmd) :
      Does m (.client src data) (m.withView (m.toNode.handleExecute E src data))
  /-- A datagram of the view arrives. -/
  | view (src : Endpoint) (t : Target) (data : Cmd) (hrole : m.role ≠ .newcomer) :
      Does m (.datagram src (.view t) data) (m.withView (m.toNode.receive E src t data))
  /-- A node wants to join. -/
  | addMe (src : Endpoint) (data : Bytes) (hrole : m.role ≠ .newcomer) :
      Does m (.datagram src .pleaseAddMeNoBoardcast data)
        { member := { m with sigOfNodesToBeAdded := insertStr data m.sigOfNodesToBeAdded } }
  /-- The node lays down, for another one or with a message it has remembered already. -/
  | layDown (sent : List Datagram) (hrole : m.role ≠ .newcomer) :
      Does m .timeout { member := m.layDown, sent := sent }
  /-- A laid-down message is remembered. -/
  | remember {i : Input} {m₁ : Member X} {msg : LaidDownMsg} {data : Bytes}
      (h : m.Collects S i m₁ msg data) (hnew : data ∉ m.laidDownHistory msg.epoch msg.state) :
      Does m i { member := m₁.remember msg data }
  /-- There are enough laid-down messages, and the node becomes the primary. -/
  | lead {i : Input} {m₁ : Member X} {msg : LaidDownMsg} {data : Bytes} (sent : List Datagram)
      (h : m.Collects S i m₁ msg data) (hnew : data ∉ m.laidDownHistory msg.epoch msg.state)
      (hneeded : m.needed ≤ (m.extendedList msg data).length)
      (hself : m.memberAt msg.epoch = m.listenedEndpoint) (hstate : m.getState = msg.state) :
      Does m i
        { member := (m₁.remember msg data).lead S msg.epoch
          sent := sent
          cert := some (.ofPrimary msg.epoch (m.extendedList msg data) (m.sigForNewcomers S))
          entered := true }
  /-- The certificate of a new primary is accepted. -/
  | follow (src : Endpoint) {data : Bytes} {o : NewViewCertificate} (hrole : m.role ≠ .newcomer)
      (hparse : NewViewCertificate.fromString data = some o)
      (hnew : ∀ n ∈ getNewcommers S o.sigOfNodesToBeAdded, n ∉ m.allEndpoints)
      (hepoch : m.epoch ≤ o.epoch)
      (hcert : m.checkCert S o.newViewCertificate o.epoch false = true) :
      Does m (.datagram src .iamThePrimary data)
        { member := m.follow o.epoch (getNewcommers S o.sigOfNodesToBeAdded), entered := true }
  /-- A newcomer accepts a certificate in which it is not added. -/
  | stray (src : Endpoint) {data : Bytes} {d : NewViewCertificate} (hrole : m.role = .newcomer)
      (hparse : NewViewCertificate.fromString data = some d)
      (hcert : m.checkCert S d.newViewCertificate d.epoch true = true) :
      Does m (.datagram src .iamThePrimaryForNewcomer data)
        { member := m.enroll d.epoch (getNewcommers S d.sigOfNodesToBeAdded) }
  /-- A newcomer accepts a certificate and joins. -/
  | join (src : Endpoint) {data : Bytes} {d : NewViewCertificate} (hrole : m.role = .newcomer)
      (hparse : NewViewCertificate.fromString data = some d)
      (hcert : m.checkCert S d.newViewCertificate d.epoch true = true)
      (hself : m.listenedEndpoint ∈
        (m.enroll d.epoch (getNewcommers S d.sigOfNodesToBeAdded)).allEndpoints) :
      Does m (.datagram src .iamThePrimaryForNewcomer data)
        { member := ((m.enroll d.epoch (getNewcommers S d.sigOfNodesToBeAdded)).catchUp E
            d.cmds).startListeningAsSub
          entered := true }

variable {S E m}

/-- Remembering a laid-down message that reaches the node. -/
theorem does_remember {i : Input} {m₁ : Member X} {msg : LaidDownMsg} {data : Bytes}
    (h : m.Collects S i m₁ msg data) (hidle : m.Does S E i { member := m₁ }) :
    m.Does S E i (m₁.rememberThisLaiddownAndBePrimaryMaybe S msg data) := by
  -- laying down changes nothing that is looked at here
  have hlist : m₁.laidDownHistory = m.laidDownHistory := by cases h <;> rfl
  have hneeded : (m₁.remember msg data).needed = m.needed := by cases h <;> rfl
  have hat : (m₁.remember msg data).memberAt msg.epoch = m.memberAt msg.epoch := by
    cases h <;> rfl
  have hself : (m₁.remember msg data).listenedEndpoint = m.listenedEndpoint := by cases h <;> rfl
  have hstate : (m₁.remember msg data).getState = m.getState := by cases h <;> rfl
  have hsigs : (m₁.remember msg data).sigForNewcomers S = m.sigForNewcomers S := by
    cases h <;> rfl
  have hext : m₁.extendedList msg data = m.extendedList msg data := by
    rw [extendedList, extendedList, hlist]
  unfold rememberThisLaiddownAndBePrimaryMaybe
  dsimp only
  change Does S E m i (if data ∈ m₁.laidDownHistory msg.epoch msg.state then { member := m₁ }
    else if (m₁.remember msg data).needed ≤ (m₁.extendedList msg data).length then
      (m₁.remember msg data).tryToBePrimary S msg.epoch msg.state (m₁.extendedList msg data)
    else { member := m₁.remember msg data })
  rw [hlist, hext, hneeded]
  split_ifs with hnew hlen
  · exact hidle
  · rcases tryToBePrimary_cases (S := S) (m := m₁.remember msg data) msg.epoch msg.state
      (m.extendedList msg data) with htry | ⟨hat', hstate', sent, htry⟩
    · rw [htry]
      exact .remember h hnew
    · rw [htry, hsigs]
      rw [hat, hself] at hat'
      rw [hstate] at hstate'
      exact .lead sent h hnew hlen hat' hstate'
  · exact .remember h hnew

theorem does_handleLaidDown (src : Endpoint) (data : Bytes) (hrole : m.role ≠ .newcomer) :
    m.Does S E (.datagram src .iLaidDown data) (m.handleLaidDown S src data) := by
  unfold handleLaidDown
  split
  · exact .idle _ nofun
  · next host msg hopen =>
    split_ifs with hepoch hself
    · exact .idle _ nofun
    · exact .idle _ nofun
    · exact does_remember (.datagram src host msg data hrole hopen (not_lt.1 hepoch))
        (.idle _ nofun)

theorem does_triggerViewChange (hrole : m.role ≠ .newcomer) :
    m.Does S E .timeout (m.triggerViewChange S) := by
  unfold triggerViewChange
  dsimp only
  split_ifs with hself
  · exact does_remember (.timeout hrole) (.layDown [] hrole)
  · exact .layDown _ hrole

theorem does_handleNewPrimary (src : Endpoint) (data : Bytes) (hrole : m.role ≠ .newcomer) :
    m.Does S E (.datagram src .iamThePrimary data) (m.handleNewPrimary S src data) := by
  unfold handleNewPrimary
  split
  · exact .idle _ nofun
  · next o hparse =>
    dsimp only
    split_ifs with hold hepoch hcert
    · exact .idle _ nofun
    · exact .idle _ nofun
    · exact .idle _ nofun
    · refine .follow src hrole hparse ?_ (not_lt.1 hepoch) (by simpa using hcert)
      intro n hn hmem
      exact hold (List.any_eq_true.2 ⟨n, hn, decide_eq_true hmem⟩)

theorem does_handleNewPrimaryForNewcomer (src : Endpoint) (data : Bytes)
    (hrole : m.role = .newcomer) :
    m.Does S E (.datagram src .iamThePrimaryForNewcomer data)
      (m.handleNewPrimaryForNewcomer S E src data) := by
  unfold handleNewPrimaryForNewcomer
  split
  · exact .idle _ nofun
  · next d hparse =>
    split_ifs with hcert
    · exact .idle _ nofun
    · unfold settle
      split_ifs with hself
      · exact .join src hrole hparse (by simpa using hcert) hself
      · exact .stray src hrole hparse (by simpa using hcert)

/-- The handlers of a newcomer. -/
theorem receive_of_newcomer (src : Endpoint) (route : Route) (data : Bytes)
    (hrole : m.role = .newcomer) :
    m.receive S E src route data =
      match route with
      | .iamThePrimaryForNewcomer => m.handleNewPrimaryForNewcomer S E src data
      | _ => { member := m } := by
  unfold receive
  rw [hrole]
  cases route <;> rfl

/-- The handlers of a member. -/
theorem receive_of_member (src : Endpoint) (route : Route) (data : Bytes)
    (hrole : m.role ≠ .newcomer) :
    m.receive S E src route data =
      match route with
      | .iLaidDown => m.handleLaidDown S src data
      | .iamThePrimary => m.handleNewPrimary S src data
      | .pleaseAddMeNoBoardcast => m.handleAddNewNodeNoBoardcast src data
      | .iamThePrimaryForNewcomer => { member := m }
      | .view t => m.withView (m.toNode.receive E src t data) := by
  unfold receive
  cases hr : m.role with
  | newcomer => exact absurd hr hrole
  | sub => cases route <;> rfl
  | primary => cases route <;> rfl

theorem does_receive (src : Endpoint) (route : Route) (data : Bytes) :
    m.Does S E (.datagram src route data) (m.receive S E src route data) := by
  by_cases hrole : m.role = .newcomer
  · rw [receive_of_newcomer src route data hrole]
    cases route with
    | iamThePrimaryForNewcomer => exact does_handleNewPrimaryForNewcomer src data hrole
    | _ => exact .idle _ nofun
  · rw [receive_of_member src route data hrole]
    cases route with
    | iLaidDown => exact does_handleLaidDown src data hrole
    | iamThePrimary => exact does_handleNewPrimary src data hrole
    | pleaseAddMeNoBoardcast => exact .addMe src data hrole
    | iamThePrimaryForNewcomer => exact .idle _ nofun
    | view t => exact .view src t data hrole

/-- **What a node can do.** -/
theorem does_handle (i : Input) : m.Does S E i (m.handle S E i) := by
  cases i with
  | client src data => exact .client src data
  | datagram src route data => exact does_receive src route data
  | timeout =>
    change m.Does S E .timeout (if m.role = .newcomer then { member := m }
      else m.triggerViewChange S)
    split_ifs with hrole
    · exact .idle _ fun _ => hrole
    · exact does_triggerViewChange hrole

variable (S E) in
/-- One node under any inputs, from the constructor on. -/
def sys : Sys (Member X) Input where
  init m := ∃ listenedEndpoint allEndpoints exe, m = start listenedEndpoint allEndpoints exe
  enabled _ _ := True
  act m i := (m.handle S E i).member

/-! ### Entering a view -/

section Enter

omit [Pb hiPb.LaidDownMsg] [Pb hiPb.NewViewCertificate]

theorem startListeningAsSub_eq : m.startListeningAsSub = { m.clearMemory with role := .sub } := by
  unfold startListeningAsSub
  split_ifs with hrole
  · rw [← hrole]
    rfl
  · rfl

theorem lead_eq (e : ℤ) :
    m.lead S e = { m with
      allEndpoints := m.allEndpoints ++ getNewcommers S m.sigOfNodesToBeAdded
      epoch := if (getNewcommers S m.sigOfNodesToBeAdded).isEmpty then e
        else m.epochConsideringNewcomers e (getNewcommers S m.sigOfNodesToBeAdded).length
      viewChangeState := false
      role := .primary
      receivedCommands := ∅
      sigOfNodesToBeAdded := [] } := by
  unfold lead
  cases getNewcommers S m.sigOfNodesToBeAdded with
  | nil => simp [startListeningAsPrimary, clearMemory, popSigs]
  | cons newcomer newcomers => rfl

end Enter

end Member

end Rbft

end WeakChain
