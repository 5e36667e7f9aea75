import WeakChain.Net.Sender
import WeakChain.Net.Udp
import WeakChain.Rbft.ViewChange

/-!
# Messages that come again

An RBFT group over UDP, with signed messages, and somebody between the nodes who sends any bytes to
anybody, as long as they hold no forged signature.  The signature of a message does not cover the
target in front of it, and the three rounds of a command send the same data: a message of one round
can be sent again as a message of another.

`UdpGroup.hasSigned_of_commit` says what a commit vote in the name of an honest node proves: the
node has signed the data, under whatever target.
-/

namespace WeakChain

namespace Rbft

/-- The target, as it stands in a datagram. -/
def Route.target : Route → Bytes
  | .view .pleaseExecuteThis => ascii "/pleaseExecuteThis"
  | .view .pleaseConfirmThis => ascii "/pleaseConfirmThis"
  | .view .pleaseCommitThis => ascii "/pleaseCommitThis"
  | .iLaidDown => ascii "/ILaidDown"
  | .iamThePrimary => ascii "/IamThePrimary"
  | .pleaseAddMeNoBoardcast => ascii "/pleaseAddMeNoBoardcast"
  | .iamThePrimaryForNewcomer => ascii "/IamThePrimaryForNewcomer"

/-- All targets. -/
def Route.all : List Route :=
  [.view .pleaseExecuteThis, .view .pleaseConfirmThis, .view .pleaseCommitThis, .iLaidDown,
    .iamThePrimary, .pleaseAddMeNoBoardcast, .iamThePrimaryForNewcomer]

/-- The handler that is looked up for a target. -/
def Route.ofTarget (t : Bytes) : Option Route := Route.all.find? fun r => r.target = t

theorem Route.ofTarget_target (r : Route) : Route.ofTarget r.target = some r := by
  cases r with
  | view t => cases t <;> decide +kernel
  | _ => decide +kernel

/-- There is no colon in a target. -/
theorem Route.notMem_target (r : Route) : 58 ∉ r.target := by
  cases r with
  | view t => cases t <;> decide +kernel
  | _ => decide +kernel

/-- What is fixed for a group over UDP. -/
structure UdpGroup (X K : Type*) where
  /-- The nodes that follow the protocol. -/
  nodes : List Endpoint
  /-- The members, as a node knows them at the start. -/
  allEndpoints : Endpoint → List Endpoint
  /-- The program every executor runs. -/
  exe : IForConsensusExecutable X
  /-- The executor of each node at the start. -/
  exe₀ : Endpoint → X
  /-- OpenSSL. -/
  ssl : OpenSsl K
  /-- The message manager of each node. -/
  mgr : Endpoint → SslMsgMgr K
  /-- A node is at the endpoint of its message manager. -/
  myEndpoint_mgr : ∀ i ∈ nodes, (mgr i).myEndpoint ssl = i

/-- The nodes, with the history of what they have signed and counted. -/
structure UdpNetwork (X : Type*) where
  /-- The nodes. -/
  node : Endpoint → Member X
  /-- Every datagram that nodes have sent. -/
  sent : List Datagram := []
  /-- The laid-down messages that nodes have signed. -/
  laidDowns : List (Endpoint × LaidDownMsg) := []
  /-- The nodes that have signed a request to be added. -/
  requests : List Endpoint := []
  /-- The votes with which `handle_commit_for_sub` has been called. -/
  commits : List Packet := []

namespace UdpNetwork

/-- What can happen. -/
inductive Event
  /-- A client calls `handle_execute` at the node `dst`, giving `src` as its name. -/
  | client (dst src : Endpoint) (data : Cmd)
  /-- A datagram arrives at the node `dst`, from anywhere. -/
  | arrive (dst : Endpoint) (payload : Bytes)
  /-- The patience of a node runs out. -/
  | timeout (i : Endpoint)
  /-- A newcomer asks to be added. -/
  | pleaseAddMe (i : Endpoint)
  deriving DecidableEq

variable {X : Type*} (s : UdpNetwork X)

variable [Pb hiPb.LaidDownMsg]

/-- The node `i` has signed the data: it has sent them to somebody, or laid down with them, or they
are its request to be added. -/
def HasSigned (i : Endpoint) (data : Bytes) : Prop :=
  (∃ d ∈ s.sent, d.src = i ∧ d.data = data) ∨
    (∃ l ∈ s.laidDowns, l.1 = i ∧ l.2.toString = data) ∨
    (i ∈ s.requests ∧ data = ascii "Hi, please let me in.")

instance (i : Endpoint) (data : Bytes) : Decidable (s.HasSigned i data) :=
  inferInstanceAs (Decidable (_ ∨ _ ∨ _))

variable {s}

theorem HasSigned.mono {s' : UdpNetwork X} {i : Endpoint} {data : Bytes} (h : s.HasSigned i data)
    (hsent : s.sent ⊆ s'.sent) (hlaid : s.laidDowns ⊆ s'.laidDowns)
    (hreq : s.requests ⊆ s'.requests) : s'.HasSigned i data := by
  rcases h with ⟨d, hd, heq⟩ | ⟨l, hl, heq⟩ | ⟨hi, heq⟩
  · exact .inl ⟨d, hsent hd, heq⟩
  · exact .inr (.inl ⟨l, hlaid hl, heq⟩)
  · exact .inr (.inr ⟨hreq hi, heq⟩)

end UdpNetwork

/-- The data and the signature in a payload. -/
def signatureIn (payload : Bytes) : Option (Bytes × Bytes) :=
  match Udp.splitFirst payload with
  | none => none
  | some (_, msg) => (SignedData.parse3Strs msg).map fun r => (r.2.2, r.2.1)

/-- The key in an endpoint. -/
def keyIn (i : Endpoint) : Option Bytes := (SignedData.parse3Strs i).map fun r => r.1

namespace UdpGroup

variable {X K : Type*} (G : UdpGroup X K)

/-- The signatures of a node. -/
def sig (i : Endpoint) : IMsgManageable := (G.mgr i).msgManageable G.ssl

/-- What goes out of what the node `i` passes to `send`.  The message manager puts its own endpoint
into the messages. -/
def post (i : Endpoint) (ds : List Datagram) : List Datagram :=
  (ds.filter fun d => (Udp.send (G.sig i) d.dst d.route.target d.data).isSome).map
    fun d => { d with src := i }

/-- The group at the start. -/
def init : UdpNetwork X where
  node i := .start i (G.allEndpoints i) (G.exe₀ i)

variable [Pb hiPb.LaidDownMsg]

/-- The signature in the payload is not forged: if the key of an honest node verifies it, this node
has signed the data. -/
def Unforged (s : UdpNetwork X) (payload : Bytes) : Prop :=
  ∀ i ∈ G.nodes, ∀ pkPem ∈ keyIn i, ∀ p ∈ signatureIn payload,
    G.ssl.doVerify pkPem p.1 p.2 = true → s.HasSigned i p.1

instance (s : UdpNetwork X) (payload : Bytes) : Decidable (G.Unforged s payload) :=
  inferInstanceAs (Decidable (∀ i ∈ G.nodes, _))

/-- Which events may happen. -/
def Enabled (s : UdpNetwork X) : UdpNetwork.Event → Prop
  | .client dst _ _ => dst ∈ G.nodes
  | .arrive dst payload => dst ∈ G.nodes ∧ G.Unforged s payload
  | .timeout i => i ∈ G.nodes
  | .pleaseAddMe i => i ∈ G.nodes ∧ (s.node i).role = .newcomer

instance (s : UdpNetwork X) (l : UdpNetwork.Event) : Decidable (G.Enabled s l) :=
  match l with
  | .client dst _ _ => inferInstanceAs (Decidable (dst ∈ G.nodes))
  | .arrive _ _ => inferInstanceAs (Decidable (_ ∧ _))
  | .timeout i => inferInstanceAs (Decidable (i ∈ G.nodes))
  | .pleaseAddMe _ => inferInstanceAs (Decidable (_ ∧ _))

/-- The calls of `handle_commit_for_sub` that an input makes: subs listen to the target. -/
def commitsOf (s : UdpNetwork X) (i : Endpoint) : Member.Input → List Packet
  | .datagram src (.view .pleaseCommitThis) data =>
    if (s.node i).role = .sub then [⟨src, i, .pleaseCommitThis, data⟩] else []
  | _ => []

variable [Pb hiPb.NewViewCertificate]

/-- An input comes to the node `i`. -/
def step (s : UdpNetwork X) (i : Endpoint) (inp : Member.Input) : UdpNetwork X :=
  let o := (s.node i).handle (G.sig i) G.exe inp
  { node := Function.update s.node i o.member
    sent := s.sent ++ G.post i o.sent
    laidDowns :=
      if inp = .timeout ∧ (s.node i).role ≠ .newcomer then
        (i, (s.node i).layDown.laidDownMsg) :: s.laidDowns
      else s.laidDowns
    requests := s.requests
    commits := commitsOf s i inp ++ s.commits }

/-- A datagram arrives at the node `dst`. -/
def arrive (s : UdpNetwork X) (dst : Endpoint) (payload : Bytes) : UdpNetwork X :=
  match Udp.unpack (G.sig dst) payload with
  | none => s
  | some (target, src, data) =>
    match Route.ofTarget target with
    | none => s
    | some route => G.step s dst (.datagram src route data)

/-- The effect of an event. -/
def act (s : UdpNetwork X) : UdpNetwork.Event → UdpNetwork X
  | .client dst src data => G.step s dst (.client src data)
  | .arrive dst payload => G.arrive s dst payload
  | .timeout i => G.step s i .timeout
  | .pleaseAddMe i =>
    { s with
      sent := s.sent ++ G.post i ((s.node i).pleaseAddMe (G.sig i))
      requests := i :: s.requests }

/-- The group as a system. -/
def sys : Sys (UdpNetwork X) UdpNetwork.Event where
  init s := s = G.init
  enabled := G.Enabled
  act := G.act

instance (s : UdpNetwork X) (l : UdpNetwork.Event) : Decidable (G.sys.enabled s l) :=
  inferInstanceAs (Decidable (G.Enabled s l))

/-- **A datagram that arrives as it was sent** reaches the handler of its target, with its sender
and its data, if the receiver opens the messages of the sender. -/
theorem arrive_of_send {s : UdpNetwork X} {src dst : Endpoint} (hsrc : src ∈ G.nodes)
    (hopen : ∀ data, (G.sig dst).tearMsgOpen ((G.sig src).prepareMsg data) =
      some ((G.sig src).myEndpoint, data)) {route : Route} {data payload : Bytes}
    {addr : Bytes × UInt16}
    (h : Udp.send (G.sig src) dst route.target data = some (addr, payload)) :
    G.arrive s dst payload = G.step s dst (.datagram src route data) := by
  have hself : (G.sig src).myEndpoint = src := G.myEndpoint_mgr src hsrc
  have hunpack := Udp.unpack_of_send hopen (Route.notMem_target route) h
  rw [hself] at hunpack
  simp only [arrive, hunpack, Route.ofTarget_target]

/-! ### What a commit vote proves -/

/-- Every commit vote in the name of an honest node is for data that the node has signed. -/
def Accounted (s : UdpNetwork X) : Prop :=
  ∀ v ∈ s.commits, v.src ∈ G.nodes → s.HasSigned v.src v.data

variable {G}

theorem hasSigned_step {s : UdpNetwork X} {j : Endpoint} {data : Bytes} (h : s.HasSigned j data)
    (i : Endpoint) (inp : Member.Input) : (G.step s i inp).HasSigned j data := by
  refine h.mono (List.subset_append_left _ _) ?_ (List.Subset.refl _)
  change s.laidDowns ⊆ if _ then _ else _
  split_ifs with htime
  · exact List.subset_cons_self _ _
  · exact List.Subset.refl _

omit [Pb hiPb.LaidDownMsg] [Pb hiPb.NewViewCertificate] in
/-- What an input is counted as, if it is counted. -/
theorem eq_of_mem_commitsOf {s : UdpNetwork X} {i : Endpoint} {inp : Member.Input} {v : Packet}
    (h : v ∈ commitsOf s i inp) : inp = .datagram v.src (.view .pleaseCommitThis) v.data := by
  unfold commitsOf at h
  split at h
  · split_ifs at h with hrole
    · rw [List.mem_singleton.1 h]
    · exact absurd h List.not_mem_nil
  · exact absurd h List.not_mem_nil

/-- **An input keeps this**, if a commit vote that comes is for data that have been signed. -/
theorem Accounted.step {s : UdpNetwork X} (h : G.Accounted s) {i : Endpoint} {inp : Member.Input}
    (hinp : ∀ src route data, inp = .datagram src route data → src ∈ G.nodes →
      s.HasSigned src data) : G.Accounted (G.step s i inp) := by
  intro v hv hnode
  rcases List.mem_append.1 hv with hv | hv
  · exact hasSigned_step (hinp _ _ _ (eq_of_mem_commitsOf hv) hnode) i inp
  · exact hasSigned_step (h v hv hnode) i inp

omit [Pb hiPb.NewViewCertificate] in
/-- **The signature in a datagram**: what comes in the name of an honest node has been signed
by it. -/
theorem hasSigned_of_unpack {s : UdpNetwork X} {dst src : Endpoint} {payload target data : Bytes}
    (hforged : G.Unforged s payload)
    (h : Udp.unpack (G.sig dst) payload = some (target, src, data)) (hsrc : src ∈ G.nodes) :
    s.HasSigned src data := by
  obtain ⟨msg, hsplit, hopen⟩ := Udp.tearMsgOpen_of_unpack h
  obtain ⟨sig, pkPem, addrPort, cert, hmsg, hkey, -, hverify⟩ :=
    SslMsgMgr.doVerify_of_tearMsgOpen hopen
  have hkeyIn : pkPem ∈ keyIn src := by
    rw [keyIn, hkey]
    rfl
  have hsigIn : (data, sig) ∈ signatureIn payload := by
    simp only [signatureIn, hsplit, hmsg]
    rfl
  exact hforged src hsrc pkPem hkeyIn (data, sig) hsigIn hverify

theorem Accounted.arrive {s : UdpNetwork X} (h : G.Accounted s) {dst : Endpoint} {payload : Bytes}
    (hforged : G.Unforged s payload) : G.Accounted (G.arrive s dst payload) := by
  unfold UdpGroup.arrive
  split
  · exact h
  · next target src data hunpack =>
    split
    · exact h
    · next route hroute =>
      refine h.step ?_
      rintro _ _ _ ⟨rfl, rfl, rfl⟩ hsrc
      exact hasSigned_of_unpack hforged hunpack hsrc

/-- **What a commit vote proves.**  In every run of a group over UDP, whoever sends whatever again
under whatever target: when `handle_commit_for_sub` is called at an honest sub with the endpoint of
an honest node and some data, that node has itself signed these data.  It has sent them to somebody
(under some target), or they are the text of a laid-down message of it, or its request to be added.
-/
theorem hasSigned_of_commit {s : UdpNetwork X} (hs : G.sys.Reach s) {v : Packet}
    (hv : v ∈ s.commits) (hsrc : v.src ∈ G.nodes) : s.HasSigned v.src v.data := by
  have hacc : G.Accounted s := by
    refine hs.invariant ?_ ?_
    · rintro _ rfl v hv
      exact absurd hv List.not_mem_nil
    · intro s l _ h hl
      cases l with
      | client dst src data => exact h.step nofun
      | arrive dst payload => exact h.arrive hl.2
      | timeout i => exact h.step nofun
      | pleaseAddMe i =>
        intro v hv hnode
        exact (h v hv hnode).mono (List.subset_append_left _ _) (List.Subset.refl _)
          (List.subset_cons_self _ _)
  exact hacc v hv hsrc

/-- Nothing arrives but messages that nodes have sent, under any targets. -/
def Resends (G : UdpGroup X K) (s : UdpNetwork X) : UdpNetwork.Event → Prop
  | .arrive _ payload => ∃ d ∈ s.sent, 58 :: (G.sig d.src).prepareMsg d.data <:+ payload
  | _ => True

omit [Pb hiPb.LaidDownMsg] [Pb hiPb.NewViewCertificate] in
instance (s : UdpNetwork X) (l : UdpNetwork.Event) : Decidable (G.Resends s l) :=
  match l with
  | .arrive _ payload =>
    inferInstanceAs (Decidable (∃ d ∈ s.sent, 58 :: (G.sig d.src).prepareMsg d.data <:+ payload))
  | .client _ _ _ => isTrue trivial
  | .timeout _ => isTrue trivial
  | .pleaseAddMe _ => isTrue trivial

end UdpGroup

/-- Three nodes, that sign one command. -/
def sslUdpGroup (cmd : Cmd) : UdpGroup Unit Bytes where
  nodes := ["A", "B", "C"].map sslEndpoint
  allEndpoints _ := ["A", "B", "C"].map sslEndpoint
  exe := mockExecutable
  exe₀ _ := ()
  ssl := .ofSigned [(ascii "A", cmd), (ascii "B", cmd), (ascii "C", cmd)]
  mgr := sslMgr
  myEndpoint_mgr := by
    change ∀ i ∈ _, SignedData.serialize3Strs (ascii "public key of " ++ (sslMgr i).mySecretKey)
      (ascii "10.0.0.1:7777") [] = i
    decide +kernel

namespace UdpGroup

/-- The three rounds of a command, as far as the commit vote of `C` at `B`. -/
theorem hasSigned_of_commit_three :
    let _ : Pb hiPb.LaidDownMsg := Wire.pb hiPb.LaidDownMsg
    let _ : Pb hiPb.NewViewCertificate := Wire.pb hiPb.NewViewCertificate
    let G := sslUdpGroup (ascii "cmd")
    ∃ s, G.sys.Reach s ∧ ∃ v ∈ s.commits, v.dst = sslEndpoint "B" ∧ v.src = sslEndpoint "C" ∧
      s.HasSigned v.src v.data := by
  intro _ _ G
  let A := sslEndpoint "A"
  let B := sslEndpoint "B"
  let C := sslEndpoint "C"
  let payload (t : Target) (src : Endpoint) :=
    (Route.view t).target ++ 58 :: (G.sig src).prepareMsg (ascii "cmd")
  obtain ⟨s, hs, hv⟩ := Sys.exists_reach_of_exec (A := G.sys) (s := G.init)
    (P := fun s => (⟨C, B, .pleaseCommitThis, ascii "cmd"⟩ : Packet) ∈ s.commits) rfl
    [.client A (ascii "CLIENT") (ascii "cmd"),
      .arrive B (payload .pleaseExecuteThis A), .arrive C (payload .pleaseExecuteThis A),
      .arrive C (payload .pleaseConfirmThis B), .arrive B (payload .pleaseCommitThis C)]
    (by decide +kernel)
  exact ⟨s, hs, _, hv, rfl, rfl, hasSigned_of_commit hs hv (by decide +kernel)⟩

/-- `C` gets the order and confirms it, and somebody sends the confirmation to `B` once more, as a
commit: `B` counts it, and `C` has not sent a commit. -/
theorem not_sent_of_commit :
    let _ : Pb hiPb.LaidDownMsg := Wire.pb hiPb.LaidDownMsg
    let _ : Pb hiPb.NewViewCertificate := Wire.pb hiPb.NewViewCertificate
    let G := sslUdpGroup (ascii "cmd")
    ¬∀ s, (G.sys.only G.Resends).Reach s → ∀ v ∈ s.commits, v.src ∈ G.nodes →
      ∃ d ∈ s.sent, d.src = v.src ∧ d.route = .view .pleaseCommitThis ∧ d.data = v.data := by
  intro _ _ G hall
  let A := sslEndpoint "A"
  let B := sslEndpoint "B"
  let C := sslEndpoint "C"
  let payload (t : Target) (src : Endpoint) :=
    (Route.view t).target ++ 58 :: (G.sig src).prepareMsg (ascii "cmd")
  obtain ⟨s, hs, hv, hnone⟩ := Sys.exists_reach_of_exec (A := G.sys.only G.Resends) (s := G.init)
    (P := fun s => (⟨C, B, .pleaseCommitThis, ascii "cmd"⟩ : Packet) ∈ s.commits ∧
      ¬∃ d ∈ s.sent, d.src = C ∧ d.route = .view .pleaseCommitThis ∧ d.data = ascii "cmd") rfl
    [.client A (ascii "CLIENT") (ascii "cmd"), .arrive C (payload .pleaseExecuteThis A),
      .arrive B (payload .pleaseCommitThis C)] (by decide +kernel)
  exact hnone (hall s hs _ hv (by decide +kernel))

end UdpGroup

end Rbft

end WeakChain
