import WeakChain.Net.Sender
import WeakChain.Rbft.Certificate
import WeakChain.Rbft.Membership

/-!
# What a newcomer takes over

A newcomer gets the certificate of the new view together with the command history (`cmds`).  The
messages of the certificate are signed, the commands are not, and the states in the messages are
only compared with each other ("it won't check the state"): the commands are those of the sender,
and the signatures say nothing about them.

`history_of_synced` says what there is: `N - f` endpoints have signed laid-down messages with one
state, the newcomer executes and takes over exactly the commands of the message, and if an honest
primary has sent it, they are the history with which that primary entered the view.
-/

namespace WeakChain

namespace Rbft

/-! ### What a new primary sends to newcomers -/

namespace Member

variable {X : Type*} {S : IMsgManageable} {E : IForConsensusExecutable X} {m : Member X}

variable [Pb hiPb.NewViewCertificate]

/-- Everything that is sent to newcomers comes from a node that has just entered a view, with its
command history. -/
def Offers (self : Endpoint) (o : Outcome X) : Prop :=
  ∀ d ∈ o.sent, d.route = .iamThePrimaryForNewcomer →
    o.entered = true ∧ d.src = self ∧
      ∃ c : NewViewCertificate, d.data = c.toString ∧ c.cmds = o.member.commandHistory

theorem offers_of_route {self : Endpoint} {o : Outcome X}
    (h : ∀ d ∈ o.sent, d.route ≠ .iamThePrimaryForNewcomer) : Offers self o :=
  fun d hd hroute => absurd hroute (h d hd)

theorem offers_tryToBePrimary (e : ℤ) (state : Bytes) (myList : List Bytes) :
    Offers m.listenedEndpoint (m.tryToBePrimary S e state myList) := by
  have hothers : ∀ data, ∀ d ∈ m.boardcastToOthers .iamThePrimary data,
      d.route ≠ .iamThePrimaryForNewcomer := by
    intro data d hd
    obtain ⟨node, -, rfl⟩ := List.mem_map.1 hd
    exact Route.noConfusion
  unfold tryToBePrimary
  split_ifs with hself hstate
  · exact offers_of_route nofun
  · exact offers_of_route nofun
  · dsimp only
    split_ifs with hempty
    · exact offers_of_route (hothers _)
    · intro d hd hroute
      rcases List.mem_append.1 hd with hd | hd
      · exact absurd hroute (hothers _ d hd)
      · obtain ⟨newcomer, -, rfl⟩ := List.mem_map.1 hd
        exact ⟨rfl, rfl, _, rfl, rfl⟩

theorem offers_remember (msg : LaidDownMsg) (data : Bytes) :
    Offers m.listenedEndpoint (m.rememberThisLaiddownAndBePrimaryMaybe S msg data) := by
  unfold rememberThisLaiddownAndBePrimaryMaybe
  dsimp only
  split_ifs with hold hlen
  · exact offers_of_route nofun
  · exact offers_tryToBePrimary _ _ _
  · exact offers_of_route nofun

variable [Pb hiPb.LaidDownMsg]

theorem offers_handleLaidDown (src : Endpoint) (data : Bytes) :
    Offers m.listenedEndpoint (m.handleLaidDown S src data) := by
  unfold handleLaidDown
  split
  · exact offers_of_route nofun
  · split_ifs with hepoch hself
    · exact offers_of_route nofun
    · exact offers_of_route nofun
    · exact offers_remember _ _

theorem offers_triggerViewChange : Offers m.listenedEndpoint (m.triggerViewChange S) := by
  unfold triggerViewChange
  dsimp only
  split_ifs with hself
  · exact offers_remember (m := m.layDown) _ _
  · refine offers_of_route ?_
    intro d hd
    rw [List.mem_singleton.1 hd]
    exact Route.noConfusion

omit [Pb hiPb.LaidDownMsg] in
theorem offers_withView (o : Out X) : Offers m.listenedEndpoint (m.withView o) := by
  refine offers_of_route ?_
  intro d hd
  obtain ⟨p, -, rfl⟩ := List.mem_map.1 hd
  exact Route.noConfusion

theorem offers_handleNewPrimary (src : Endpoint) (data : Bytes) :
    Offers m.listenedEndpoint (m.handleNewPrimary S src data) := by
  refine offers_of_route ?_
  unfold handleNewPrimary
  split
  · exact nofun
  · dsimp only
    split_ifs <;> exact nofun

theorem offers_handleNewPrimaryForNewcomer (src : Endpoint) (data : Bytes) :
    Offers m.listenedEndpoint (m.handleNewPrimaryForNewcomer S E src data) := by
  refine offers_of_route ?_
  unfold handleNewPrimaryForNewcomer settle
  split
  · exact nofun
  · split_ifs <;> exact nofun

/-- **What a node sends to newcomers** is its own history. -/
theorem offers_handle (i : Input) : Offers m.listenedEndpoint (m.handle S E i) := by
  cases i with
  | client src data => exact offers_withView _
  | timeout =>
    change Offers _ (if m.role = .newcomer then { member := m } else m.triggerViewChange S)
    split_ifs with hrole
    · exact offers_of_route nofun
    · exact offers_triggerViewChange
  | datagram src route data =>
    change Offers _ (m.receive S E src route data)
    by_cases hrole : m.role = .newcomer
    · rw [receive_of_newcomer src route data hrole]
      cases route with
      | iamThePrimaryForNewcomer => exact offers_handleNewPrimaryForNewcomer src data
      | _ => exact offers_of_route nofun
    · rw [receive_of_member src route data hrole]
      cases route with
      | iLaidDown => exact offers_handleLaidDown src data
      | iamThePrimary => exact offers_handleNewPrimary src data
      | view t => exact offers_withView _
      | _ => exact offers_of_route nofun

end Member

/-! ### What the newcomer takes over -/

/-- Protobuf reads back the commands of a certificate. -/
theorem NewViewCertificate.cmds_of_fromString [Pb hiPb.NewViewCertificate]
    (hpb : Pb.ReadsBack hiPb.NewViewCertificate) {m c : NewViewCertificate}
    (h : fromString m.toString = some c) : c.cmds = m.cmds := by
  rw [fromString, toString, hpb] at h
  obtain rfl := Option.some.inj h
  rfl

namespace Member

variable {X : Type*} {S : IMsgManageable} {E : IForConsensusExecutable X} {m : Member X}

variable [Pb hiPb.NewViewCertificate] [Pb hiPb.LaidDownMsg]

/-- A newcomer that joins has accepted a certificate, and has executed the commands that came with
it. -/
theorem history_of_joined {src : Endpoint} {data : Bytes} (hrole : m.role = .newcomer)
    (h : (m.handle S E (.datagram src .iamThePrimaryForNewcomer data)).entered = true) :
    ∃ c, NewViewCertificate.fromString data = some c ∧
      m.checkCert S c.newViewCertificate c.epoch true = true ∧
      (m.handle S E (.datagram src .iamThePrimaryForNewcomer data)).member.exe =
        (E.executeAll m.exe c.cmds).1 ∧
      (m.handle S E (.datagram src .iamThePrimaryForNewcomer data)).member.commandHistory =
        (E.executeAll m.exe c.cmds).2 := by
  have heq : m.handle S E (.datagram src .iamThePrimaryForNewcomer data) =
      m.handleNewPrimaryForNewcomer S E src data :=
    receive_of_newcomer src .iamThePrimaryForNewcomer data hrole
  rw [heq] at h ⊢
  rw [handleNewPrimaryForNewcomer_eq src data hrole] at h ⊢
  cases hacc : m.accepted S (.datagram src .iamThePrimaryForNewcomer data) with
  | none =>
    rw [hacc] at h
    cases h
  | some c =>
    rw [hacc] at h
    obtain ⟨hparse, hcheck⟩ := Option.filter_eq_some_iff.1 hacc
    refine ⟨c, hparse, (of_decide_eq_true hcheck).2, ?_⟩
    dsimp only at h ⊢
    unfold settle at h ⊢
    split_ifs at h ⊢ with hself
    dsimp only
    rw [startListeningAsSub_eq]
    exact ⟨rfl, rfl⟩

end Member

/-- All messages of a list have the state of the first one, and all others are for the epoch. -/
def OneState [Pb hiPb.LaidDownMsg] (S : IMsgManageable) (l : List Bytes) (e : ℤ) : Prop :=
  ∃ s l' host msg, l = s :: l' ∧ openLaidDown S s = some (host, msg) ∧
    ∀ s' ∈ l', IsLaidDown S msg.state e s'

namespace Group

variable {X : Type*} {G : Group X} [Pb hiPb.NewViewCertificate] [Pb hiPb.LaidDownMsg]

variable (G) in
/-- What honest nodes have sent to newcomers is the history with which they have entered a view. -/
structure Offered (s : Network X) : Prop where
  name : ∀ i, (s.node i).listenedEndpoint = i
  offer : ∀ d ∈ s.sent, d.route = .iamThePrimaryForNewcomer → G.Honest d.src →
    ∃ c : NewViewCertificate, d.data = c.toString ∧
      ∃ e ∈ s.entries, e.host = d.src ∧ e.history = c.cmds

/-- **An input to a node** keeps this: the node enters the view in the step in which it sends. -/
theorem Offered.step {s : Network X} (h : G.Offered s) (i : Endpoint) (inp : Member.Input) :
    G.Offered (G.step s i inp) := by
  have hdoes : (s.node i).Does (G.sig i) G.exe inp (G.outcome s i inp) := Member.does_handle inp
  have hoffers : Member.Offers (s.node i).listenedEndpoint (G.outcome s i inp) :=
    Member.offers_handle inp
  -- nothing is taken back
  have hentries : s.entries ⊆ (G.step s i inp).entries := by
    change s.entries ⊆ if _ then _ else _
    split_ifs with hentered
    · exact List.subset_cons_self _ _
    · exact List.Subset.refl _
  refine ⟨?_, ?_⟩
  · intro j
    by_cases hj : j = i
    · subst hj
      rw [Group.step, node_apply_self]
      exact (Member.endpoints_of_does hdoes).1.trans (h.name j)
    · rw [Group.step, node_apply_of_ne inp _ hj]
      exact h.name j
  · intro d hd hroute hhonest
    rcases List.mem_append.1 hd with hd | hd
    · obtain ⟨c, hc, e, he, hhost⟩ := h.offer d hd hroute hhonest
      exact ⟨c, hc, e, hentries he, hhost⟩
    · obtain ⟨hentered, hsrc, c, hc, hcmds⟩ := hoffers d hd hroute
      refine ⟨c, hc, ⟨i, (G.outcome s i inp).member.epoch,
        (G.outcome s i inp).member.commandHistory⟩, ?_, ?_, hcmds.symm⟩
      · change _ ∈ if (G.outcome s i inp).entered then _ else _
        rw [if_pos hentered]
        exact List.mem_cons_self
      · rw [hsrc]
        exact (h.name i).symm

omit [Pb hiPb.LaidDownMsg] in
/-- Other datagrams change nothing. -/
theorem Offered.send {s : Network X} (h : G.Offered s) {ds : List Datagram}
    (hds : ∀ d ∈ ds, d.route = .iamThePrimaryForNewcomer → ¬G.Honest d.src) :
    G.Offered { s with sent := s.sent ++ ds } := by
  refine ⟨h.name, ?_⟩
  intro d hd hroute hhonest
  rcases List.mem_append.1 hd with hd | hd
  · exact h.offer d hd hroute hhonest
  · exact absurd hhonest (hds d hd hroute)

theorem offered_of_reach {s : Network X} (h : G.sys.Reach s) : G.Offered s := by
  refine h.invariant (I := G.Offered) ?_ ?_
  · rintro s rfl
    exact ⟨fun _ => rfl, nofun⟩
  · intro s l _ hs hl
    cases l with
    | client dst src data => exact hs.step dst _
    | deliver d => exact hs.step d.dst _
    | timeout i => exact hs.step i _
    | inject d =>
      refine hs.send ?_
      intro d' hd' _ hhonest
      rw [List.mem_singleton.1 hd'] at hhonest
      exact hhonest hl
    | pleaseAddMe i =>
      refine hs.send ?_
      intro d hd hroute
      obtain ⟨node, -, rfl⟩ := List.mem_map.1 hd
      cases hroute

/-- **What a newcomer takes over.**  In every run of a group, under any loss, delay, repetition and
reordering and with any faulty nodes, whenever a newcomer accepts an `/IamThePrimaryForNewcomer`: at
least `N() - f()` different endpoints have signed laid-down messages of the certificate, all with
one state and all but the first for its epoch; the newcomer executes the commands of the message and
takes them over as its executor leaves them; and if the sender is honest, these commands are the
history with which it has entered a view. -/
theorem history_of_synced {K : Type*} {O : OpenSsl K} {M : Endpoint → SslMsgMgr K}
    {Signed : Bytes → Bytes → Prop} (hO : Unforgeable O Signed)
    (hsig : ∀ i, G.sig i = (M i).msgManageable O) (hpb : Pb.ReadsBack hiPb.NewViewCertificate)
    {s : Network X} (hs : G.sys.Reach s) {d : Datagram} (hd : d ∈ s.sent)
    (hroute : d.route = .iamThePrimaryForNewcomer) (hrole : (s.node d.dst).role = .newcomer)
    (hentered : (G.outcome s d.dst (.datagram d.src d.route d.data)).entered = true) :
    ∃ c, NewViewCertificate.fromString d.data = some c ∧
      (∃ hosts : Finset Endpoint, (s.node d.dst).needed ≤ hosts.card ∧
        ∀ host ∈ hosts, HasLaidDown Signed c.newViewCertificate host) ∧
      OneState (G.sig d.dst) c.newViewCertificate c.epoch ∧
      (G.outcome s d.dst (.datagram d.src d.route d.data)).member.exe =
        (G.exe.executeAll (s.node d.dst).exe c.cmds).1 ∧
      (G.outcome s d.dst (.datagram d.src d.route d.data)).member.commandHistory =
        (G.exe.executeAll (s.node d.dst).exe c.cmds).2 ∧
      (G.Honest d.src → ∃ e ∈ s.entries, e.host = d.src ∧ e.history = c.cmds) := by
  obtain ⟨src, dst, route, data⟩ := d
  obtain rfl : route = .iamThePrimaryForNewcomer := hroute
  obtain ⟨c, hparse, hcheck, hexe, hhistory⟩ := Member.history_of_joined hrole hentered
  refine ⟨c, hparse, ?_, ?_, hexe, hhistory, ?_⟩
  · obtain ⟨-, -, -, -, -, -, -, -, hcard⟩ := Member.checkCert_eq_true.1 hcheck
    refine ⟨_, hcard, ?_⟩
    intro host hhost
    rw [hsig, List.mem_toFinset] at hhost
    exact hasLaidDown_of_mem_signers hO hhost
  · obtain ⟨s₀, l, host, msg, hl, hopen, -, hall, -⟩ := Member.checkCert_eq_true.1 hcheck
    exact ⟨s₀, l, host, msg, hl, hopen, hall⟩
  · intro hhonest
    obtain ⟨c', hdata, e, he, hhost, hcmds⟩ := (offered_of_reach hs).offer _ hd rfl hhonest
    change data = c'.toString at hdata
    rw [hdata] at hparse
    exact ⟨e, he, hhost, hcmds.trans (NewViewCertificate.cmds_of_fromString hpb hparse).symm⟩

end Group

/-! ### Groups that sign -/

/-- A group whose nodes sign their messages. -/
def sslGroup (O : OpenSsl Bytes) (members : List Endpoint) (faulty : Finset Endpoint) :
    Group Unit where
  members := members
  listFor _ := members
  notMem_listFor _ h := h
  faulty := faulty
  exe := mockExecutable
  exe₀ _ := ()
  sig i := (sslMgr i).msgManageable O

namespace Group

/-- `E` joins a group of two after a command, and takes over the history of the new primary. -/
theorem history_of_synced_two :
    let _ : Pb hiPb.LaidDownMsg := Wire.pb hiPb.LaidDownMsg
    let _ : Pb hiPb.NewViewCertificate := Wire.pb hiPb.NewViewCertificate
    let laidDown := LaidDownMsg.toString
      ⟨ascii "Dear " ++ sslEndpoint "B" ++ ascii ", I laid down for U.", 1, ascii "<mocked-state>"⟩
    let addMe := ascii "Hi, please let me in."
    let O := OpenSsl.ofSigned
      [(ascii "A", laidDown), (ascii "B", laidDown), (ascii "E", addMe)]
    let G := sslGroup O [sslEndpoint "A", sslEndpoint "B"] ∅
    ∃ s, G.sys.Reach s ∧ ∃ d ∈ s.sent, d.route = .iamThePrimaryForNewcomer ∧
      (s.node d.dst).role = .newcomer ∧
      (G.outcome s d.dst (.datagram d.src d.route d.data)).member.commandHistory = [ascii "cmd"] ∧
      ∃ c, NewViewCertificate.fromString d.data = some c ∧
        ∃ e ∈ s.entries, e.host = d.src ∧ e.history = c.cmds := by
  intro _ _ laidDown addMe O G
  let A := sslEndpoint "A"
  let B := sslEndpoint "B"
  let E := sslEndpoint "E"
  let sign (i : Endpoint) (data : Bytes) := (sslMgr i).prepareMsg O data
  obtain ⟨s, hs, d, hd, hroute, hrole, hentered, hhonest, hhistory⟩ := Sys.exists_reach_of_exec
    (A := G.sys) (s := G.init)
    (P := fun s => ∃ d ∈ s.sent, d.route = .iamThePrimaryForNewcomer ∧
      (s.node d.dst).role = .newcomer ∧
      (G.outcome s d.dst (.datagram d.src d.route d.data)).entered = true ∧ G.Honest d.src ∧
      (G.outcome s d.dst (.datagram d.src d.route d.data)).member.commandHistory = [ascii "cmd"])
    rfl
    [.client A (ascii "CLIENT") (ascii "cmd"),
      .deliver ⟨A, B, .view .pleaseExecuteThis, ascii "cmd"⟩,
      .pleaseAddMe E, .deliver ⟨E, B, .pleaseAddMeNoBoardcast, sign E addMe⟩,
      .timeout A, .deliver ⟨A, B, .iLaidDown, sign A laidDown⟩, .timeout B] (by decide +kernel)
  have hO : Unforgeable O fun pkPem data =>
      (pkPem, data) ∈ [(ascii "A", laidDown), (ascii "B", laidDown), (ascii "E", addMe)].map
        fun p => (O.publicPem p.1, p.2) := OpenSsl.signed_of_doVerify
  obtain ⟨c, hparse, -, -, -, -, hcmds⟩ := history_of_synced hO (fun _ => rfl)
    (Wire.readsBack hiPb.NewViewCertificate) hs hd hroute hrole hentered
  exact ⟨s, hs, d, hd, hroute, hrole, hhistory, c, hparse, hcmds hhonest⟩

/-- In a group of four `B` is faulty.  The others lay down with empty histories, and `B` sends their
messages to the newcomer `E` with a command that nobody has executed: `E` takes it over. -/
theorem not_history_of_signers :
    let _ : Pb hiPb.LaidDownMsg := Wire.pb hiPb.LaidDownMsg
    let _ : Pb hiPb.NewViewCertificate := Wire.pb hiPb.NewViewCertificate
    let laidDown := LaidDownMsg.toString
      ⟨ascii "Dear " ++ sslEndpoint "B" ++ ascii ", I laid down for U.", 1, ascii "<mocked-state>"⟩
    let addMe := ascii "Hi, please let me in."
    let signed := [(ascii "A", laidDown), (ascii "C", laidDown), (ascii "D", laidDown),
      (ascii "E", addMe)]
    let O := OpenSsl.ofSigned signed
    let G := sslGroup O (["A", "B", "C", "D"].map sslEndpoint) {sslEndpoint "B"}
    (Unforgeable O fun pkPem data => (pkPem, data) ∈ signed.map fun p => (O.publicPem p.1, p.2)) ∧
      G.faulty.card ≤ (G.members.length - 1) / 3 ∧
      ¬∀ s, G.sys.Reach s → ∀ d ∈ s.sent, d.route = .iamThePrimaryForNewcomer →
        (s.node d.dst).role = .newcomer →
        (G.outcome s d.dst (.datagram d.src d.route d.data)).entered = true →
        ∀ c, NewViewCertificate.fromString d.data = some c →
          ∀ host ∈ signers (G.sig d.dst) c.newViewCertificate,
            ∀ l ∈ s.laidDowns, l.host = host → l.epoch = c.epoch →
              (G.outcome s d.dst (.datagram d.src d.route d.data)).member.commandHistory =
                l.history := by
  intro _ _ laidDown addMe signed O G
  let A := sslEndpoint "A"
  let B := sslEndpoint "B"
  let C := sslEndpoint "C"
  let D := sslEndpoint "D"
  let E := sslEndpoint "E"
  let sign (i : Endpoint) (data : Bytes) := (sslMgr i).prepareMsg O data
  let cert : NewViewCertificate :=
    ⟨ascii "Hi, I am the primary now", 1, [sign A laidDown, sign C laidDown, sign D laidDown],
      [sign E addMe], [ascii "forged"]⟩
  let d : Datagram := ⟨B, E, .iamThePrimaryForNewcomer, cert.toString⟩
  refine ⟨OpenSsl.signed_of_doVerify, by decide +kernel, ?_⟩
  intro hall
  obtain ⟨s, hs, hd, hrole, hentered, hlaid, hhistory⟩ := Sys.exists_reach_of_exec
    (A := G.sys) (s := G.init)
    (P := fun s => d ∈ s.sent ∧ (s.node d.dst).role = .newcomer ∧
      (G.outcome s d.dst (.datagram d.src d.route d.data)).entered = true ∧
      (⟨A, 1, []⟩ : LaidDown) ∈ s.laidDowns ∧
      (G.outcome s d.dst (.datagram d.src d.route d.data)).member.commandHistory =
        [ascii "forged"]) rfl
    [.pleaseAddMe E, .timeout A, .timeout C, .timeout D, .inject d] (by decide +kernel)
  have hparse : NewViewCertificate.fromString d.data = some cert := by decide +kernel
  have hsigner : A ∈ signers (G.sig d.dst) cert.newViewCertificate := by decide +kernel
  have hsame := hall s hs d hd rfl hrole hentered cert hparse A hsigner _ hlaid rfl rfl
  rw [hhistory] at hsame
  cases hsame

end Group

end Rbft

end WeakChain
