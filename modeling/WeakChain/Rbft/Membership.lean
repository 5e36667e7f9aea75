import WeakChain.Rbft.Epoch

/-!
# The list of members

Newcomers are appended to `all_endpoints` in three places.  `handle_new_primary` refuses a
certificate with a newcomer that is a member already; `try_to_be_primary` and
`handle_new_primary_for_newcomer` append whatever they have.  The signatures of the nodes that want
to join are remembered as they come, so a message that is repeated, or signed by a member, brings an
endpoint into the list a second time.

`allEndpoints_handle` says what an input appends, and `nodup_allEndpoints` that the list has no
duplicates as long as nothing is appended that is in it already.
-/

namespace WeakChain

namespace Rbft

/-! ### A `set` of strings -/

theorem mem_insertStr {a b : Bytes} {l : List Bytes} : b ∈ insertStr a l ↔ b = a ∨ b ∈ l := by
  induction l with
  | nil => simp [insertStr]
  | cons c l ih =>
    rw [insertStr]
    split_ifs with heq hlt
    · subst heq
      simp
    · simp
    · rw [List.mem_cons, ih, List.mem_cons]
      tauto

/-- The strings of a `set` are in order. -/
theorem pairwise_insertStr {a : Bytes} {l : List Bytes} (h : l.Pairwise (· < ·)) :
    (insertStr a l).Pairwise (· < ·) := by
  induction l with
  | nil => exact List.pairwise_singleton _ _
  | cons b l ih =>
    obtain ⟨hb, hl⟩ := List.pairwise_cons.1 h
    rw [insertStr]
    split_ifs with heq hlt
    · exact h
    · refine List.pairwise_cons.2 ⟨?_, h⟩
      intro c hc
      rcases List.mem_cons.1 hc with rfl | hc
      · exact hlt
      · exact List.lt_trans hlt (hb c hc)
    · refine List.pairwise_cons.2 ⟨?_, ih hl⟩
      intro c hc
      rcases mem_insertStr.1 hc with rfl | hc
      · exact Std.lt_of_le_of_ne hlt (Ne.symm heq)
      · exact hb c hc

/-- `get_newcommers` returns nobody twice. -/
theorem nodup_getNewcommers (S : IMsgManageable) (sigs : List Bytes) :
    (getNewcommers S sigs).Nodup := by
  -- the loop keeps the order of the set
  have hloop : (getNewcommers S sigs).Pairwise (· < ·) := by
    refine List.foldlRecOn sigs _ List.Pairwise.nil fun o ho sig _ => ?_
    cases S.tearMsgOpen sig with
    | none => exact ho
    | some r => exact pairwise_insertStr ho
  refine hloop.imp ?_
  rintro a b hlt rfl
  exact List.lt_irrefl a hlt

namespace Member

variable {X : Type*} {S : IMsgManageable} {E : IForConsensusExecutable X} {m : Member X}

variable [Pb hiPb.LaidDownMsg] [Pb hiPb.NewViewCertificate]

/-! ### What is appended -/

/-- The certificate that an input brings, if the node accepts it. -/
def accepted (S : IMsgManageable) (m : Member X) : Input → Option NewViewCertificate
  | .datagram _ .iamThePrimary data =>
    (NewViewCertificate.fromString data).filter fun o =>
      m.role ≠ .newcomer ∧ (∀ n ∈ getNewcommers S o.sigOfNodesToBeAdded, n ∉ m.allEndpoints) ∧
        m.epoch ≤ o.epoch ∧ m.checkCert S o.newViewCertificate o.epoch false
  | .datagram _ .iamThePrimaryForNewcomer data =>
    (NewViewCertificate.fromString data).filter fun d =>
      m.role = .newcomer ∧ m.checkCert S d.newViewCertificate d.epoch true
  | _ => none

/-- The endpoints that an input appends to the list of members. -/
def appended (S : IMsgManageable) (m : Member X) (i : Input) : List Endpoint :=
  if m.Leads S i then getNewcommers S m.sigOfNodesToBeAdded
  else
    match m.accepted S i with
    | none => []
    | some c => getNewcommers S c.sigOfNodesToBeAdded

omit [Pb hiPb.LaidDownMsg] in
theorem allEndpoints_tryToBePrimary (e : ℤ) (state : Bytes) (myList : List Bytes) :
    (m.tryToBePrimary S e state myList).member.allEndpoints =
      m.allEndpoints ++
        if m.memberAt e = m.listenedEndpoint ∧ m.getState = state then
          getNewcommers S m.sigOfNodesToBeAdded
        else [] := by
  unfold tryToBePrimary
  by_cases hself : m.memberAt e = m.listenedEndpoint
  · by_cases hstate : m.getState = state
    · have hboth : m.memberAt e = m.listenedEndpoint ∧ m.getState = state := ⟨hself, hstate⟩
      rw [if_neg (not_not.2 hself), if_neg (not_not.2 hstate), if_pos hboth]
      dsimp only
      split_ifs with hempty
      · rw [List.isEmpty_iff.1 hempty, List.append_nil]
        rfl
      · rfl
    · rw [if_neg (not_not.2 hself), if_pos hstate, if_neg (fun h => hstate h.2), List.append_nil]
  · rw [if_pos hself, if_neg (fun h => hself h.1), List.append_nil]

omit [Pb hiPb.LaidDownMsg] in
/-- A laid-down message is remembered, and may be the last one that the node needs. -/
theorem allEndpoints_remember (msg : LaidDownMsg) (data : Bytes) :
    (m.rememberThisLaiddownAndBePrimaryMaybe S msg data).member.allEndpoints =
      m.allEndpoints ++
        if data ∉ m.laidDownHistory msg.epoch msg.state ∧
            m.needed ≤ (m.extendedList msg data).length ∧
            m.memberAt msg.epoch = m.listenedEndpoint ∧ m.getState = msg.state then
          getNewcommers S m.sigOfNodesToBeAdded
        else [] := by
  unfold rememberThisLaiddownAndBePrimaryMaybe
  dsimp only
  change (if data ∈ m.laidDownHistory msg.epoch msg.state then { member := m }
    else if m.needed ≤ (m.extendedList msg data).length then
      (m.remember msg data).tryToBePrimary S msg.epoch msg.state (m.extendedList msg data)
    else ({ member := m.remember msg data } : Outcome X)).member.allEndpoints = _
  by_cases hold : data ∈ m.laidDownHistory msg.epoch msg.state
  · rw [if_pos hold, if_neg (fun h => h.1 hold), List.append_nil]
  · by_cases hlen : m.needed ≤ (m.extendedList msg data).length
    · rw [if_neg hold, if_pos hlen, allEndpoints_tryToBePrimary]
      simp only [hold, hlen, not_false_eq_true, true_and]
      rfl
    · rw [if_neg hold, if_neg hlen, if_neg (fun h => hlen h.2.1), List.append_nil]
      rfl

theorem allEndpoints_handleLaidDown (src : Endpoint) (data : Bytes) (hrole : m.role ≠ .newcomer) :
    (m.handleLaidDown S src data).member.allEndpoints =
      m.allEndpoints ++ m.appended S (.datagram src .iLaidDown data) := by
  unfold handleLaidDown appended Leads
  cases hopen : openLaidDown S data with
  | none => simp [collected, hopen, accepted]
  | some r =>
    obtain ⟨host, msg⟩ := r
    by_cases hepoch : msg.epoch < m.epoch
    · simp [collected, hopen, accepted, hepoch]
    · by_cases hself : m.memberAt msg.epoch = m.listenedEndpoint
      · simp [collected, hopen, accepted, hepoch, hself, hrole, allEndpoints_remember]
      · simp [collected, hopen, accepted, hepoch, hself, hrole]

theorem allEndpoints_triggerViewChange (hrole : m.role ≠ .newcomer) :
    (m.triggerViewChange S).member.allEndpoints = m.allEndpoints ++ m.appended S .timeout := by
  let data := S.prepareMsg m.layDown.laidDownMsg.toString
  have happ : m.appended S .timeout =
      if data ∉ m.laidDownHistory m.layDown.laidDownMsg.epoch m.layDown.laidDownMsg.state ∧
          m.needed ≤ (m.extendedList m.layDown.laidDownMsg data).length ∧
          m.memberAt m.layDown.laidDownMsg.epoch = m.listenedEndpoint ∧
          m.getState = m.layDown.laidDownMsg.state then
        getNewcommers S m.sigOfNodesToBeAdded
      else [] := by
    simp [appended, Leads, collected, accepted, hrole, data]
  unfold triggerViewChange
  dsimp only
  by_cases hself : m.layDown.primary = m.layDown.listenedEndpoint
  · rw [if_pos hself, allEndpoints_remember, happ]
    rfl
  · -- the place of the epoch is that of the primary
    have hat : m.memberAt m.layDown.laidDownMsg.epoch ≠ m.listenedEndpoint := hself
    rw [if_neg hself, happ, if_neg (fun h => hat h.2.2.1), List.append_nil]
    rfl

/-- A member that accepts a certificate follows the new primary. -/
theorem handleNewPrimary_eq (src : Endpoint) (data : Bytes) (hrole : m.role ≠ .newcomer) :
    m.handleNewPrimary S src data =
      match m.accepted S (.datagram src .iamThePrimary data) with
      | none => { member := m }
      | some o =>
        { member := m.follow o.epoch (getNewcommers S o.sigOfNodesToBeAdded)
          entered := true } := by
  simp only [handleNewPrimary, accepted]
  cases hparse : NewViewCertificate.fromString data with
  | none => rfl
  | some o =>
    by_cases hnew : ∀ n ∈ getNewcommers S o.sigOfNodesToBeAdded, n ∉ m.allEndpoints
    · have hold : (getNewcommers S o.sigOfNodesToBeAdded).any (· ∈ m.allEndpoints) = false := by
        simpa using hnew
      by_cases hepoch : m.epoch ≤ o.epoch
      · cases hcert : m.checkCert S o.newViewCertificate o.epoch false with
        | true =>
          have haccept : decide (m.role ≠ .newcomer ∧
              (∀ n ∈ getNewcommers S o.sigOfNodesToBeAdded, n ∉ m.allEndpoints) ∧
              m.epoch ≤ o.epoch ∧ m.checkCert S o.newViewCertificate o.epoch false = true) = true :=
            decide_eq_true ⟨hrole, hnew, hepoch, hcert⟩
          simp only [Option.filter_some, haccept, if_true]
          rw [if_neg (by simp [hold]), if_neg (not_lt.2 hepoch), if_neg (by simp [hcert])]
        | false => simp [Option.filter, hcert]
      · simp [Option.filter, hepoch, not_le.1 hepoch]
    · have hold : (getNewcommers S o.sigOfNodesToBeAdded).any (· ∈ m.allEndpoints) = true := by
        simpa using hnew
      simp [Option.filter, hnew, hold]

/-- A newcomer that accepts a certificate takes over the epoch and the members, and joins if it is
one of them. -/
theorem handleNewPrimaryForNewcomer_eq (src : Endpoint) (data : Bytes)
    (hrole : m.role = .newcomer) :
    m.handleNewPrimaryForNewcomer S E src data =
      match m.accepted S (.datagram src .iamThePrimaryForNewcomer data) with
      | none => { member := m }
      | some d => (m.enroll d.epoch (getNewcommers S d.sigOfNodesToBeAdded)).settle E d.cmds := by
  simp only [handleNewPrimaryForNewcomer, accepted]
  cases hparse : NewViewCertificate.fromString data with
  | none => rfl
  | some d =>
    cases hcert : m.checkCert S d.newViewCertificate d.epoch true with
    | true => simp [Option.filter, hcert, hrole]
    | false => simp [Option.filter, hcert]

theorem allEndpoints_handleNewPrimary (src : Endpoint) (data : Bytes) (hrole : m.role ≠ .newcomer) :
    (m.handleNewPrimary S src data).member.allEndpoints =
      m.allEndpoints ++
        match m.accepted S (.datagram src .iamThePrimary data) with
        | none => []
        | some o => getNewcommers S o.sigOfNodesToBeAdded := by
  rw [handleNewPrimary_eq src data hrole]
  cases m.accepted S (.datagram src .iamThePrimary data) with
  | none => exact (List.append_nil _).symm
  | some o =>
    dsimp only
    rw [follow, startListeningAsSub_eq]
    rfl

theorem allEndpoints_handleNewPrimaryForNewcomer (src : Endpoint) (data : Bytes)
    (hrole : m.role = .newcomer) :
    (m.handleNewPrimaryForNewcomer S E src data).member.allEndpoints =
      m.allEndpoints ++
        match m.accepted S (.datagram src .iamThePrimaryForNewcomer data) with
        | none => []
        | some d => getNewcommers S d.sigOfNodesToBeAdded := by
  rw [handleNewPrimaryForNewcomer_eq src data hrole]
  cases m.accepted S (.datagram src .iamThePrimaryForNewcomer data) with
  | none => exact (List.append_nil _).symm
  | some d =>
    dsimp only
    unfold settle
    split_ifs with hself
    · dsimp only
      rw [startListeningAsSub_eq]
      rfl
    · rfl

/-- Without a laid-down message nobody becomes the primary. -/
theorem appended_of_not_collected {i : Input} (h : m.collected S i = none) :
    m.appended S i =
      match m.accepted S i with
      | none => []
      | some c => getNewcommers S c.sigOfNodesToBeAdded := by
  have hleads : ¬m.Leads S i := by simp [Leads, h]
  exact if_neg hleads

/-- **What an input appends to the list of members.** -/
theorem allEndpoints_handle (i : Input) :
    (m.handle S E i).member.allEndpoints = m.allEndpoints ++ m.appended S i := by
  cases i with
  | client src data =>
    rw [appended_of_not_collected rfl]
    have hframe := Node.frame_handleExecute (E := E) (n := m.toNode) src data
    exact (congrArg (·.2.1) hframe).trans (List.append_nil _).symm
  | timeout =>
    change (if m.role = .newcomer then ({ member := m } : Outcome X)
      else m.triggerViewChange S).member.allEndpoints = _
    split_ifs with hrole
    · simp [appended, Leads, hrole, accepted]
    · exact allEndpoints_triggerViewChange hrole
  | datagram src route data =>
    change (m.receive S E src route data).member.allEndpoints = _
    by_cases hrole : m.role = .newcomer
    · rw [receive_of_newcomer src route data hrole]
      cases route with
      | iamThePrimaryForNewcomer =>
        rw [appended_of_not_collected rfl]
        exact allEndpoints_handleNewPrimaryForNewcomer src data hrole
      | _ => simp [appended, Leads, hrole, accepted]
    · rw [receive_of_member src route data hrole]
      cases route with
      | iLaidDown => exact allEndpoints_handleLaidDown src data hrole
      | iamThePrimary =>
        rw [appended_of_not_collected rfl]
        exact allEndpoints_handleNewPrimary src data hrole
      | view t =>
        rw [appended_of_not_collected rfl]
        have hframe := Node.frame_receive (E := E) (n := m.toNode) src t data
        exact (congrArg (·.2.1) hframe).trans (List.append_nil _).symm
      | pleaseAddMeNoBoardcast =>
        rw [appended_of_not_collected rfl]
        exact (List.append_nil _).symm
      | iamThePrimaryForNewcomer =>
        rw [appended_of_not_collected rfl]
        cases hparse : NewViewCertificate.fromString data with
        | none => simp [accepted, hparse]
        | some d => simp [accepted, hparse, hrole]

/-! ### Runs -/

variable (S E) in
/-- One node under any inputs (`sys`), from the state `m₀` on. -/
def sysFrom (m₀ : Member X) : Sys (Member X) Input := { sys S E with init m := m = m₀ }

instance (m₀ : Member X) (i : Input) : Decidable ((sysFrom S E m₀).enabled m i) :=
  inferInstanceAs (Decidable True)

/-- Nothing is appended that is in the list already. -/
def NoneOld (S : IMsgManageable) (m : Member X) (i : Input) : Prop :=
  ∀ n ∈ m.appended S i, n ∉ m.allEndpoints

instance (i : Input) : Decidable (m.NoneOld S i) :=
  inferInstanceAs (Decidable (∀ n ∈ m.appended S i, n ∉ m.allEndpoints))

theorem nodup_appended (i : Input) : (m.appended S i).Nodup := by
  unfold appended
  split_ifs with hleads
  · exact nodup_getNewcommers S _
  · cases m.accepted S i with
    | none => exact List.nodup_nil
    | some c => exact nodup_getNewcommers S _

/-- One input keeps the list free of duplicates if and only if it appends nothing old. -/
theorem nodup_handle_iff (h : m.allEndpoints.Nodup) (i : Input) :
    (m.handle S E i).member.allEndpoints.Nodup ↔ m.NoneOld S i := by
  rw [allEndpoints_handle, List.nodup_append]
  constructor
  · rintro ⟨-, -, hne⟩ n hn hold
    exact hne n hold n hn rfl
  · intro hold
    refine ⟨h, nodup_appended i, ?_⟩
    rintro n hn _ hn' rfl
    exact hold n hn' hn

/-- **The list of members has no duplicates**, in every run of a node that starts without any and in
which nothing is appended that is in the list already.  In such a run, an input that appends
something old does leave a duplicate behind. -/
theorem nodup_allEndpoints {self : Endpoint} {all : List Endpoint} {exe : X} (hall : all.Nodup)
    (h : ((sysFrom S E (start self all exe)).only (NoneOld S)).Reach m) :
    m.allEndpoints.Nodup ∧
      ∀ i, (m.handle S E i).member.allEndpoints.Nodup ↔ m.NoneOld S i := by
  have hnodup : m.allEndpoints.Nodup := by
    refine h.invariant (I := fun m => m.allEndpoints.Nodup) ?_ ?_
    · rintro m rfl
      exact hall
    · rintro m i - hm ⟨-, hi⟩
      exact (nodup_handle_iff hm i).2 hi
  exact ⟨hnodup, nodup_handle_iff hnodup⟩

omit [Pb hiPb.LaidDownMsg] [Pb hiPb.NewViewCertificate] in
/-- `C` joins a group of two. -/
theorem nodup_allEndpoints_three :
    let _ : Pb hiPb.LaidDownMsg := Wire.pb hiPb.LaidDownMsg
    let _ : Pb hiPb.NewViewCertificate := Wire.pb hiPb.NewViewCertificate
    let S := naiveMsgMgr (ascii "B")
    ∃ m, ((sysFrom S mockExecutable (start (ascii "B") [ascii "A", ascii "B"] ())).only
        (NoneOld S)).Reach m ∧
      m.allEndpoints = [ascii "A", ascii "B", ascii "C"] ∧ m.allEndpoints.Nodup := by
  intro _ _ S
  let laidDown := (naiveMsgMgr (ascii "A")).prepareMsg
    (LaidDownMsg.toString ⟨ascii "Hi", 1, ascii "<mocked-state>"⟩)
  let addMe := (naiveMsgMgr (ascii "C")).prepareMsg (ascii "Hi, please let me in.")
  obtain ⟨m, hreach, hlist⟩ := Sys.exists_reach_of_exec
    (A := (sysFrom S mockExecutable (start (ascii "B") [ascii "A", ascii "B"] ())).only (NoneOld S))
    (P := fun m => m.allEndpoints = [ascii "A", ascii "B", ascii "C"]) rfl
    [.datagram (ascii "C") .pleaseAddMeNoBoardcast addMe,
      .datagram (ascii "A") .iLaidDown laidDown, .timeout] (by decide +kernel)
  exact ⟨m, hreach, hlist, (nodup_allEndpoints (by decide +kernel) hreach).1⟩

omit [Pb hiPb.LaidDownMsg] [Pb hiPb.NewViewCertificate] in
/-- The same with a message that `A`, a member, has signed: `A` is in the list of `B` twice. -/
theorem not_nodup_allEndpoints :
    let _ : Pb hiPb.LaidDownMsg := Wire.pb hiPb.LaidDownMsg
    let _ : Pb hiPb.NewViewCertificate := Wire.pb hiPb.NewViewCertificate
    let S := naiveMsgMgr (ascii "B")
    let all := [ascii "A", ascii "B"]
    all.Nodup ∧ ∃ m, (sysFrom S mockExecutable (start (ascii "B") all ())).Reach m ∧
      ¬m.allEndpoints.Nodup := by
  intro _ _ S all
  let laidDown := (naiveMsgMgr (ascii "A")).prepareMsg
    (LaidDownMsg.toString ⟨ascii "Hi", 1, ascii "<mocked-state>"⟩)
  let addMe := (naiveMsgMgr (ascii "A")).prepareMsg (ascii "Hi, please let me in.")
  refine ⟨by decide +kernel, ?_⟩
  exact Sys.exists_reach_of_exec (s := start (ascii "B") all ()) rfl
    [.datagram (ascii "A") .pleaseAddMeNoBoardcast addMe,
      .datagram (ascii "A") .iLaidDown laidDown, .timeout] (by decide +kernel)

end Member

end Rbft

end WeakChain
