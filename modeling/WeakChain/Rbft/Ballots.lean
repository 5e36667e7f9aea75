import WeakChain.Rbft.Cluster
import WeakChain.Rbft.ViewChange

/-!
# Whose votes are counted, and when

A vote set is a tally that is erased when it fires, and only then: entering a view does not touch it
(`clear_memory` forgets the received commands, not the votes).  And a vote is counted whoever it
comes from, as long as its datagram is signed.

`ballots` is what an input makes a node count, and `votes_handle` says that this is all that happens
to the vote sets.  From this:

* `voted_of_fires` : the voters of a set that fires have voted in the present view, if only votes
  are counted for which nothing has been left over from an earlier one.
* `votes_of_reach` : a voter is the node itself, or has sent the vote; so it is a member if all that
  send votes are members.
-/

namespace WeakChain

namespace Rbft

/-- The two tallies. -/
inductive Kind
  | confirm
  | commit
  deriving DecidableEq

/-- The target of the votes of a tally. -/
def Kind.target : Kind → Target
  | .confirm => .pleaseConfirmThis
  | .commit => .pleaseCommitThis

/-- A vote that is counted. -/
structure Ballot where
  /-- The tally. -/
  kind : Kind
  /-- The voter. -/
  voter : Endpoint
  /-- The command. -/
  cmd : Cmd
  deriving DecidableEq

/-- The ballot for a vote set, if there is one. -/
def ballotFor (bs : List Ballot) (k : Kind) (c : Cmd) : Option Ballot :=
  bs.find? fun b => b.kind = k ∧ b.cmd = c

theorem of_ballotFor {bs : List Ballot} {k : Kind} {c : Cmd} {b : Ballot}
    (h : ballotFor bs k c = some b) : b ∈ bs ∧ b.kind = k ∧ b.cmd = c :=
  ⟨List.mem_of_find?_eq_some h, by simpa using List.find?_some h⟩

namespace Node

variable {X : Type*} {E : IForConsensusExecutable X} (n : Node X)

/-- The vote set of a command. -/
def votes : Kind → Cmd → Finset Endpoint
  | .confirm => n.toBeConfirmedCommands
  | .commit => n.toBeCommittedCommands

/-- A ballot is the one that fills the set. -/
def Fires (b : Ballot) : Prop := n.quorum ≤ (insert b.voter (n.votes b.kind b.cmd)).card

instance (b : Ballot) : Decidable (n.Fires b) := inferInstanceAs (Decidable (_ ≤ _))

/-- The vote sets after some ballots, at most one for each set. -/
def count (bs : List Ballot) (k : Kind) (c : Cmd) : Finset Endpoint :=
  match ballotFor bs k c with
  | none => n.votes k c
  | some b => (Tally.vote n.quorum (n.votes k c) b.voter).1

/-- What `add_to_to_be_confirmed_commands` counts: the confirmation, and the node's own commit if
there are enough. -/
def confirmBallots (e : Endpoint) (c : Cmd) : List Ballot :=
  if (n.confirmVote e c).2 then [⟨.confirm, e, c⟩, ⟨.commit, n.listenedEndpoint, c⟩]
  else [⟨.confirm, e, c⟩]

/-- What `handle_execute_for_sub1` counts. -/
def orderBallots (src : Endpoint) (c : Cmd) : List Ballot :=
  if n.viewChangeState then []
  else if src = n.primary then n.confirmBallots n.listenedEndpoint c
  else []

/-- What `handle_execute` counts. -/
def clientBallots (src : Endpoint) (c : Cmd) : List Ballot :=
  if n.isPrimary then [] else n.orderBallots src c

/-- What a datagram makes the node count. -/
def receiveBallots (src : Endpoint) (t : Target) (c : Cmd) : List Ballot :=
  match n.role, t with
  | .sub, .pleaseExecuteThis => n.orderBallots src c
  | .sub, .pleaseConfirmThis => if n.viewChangeState then [] else n.confirmBallots src c
  | .sub, .pleaseCommitThis => if n.viewChangeState then [] else [⟨.commit, src, c⟩]
  | _, _ => []

variable {n}

theorem count_nil : n.count [] = n.votes := rfl

theorem mem_count {bs : List Ballot} {k : Kind} {c : Cmd} {e : Endpoint} (h : e ∈ n.count bs k c) :
    e ∈ n.votes k c ∨ ⟨k, e, c⟩ ∈ bs := by
  unfold count at h
  split at h
  · exact .inl h
  · next b hb =>
    obtain ⟨hmem, rfl, rfl⟩ := of_ballotFor hb
    rcases Finset.mem_insert.1 (Tally.vote_subset _ _ _ h) with rfl | he
    · exact .inr hmem
    · exact .inl he

theorem mem_confirmBallots {e : Endpoint} {c : Cmd} {b : Ballot} (hb : b ∈ n.confirmBallots e c) :
    b = ⟨.confirm, e, c⟩ ∨ b.voter = n.listenedEndpoint := by
  unfold confirmBallots at hb
  split_ifs at hb
  · rcases List.mem_cons.1 hb with rfl | hb
    · exact .inl rfl
    · rw [List.mem_singleton.1 hb]
      exact .inr rfl
  · exact .inl (List.mem_singleton.1 hb)

theorem voter_of_mem_orderBallots {src : Endpoint} {c : Cmd} {b : Ballot}
    (hb : b ∈ n.orderBallots src c) : b.voter = n.listenedEndpoint := by
  unfold orderBallots at hb
  split_ifs at hb
  · exact absurd hb List.not_mem_nil
  · rcases mem_confirmBallots hb with rfl | hself
    · rfl
    · exact hself
  · exact absurd hb List.not_mem_nil

theorem voter_of_mem_clientBallots {src : Endpoint} {c : Cmd} {b : Ballot}
    (hb : b ∈ n.clientBallots src c) : b.voter = n.listenedEndpoint := by
  unfold clientBallots at hb
  split_ifs at hb
  · exact absurd hb List.not_mem_nil
  · exact voter_of_mem_orderBallots hb

theorem voter_of_mem_receiveBallots {src : Endpoint} {t : Target} {c : Cmd} {b : Ballot}
    (hb : b ∈ n.receiveBallots src t c) :
    b.voter = n.listenedEndpoint ∨ b.voter = src ∧ b.kind.target = t ∧ b.cmd = c := by
  unfold receiveBallots at hb
  split at hb
  · exact .inl (voter_of_mem_orderBallots hb)
  · split_ifs at hb
    · exact absurd hb List.not_mem_nil
    · rcases mem_confirmBallots hb with rfl | hself
      · exact .inr ⟨rfl, rfl, rfl⟩
      · exact .inl hself
  · split_ifs at hb
    · exact absurd hb List.not_mem_nil
    · rw [List.mem_singleton.1 hb]
      exact .inr ⟨rfl, rfl, rfl⟩
  · exact absurd hb List.not_mem_nil

theorem votes_addToToBeCommittedCommands (e : Endpoint) (c : Cmd) :
    (n.addToToBeCommittedCommands E e c).node.votes = n.count [⟨.commit, e, c⟩] := by
  funext k d
  cases k with
  | confirm =>
    change (n.addToToBeCommittedCommands E e c).node.toBeConfirmedCommands d = _
    rw [confirmed_addToToBeCommittedCommands]
    simp [count, ballotFor, votes]
  | commit =>
    change (n.addToToBeCommittedCommands E e c).node.toBeCommittedCommands d = _
    rw [committed_addToToBeCommittedCommands]
    by_cases hd : d = c
    · subst hd
      simp [count, ballotFor, votes, commitVote]
    · simp [count, ballotFor, votes, hd, Ne.symm hd]

theorem votes_addToToBeConfirmedCommands (e : Endpoint) (c : Cmd) :
    (n.addToToBeConfirmedCommands E e c).node.votes = n.count (n.confirmBallots e c) := by
  funext k d
  cases k with
  | confirm =>
    change (n.addToToBeConfirmedCommands E e c).node.toBeConfirmedCommands d = _
    rw [confirmed_addToToBeConfirmedCommands]
    by_cases hd : d = c
    · subst hd
      unfold confirmBallots
      split_ifs <;> simp [count, ballotFor, votes, confirmVote]
    · unfold confirmBallots
      split_ifs <;> simp [count, ballotFor, votes, hd, Ne.symm hd]
  | commit =>
    change (n.addToToBeConfirmedCommands E e c).node.toBeCommittedCommands d = _
    cases hfire : (n.confirmVote e c).2 with
    | true =>
      rw [addToToBeConfirmedCommands_of_fired hfire, Out.after_node,
        committed_addToToBeCommittedCommands]
      by_cases hd : d = c
      · subst hd
        simp [count, ballotFor, confirmBallots, hfire, votes, commitVote, setConfirmed, quorum, f,
          N]
      · simp [count, ballotFor, confirmBallots, hfire, votes, hd, Ne.symm hd, setConfirmed]
    | false =>
      rw [addToToBeConfirmedCommands_of_not_fired hfire]
      simp [count, ballotFor, confirmBallots, hfire, votes, setConfirmed]

theorem votes_handleExecuteForSub1 (src : Endpoint) (c : Cmd) :
    (n.handleExecuteForSub1 E src c).node.votes = n.count (n.orderBallots src c) := by
  unfold handleExecuteForSub1 orderBallots
  split_ifs
  · rfl
  · exact votes_addToToBeConfirmedCommands _ _
  · rfl

theorem votes_handleExecuteForPrimary1 (src : Endpoint) (c : Cmd) :
    (n.handleExecuteForPrimary1 E src c).node.votes = n.votes := by
  unfold handleExecuteForPrimary1
  split_ifs <;> rfl

theorem votes_handleExecute (src : Endpoint) (c : Cmd) :
    (n.handleExecute E src c).node.votes = n.count (n.clientBallots src c) := by
  unfold handleExecute clientBallots
  split_ifs
  · exact votes_handleExecuteForPrimary1 src c
  · exact votes_handleExecuteForSub1 src c

theorem votes_receive (src : Endpoint) (t : Target) (c : Cmd) :
    (n.receive E src t c).node.votes = n.count (n.receiveBallots src t c) := by
  unfold receive receiveBallots
  cases hrole : n.role with
  | newcomer => rfl
  | primary =>
    cases t with
    | pleaseExecuteThis => exact votes_handleExecuteForPrimary1 src c
    | _ => rfl
  | sub =>
    cases t with
    | pleaseExecuteThis => exact votes_handleExecuteForSub1 src c
    | pleaseConfirmThis =>
      dsimp only
      unfold handleConfirmForSub
      split_ifs
      · rfl
      · exact votes_addToToBeConfirmedCommands src c
    | pleaseCommitThis =>
      dsimp only
      unfold handleCommitForSub
      split_ifs
      · rfl
      · exact votes_addToToBeCommittedCommands src c

end Node

namespace Member

variable {X : Type*} {S : IMsgManageable} {E : IForConsensusExecutable X} {m : Member X}

/-- What an input makes the node count: the calls of `add_to_to_be_confirmed_commands` and
`add_to_to_be_committed_commands`. -/
def ballots (m : Member X) : Input → List Ballot
  | .client src data => m.clientBallots src data
  | .datagram src (.view t) data => m.receiveBallots src t data
  | _ => []

variable [Pb hiPb.LaidDownMsg] [Pb hiPb.NewViewCertificate]

/-- Outside the traffic of a view nothing happens to the vote sets: a node enters a view with those
of the last one. -/
theorem votes_of_does {i : Input} {o : Outcome X} (h : m.Does S E i o)
    (hclient : ∀ src data, i ≠ .client src data)
    (hview : ∀ src t data, i ≠ .datagram src (.view t) data) : o.member.votes = m.votes := by
  cases h with
  | idle i hrole => rfl
  | client src data => exact absurd rfl (hclient src data)
  | view src t data hrole => exact absurd rfl (hview src t data)
  | addMe src data hrole => rfl
  | layDown sent hrole => rfl
  | remember hcol hnew => cases hcol <;> rfl
  | lead sent hcol hnew hneeded hself hstate =>
    rw [lead_eq]
    cases hcol <;> rfl
  | follow src hrole hparse hnew hepoch hcert =>
    rw [follow, startListeningAsSub_eq]
    rfl
  | stray src hrole hparse hcert => rfl
  | join src hrole hparse hcert hself =>
    rw [startListeningAsSub_eq]
    rfl

/-- **The vote sets change by the ballots**, and by nothing else. -/
theorem votes_handle (i : Input) : (m.handle S E i).member.votes = m.count (m.ballots i) := by
  have hother := votes_of_does (does_handle (S := S) (E := E) (m := m) i)
  cases i with
  | client src data => exact Node.votes_handleExecute src data
  | timeout => exact hother (by simp) (by simp)
  | datagram src route data =>
    cases route with
    | view t =>
      cases hrole : m.role with
      | newcomer => simp [handle, receive, ballots, Node.receiveBallots, hrole, Node.count_nil]
      | sub =>
        simp only [handle, receive, hrole]
        exact Node.votes_receive src t data
      | primary =>
        simp only [handle, receive, hrole]
        exact Node.votes_receive src t data
    | iLaidDown => exact hother (by simp) (by simp)
    | iamThePrimary => exact hother (by simp) (by simp)
    | pleaseAddMeNoBoardcast => exact hother (by simp) (by simp)
    | iamThePrimaryForNewcomer => exact hother (by simp) (by simp)

/-! ### The votes of a view -/

/-- A node, with the books of its present view. -/
structure Booked (X : Type*) where
  /-- The node. -/
  member : Member X
  /-- Whose votes have been counted since the epoch changed last. -/
  voted : Kind → Cmd → Finset Endpoint := fun _ _ => ∅
  /-- What has been in the vote sets when the epoch changed last, if it has not been used since. -/
  leftover : Kind → Cmd → Finset Endpoint := fun _ _ => ∅

namespace Booked

variable (t : Booked X)

/-- The voters of a vote set, with those an input brings. -/
def votedAfter (i : Input) (k : Kind) (c : Cmd) : Finset Endpoint :=
  match ballotFor (t.member.ballots i) k c with
  | none => t.voted k c
  | some b => insert b.voter (t.voted k c)

/-- What is left over of a vote set after an input: nothing if it fires. -/
def leftoverAfter (i : Input) (k : Kind) (c : Cmd) : Finset Endpoint :=
  match ballotFor (t.member.ballots i) k c with
  | none => t.leftover k c
  | some b => if t.member.Fires b then ∅ else t.leftover k c

variable (S E) in
/-- One node under any inputs, with the books of its present view. -/
def sys : Sys (Booked X) Input where
  init t := ∃ listenedEndpoint allEndpoints exe,
    t = { member := start listenedEndpoint allEndpoints exe }
  enabled _ _ := True
  act t i :=
    let m := (t.member.handle S E i).member
    if m.epoch = t.member.epoch then ⟨m, t.votedAfter i, t.leftoverAfter i⟩
    else { member := m, leftover := m.votes }

/-- Only votes are counted for which nothing has been left over. -/
def Fresh (i : Input) : Prop := ∀ b ∈ t.member.ballots i, t.leftover b.kind b.cmd = ∅

instance (i : Input) : Decidable (t.Fresh i) :=
  inferInstanceAs (Decidable (∀ b ∈ t.member.ballots i, t.leftover b.kind b.cmd = ∅))

/-- The voters of every set have voted in the present view, or have been left over. -/
def Accounted : Prop := ∀ k c, t.member.votes k c ⊆ t.voted k c ∪ t.leftover k c

variable {t}

omit [Pb hiPb.LaidDownMsg] [Pb hiPb.NewViewCertificate] in
/-- The ballots of an input keep the books. -/
theorem Accounted.count_subset (h : t.Accounted) (i : Input) (k : Kind) (c : Cmd) :
    t.member.count (t.member.ballots i) k c ⊆ t.votedAfter i k c ∪ t.leftoverAfter i k c := by
  unfold Node.count votedAfter leftoverAfter
  cases hb : ballotFor (t.member.ballots i) k c with
  | none => exact h k c
  | some b =>
    obtain ⟨-, rfl, rfl⟩ := of_ballotFor hb
    dsimp only
    by_cases hfires : t.member.Fires b
    · rw [Tally.vote_of_le hfires]
      exact Finset.empty_subset _
    · rw [Tally.vote_of_lt (not_le.1 hfires), if_neg hfires, Finset.insert_union]
      exact Finset.insert_subset_insert _ (h b.kind b.cmd)

/-- The books are right in every run. -/
theorem accounted_of_reach (h : (sys S E).Reach t) : t.Accounted := by
  refine h.invariant (I := Accounted) ?_ ?_
  · rintro _ ⟨ep, eps, x, rfl⟩ k c
    cases k <;> exact Finset.empty_subset _
  · intro t i _ ht _
    simp only [sys]
    split_ifs with hepoch
    · intro k c
      rw [votes_handle]
      exact ht.count_subset i k c
    · intro k c
      exact Finset.subset_union_right

/-- **View isolation**, in every run of a node, under any inputs, in which no vote is counted for a
command while there are votes for it left over from an earlier view: whenever a vote set is full,
all its voters have voted in the present view. -/
theorem voted_of_fires (h : ((sys S E).only Fresh).Reach t) {i : Input} (hi : t.Fresh i) :
    ∀ b ∈ t.member.ballots i, t.member.Fires b →
      insert b.voter (t.member.votes b.kind b.cmd) ⊆ insert b.voter (t.voted b.kind b.cmd) := by
  rintro b hb -
  have hacc := accounted_of_reach h.of_only b.kind b.cmd
  rw [hi b hb, Finset.union_empty] at hacc
  exact Finset.insert_subset_insert _ hacc

omit [Pb hiPb.LaidDownMsg] [Pb hiPb.NewViewCertificate] in
/-- A group of four: `C` follows `B` into the next view, gets the confirmation of `D`, and then the
order of `B`, which makes two confirmations. -/
theorem voted_of_fires_four :
    let _ : Pb hiPb.LaidDownMsg := Wire.pb hiPb.LaidDownMsg
    let _ : Pb hiPb.NewViewCertificate := Wire.pb hiPb.NewViewCertificate
    let laidDown (ep : String) := (naiveMsgMgr (ascii ep)).prepareMsg
      (LaidDownMsg.toString ⟨ascii "Hi", 1, ascii "<mocked-state>"⟩)
    let cert : NewViewCertificate := .ofPrimary 1 [laidDown "A", laidDown "B", laidDown "D"] []
    let act := (sys (naiveMsgMgr (ascii "C")) mockExecutable).act
    let t₀ : Booked Unit :=
      { member := start (ascii "C") [ascii "A", ascii "B", ascii "C", ascii "D"] () }
    let t₁ := act t₀ (.datagram (ascii "B") .iamThePrimary cert.toString)
    let t := act t₁ (.datagram (ascii "D") (.view .pleaseConfirmThis) (ascii "cmd"))
    let b : Ballot := ⟨.confirm, ascii "C", ascii "cmd"⟩
    t.member.epoch = 1 ∧ t.member.Fires b ∧
      insert b.voter (t.member.votes b.kind b.cmd) ⊆ insert b.voter (t.voted b.kind b.cmd) := by
  intro _ _ laidDown cert act t₀ t₁ t b
  let A := (sys (naiveMsgMgr (ascii "C")) mockExecutable).only Fresh
  have hcert : t₀.Fresh (.datagram (ascii "B") .iamThePrimary cert.toString) := by decide +kernel
  have hconfirm : t₁.Fresh (.datagram (ascii "D") (.view .pleaseConfirmThis) (ascii "cmd")) := by
    decide +kernel
  have hreach₁ : A.Reach t₁ := Sys.Reach.act_only (.init ⟨_, _, _, rfl⟩) trivial hcert
  have hreach : A.Reach t := Sys.Reach.act_only hreach₁ trivial hconfirm
  have horder : t.Fresh (.datagram (ascii "B") (.view .pleaseExecuteThis) (ascii "cmd")) := by
    decide +kernel
  have hb : b ∈ t.member.ballots
      (.datagram (ascii "B") (.view .pleaseExecuteThis) (ascii "cmd")) := by decide +kernel
  have hfires : t.member.Fires b := by decide +kernel
  have hepoch : t.member.epoch = 1 := by decide +kernel
  clear_value t
  exact ⟨hepoch, hfires, voted_of_fires hreach horder b hb hfires⟩

omit [Pb hiPb.LaidDownMsg] [Pb hiPb.NewViewCertificate] in
/-- The same with the confirmation of `D` first: it is still there in the next view, and the order
of `B` makes two confirmations. -/
theorem not_voted_of_fires :
    let _ : Pb hiPb.LaidDownMsg := Wire.pb hiPb.LaidDownMsg
    let _ : Pb hiPb.NewViewCertificate := Wire.pb hiPb.NewViewCertificate
    let S := naiveMsgMgr (ascii "C")
    ¬∀ t : Booked Unit, (sys S mockExecutable).Reach t → ∀ i, ∀ b ∈ t.member.ballots i,
      t.member.Fires b →
        insert b.voter (t.member.votes b.kind b.cmd) ⊆ insert b.voter (t.voted b.kind b.cmd) := by
  intro _ _ S hall
  let laidDown (ep : String) := (naiveMsgMgr (ascii ep)).prepareMsg
    (LaidDownMsg.toString ⟨ascii "Hi", 1, ascii "<mocked-state>"⟩)
  let cert : NewViewCertificate := .ofPrimary 1 [laidDown "A", laidDown "B", laidDown "D"] []
  let A := sys S mockExecutable
  let t₀ : Booked Unit :=
    { member := start (ascii "C") [ascii "A", ascii "B", ascii "C", ascii "D"] () }
  let t₁ := A.act t₀ (.datagram (ascii "D") (.view .pleaseConfirmThis) (ascii "cmd"))
  let t := A.act t₁ (.datagram (ascii "B") .iamThePrimary cert.toString)
  let b : Ballot := ⟨.confirm, ascii "C", ascii "cmd"⟩
  have hreach₁ : A.Reach t₁ := Sys.Reach.act (.init ⟨_, _, _, rfl⟩) trivial
  have hreach : A.Reach t := Sys.Reach.act hreach₁ trivial
  have hb : b ∈ t.member.ballots
      (.datagram (ascii "B") (.view .pleaseExecuteThis) (ascii "cmd")) := by decide +kernel
  have hfires : t.member.Fires b := by decide +kernel
  have hnot : ¬insert b.voter (t.member.votes b.kind b.cmd) ⊆
      insert b.voter (t.voted b.kind b.cmd) := by decide +kernel
  clear_value t
  exact hnot (hall t hreach _ b hb hfires)

end Booked

/-! ### The voters -/

omit [Pb hiPb.LaidDownMsg] [Pb hiPb.NewViewCertificate] in
/-- A ballot is that of the node itself, or that of the sender of the vote. -/
theorem voter_of_mem_ballots {i : Input} {b : Ballot} (hb : b ∈ m.ballots i) :
    b.voter = m.listenedEndpoint ∨ i = .datagram b.voter (.view b.kind.target) b.cmd := by
  unfold ballots at hb
  split at hb
  · exact .inl (Node.voter_of_mem_clientBallots hb)
  · next src t data =>
    rcases Node.voter_of_mem_receiveBallots hb with hself | ⟨rfl, rfl, rfl⟩
    · exact .inl hself
    · exact .inr rfl
  · exact absurd hb List.not_mem_nil

/-- A node keeps its name, and its list of members only grows. -/
theorem endpoints_of_does {i : Input} {o : Outcome X} (h : m.Does S E i o) :
    o.member.listenedEndpoint = m.listenedEndpoint ∧
      m.allEndpoints <+: o.member.allEndpoints := by
  cases h with
  | idle i hrole => exact ⟨rfl, List.prefix_rfl⟩
  | client src data =>
    have hframe := Node.frame_handleExecute (E := E) (n := m.toNode) src data
    refine ⟨congrArg (·.1) hframe, [], ?_⟩
    rw [List.append_nil]
    exact (congrArg (·.2.1) hframe).symm
  | view src t data hrole =>
    have hframe := Node.frame_receive (E := E) (n := m.toNode) src t data
    refine ⟨congrArg (·.1) hframe, [], ?_⟩
    rw [List.append_nil]
    exact (congrArg (·.2.1) hframe).symm
  | addMe src data hrole => exact ⟨rfl, List.prefix_rfl⟩
  | layDown sent hrole => exact ⟨rfl, List.prefix_rfl⟩
  | remember hcol hnew => cases hcol <;> exact ⟨rfl, List.prefix_rfl⟩
  | lead sent hcol hnew hneeded hself hstate =>
    rw [lead_eq]
    cases hcol <;> exact ⟨rfl, List.prefix_append _ _⟩
  | follow src hrole hparse hnew hepoch hcert =>
    rw [follow, startListeningAsSub_eq]
    exact ⟨rfl, List.prefix_append _ _⟩
  | stray src hrole hparse hcert => exact ⟨rfl, List.prefix_append _ _⟩
  | join src hrole hparse hcert hself =>
    rw [startListeningAsSub_eq]
    exact ⟨rfl, List.prefix_append _ _⟩

/-- A node, with what has happened to it. -/
structure Journal (X : Type*) where
  /-- The node. -/
  member : Member X
  /-- The inputs so far, each with the node it has come to. -/
  past : List (Member X × Input) := []

namespace Journal

variable {t : Journal X}

variable (S E) in
/-- One node under any inputs, with what has happened to it. -/
def sys : Sys (Journal X) Input where
  init t := ∃ listenedEndpoint allEndpoints exe,
    t = { member := start listenedEndpoint allEndpoints exe }
  enabled _ _ := True
  act t i := ⟨(t.member.handle S E i).member, (t.member, i) :: t.past⟩

/-- The voters of every set have been counted, and nobody has left since. -/
structure Recorded (t : Journal X) : Prop where
  counted : ∀ k c, ∀ e ∈ t.member.votes k c, ∃ p ∈ t.past, ⟨k, e, c⟩ ∈ p.1.ballots p.2
  name : ∀ p ∈ t.past, p.1.listenedEndpoint = t.member.listenedEndpoint
  members : ∀ p ∈ t.past, p.1.allEndpoints ⊆ t.member.allEndpoints

theorem Recorded.act (h : t.Recorded) (i : Input) : ((sys S E).act t i).Recorded := by
  obtain ⟨hname, hmembers⟩ := endpoints_of_does (does_handle (S := S) (E := E) (m := t.member) i)
  refine ⟨?_, ?_, ?_⟩
  · intro k c e he
    change e ∈ (t.member.handle S E i).member.votes k c at he
    rw [votes_handle] at he
    rcases Node.mem_count he with hold | hnew
    · obtain ⟨p, hp, hb⟩ := h.counted k c e hold
      exact ⟨p, List.mem_cons_of_mem _ hp, hb⟩
    · exact ⟨_, List.mem_cons_self, hnew⟩
  · intro p hp
    rcases List.mem_cons.1 hp with rfl | hp
    · exact hname.symm
    · exact (h.name p hp).trans hname.symm
  · intro p hp
    rcases List.mem_cons.1 hp with rfl | hp
    · exact hmembers.subset
    · exact List.Subset.trans (h.members p hp) hmembers.subset

theorem recorded_of_reach (h : (sys S E).Reach t) : t.Recorded := by
  refine h.invariant (I := Recorded) ?_ ?_
  · rintro _ ⟨ep, eps, x, rfl⟩
    refine ⟨?_, by simp, by simp⟩
    intro k c e he
    cases k <;> exact absurd he (Finset.notMem_empty e)
  · intro t i _ ht _
    exact ht.act i

end Journal

/-- Only votes of members other than the primary are counted. -/
def SubsOnly (m : Member X) (i : Input) : Prop :=
  ∀ b ∈ m.ballots i, b.voter ∈ m.allEndpoints ∧ b.voter ≠ m.primary

/-- **Voters**, in every run of a node, under any inputs: who is in a vote set of a command is the
node itself, or has sent it a vote for the command.  If only votes of members other than the primary
have been counted then the voters are members now, and were not the primary when they voted. -/
theorem votes_of_reach {t : Journal X} (h : (Journal.sys S E).Reach t) {k : Kind} {c : Cmd}
    {e : Endpoint} (he : e ∈ t.member.votes k c) :
    (e = t.member.listenedEndpoint ∨
        ∃ p ∈ t.past, p.2 = .datagram e (.view k.target) c) ∧
      ((∀ p ∈ t.past, p.1.SubsOnly p.2) → e ∈ t.member.allEndpoints ∧
        ∃ p ∈ t.past, ⟨k, e, c⟩ ∈ p.1.ballots p.2 ∧ e ≠ p.1.primary) := by
  have hrec := Journal.recorded_of_reach h
  obtain ⟨p, hp, hb⟩ := hrec.counted k c e he
  refine ⟨?_, ?_⟩
  · rcases voter_of_mem_ballots hb with hself | hvote
    · exact .inl (hself.trans (hrec.name p hp))
    · exact .inr ⟨p, hp, hvote⟩
  · intro hsubs
    obtain ⟨hmem, hne⟩ := hsubs p hp _ hb
    exact ⟨hrec.members p hp hmem, p, hp, hb, hne⟩

omit [Pb hiPb.LaidDownMsg] [Pb hiPb.NewViewCertificate] in
/-- A group of four: the confirmation of `D` has come to `C`. -/
theorem votes_of_reach_four :
    let _ : Pb hiPb.LaidDownMsg := Wire.pb hiPb.LaidDownMsg
    let _ : Pb hiPb.NewViewCertificate := Wire.pb hiPb.NewViewCertificate
    let t₀ : Journal Unit :=
      { member := start (ascii "C") [ascii "A", ascii "B", ascii "C", ascii "D"] () }
    let t := (Journal.sys (naiveMsgMgr (ascii "C")) mockExecutable).act t₀
      (.datagram (ascii "D") (.view .pleaseConfirmThis) (ascii "cmd"))
    t.member.votes .confirm (ascii "cmd") = {ascii "D"} ∧
      (∃ p ∈ t.past, p.2 = .datagram (ascii "D") (.view .pleaseConfirmThis) (ascii "cmd")) ∧
      ascii "D" ∈ t.member.allEndpoints := by
  intro _ _ t₀ t
  have hreach : (Journal.sys (naiveMsgMgr (ascii "C")) mockExecutable).Reach t :=
    Sys.Reach.act (.init ⟨_, _, _, rfl⟩) trivial
  have hvotes : t.member.votes .confirm (ascii "cmd") = {ascii "D"} := by decide +kernel
  have hself : ascii "D" ≠ t.member.listenedEndpoint := by decide +kernel
  have hsubs : ∀ p ∈ t.past, p.1.SubsOnly p.2 := by
    intro p hp
    rw [List.mem_singleton.1 hp]
    unfold SubsOnly
    decide +kernel
  clear_value t
  obtain ⟨hvoter, hmember⟩ := votes_of_reach hreach (hvotes ▸ Finset.mem_singleton_self _)
  exact ⟨hvotes, hvoter.resolve_left hself, (hmember hsubs).1⟩

omit [Pb hiPb.LaidDownMsg] [Pb hiPb.NewViewCertificate] in
/-- The confirmation of an outsider counts. -/
theorem not_votes_of_reach :
    let _ : Pb hiPb.LaidDownMsg := Wire.pb hiPb.LaidDownMsg
    let _ : Pb hiPb.NewViewCertificate := Wire.pb hiPb.NewViewCertificate
    let S := naiveMsgMgr (ascii "C")
    ¬∀ m : Member Unit, (sys S mockExecutable).Reach m → ∀ k c, ∀ e ∈ m.votes k c,
      e ∈ m.allEndpoints ∧ e ≠ m.primary := by
  intro _ _ S hall
  let m := (sys S mockExecutable).act
    (start (ascii "C") [ascii "A", ascii "B", ascii "C", ascii "D"] ())
    (.datagram (ascii "outsider") (.view .pleaseConfirmThis) (ascii "cmd"))
  have hreach : (sys S mockExecutable).Reach m := Sys.Reach.act (.init ⟨_, _, _, rfl⟩) trivial
  have hvote : ascii "outsider" ∈ m.votes .confirm (ascii "cmd") := by decide +kernel
  have hnot : ascii "outsider" ∉ m.allEndpoints := by decide +kernel
  exact hnot (hall m hreach .confirm (ascii "cmd") _ hvote).1

end Member

end Rbft

end WeakChain
