import WeakChain.Cnsss.Basic
import WeakChain.Lib.Tally
import Mathlib.Logic.Function.Basic

/-!
# An RBFT node within a view

A client command goes through three rounds: the primary executes it and sends `/pleaseExecuteThis`
to everybody; a sub that gets this order sends `/pleaseConfirmThis` to the other subs; a sub that
has collected `N - 1 - f` confirmations sends `/pleaseCommitThis`; and a sub that has collected
`N - 1 - f` commits executes the command.  Both collections are tallies (`Tally.vote`): the set of
voters of a command is erased as soon as it is large enough.

Every handler is a function of the node and the message.  It returns an `Out`: the node afterwards,
the datagrams it sends, and, for the statements about runs, the commands it passed to
`finally_execute_it` and those it broadcast as orders.
-/

namespace WeakChain

namespace Rbft

/-- The role of a node. -/
inductive Role
  | newcomer
  | sub
  | primary
  deriving DecidableEq, Repr

/-- The targets a node listens to while a view lasts. -/
inductive Target
  | pleaseExecuteThis
  | pleaseConfirmThis
  | pleaseCommitThis
  deriving DecidableEq, Repr

/-- A datagram. -/
structure Packet where
  /-- The (authenticated) sender. -/
  src : Endpoint
  /-- The receiver. -/
  dst : Endpoint
  /-- The handler it is for. -/
  target : Target
  /-- The command. -/
  data : Cmd
  deriving DecidableEq

/-- The state of a node.  An absent entry of the two vote maps is the empty set. -/
structure Node (X : Type*) where
  /-- `net->listened_endpoint()`. -/
  listenedEndpoint : Endpoint
  /-- The members, in the order in which they were added. -/
  allEndpoints : List Endpoint
  /-- The number of the view. -/
  epoch : ℤ
  /-- A view change is going on. -/
  viewChangeState : Bool
  /-- Which handlers are registered. -/
  role : Role
  /-- Who has confirmed a command. -/
  toBeConfirmedCommands : Cmd → Finset Endpoint
  /-- Who has committed to a command. -/
  toBeCommittedCommands : Cmd → Finset Endpoint
  /-- The commands the primary has seen. -/
  receivedCommands : Finset Cmd
  /-- The commands executed so far, as the executor left them. -/
  commandHistory : List Cmd
  /-- The executor behind the node. -/
  exe : X

/-- What a handler leaves behind. -/
structure Out (X : Type*) where
  /-- The node after the call. -/
  node : Node X
  /-- The datagrams sent, in order. -/
  sent : List Packet := []
  /-- The arguments of the calls of `finally_execute_it`. -/
  executed : List Cmd := []
  /-- The commands broadcast under `/pleaseExecuteThis`. -/
  ordered : List Cmd := []

namespace Out

variable {X : Type*} (ps : List Packet) (o : Out X)

/-- Some datagrams are sent first. -/
def after : Out X := ⟨o.node, ps ++ o.sent, o.executed, o.ordered⟩

@[simp] theorem after_node : (o.after ps).node = o.node := rfl

@[simp] theorem after_sent : (o.after ps).sent = ps ++ o.sent := rfl

@[simp] theorem after_executed : (o.after ps).executed = o.executed := rfl

@[simp] theorem after_ordered : (o.after ps).ordered = o.ordered := rfl

end Out

namespace Node

variable {X : Type*} (E : IForConsensusExecutable X) (n : Node X)

/-- The size of the group. -/
def N : ℕ := n.allEndpoints.length

/-- The number of random nodes the group can tolerate. -/
def f : ℕ := (n.N - 1) / 3

/-- The votes a command needs (`1` stands for the primary). -/
def quorum : ℕ := n.N - 1 - n.f

/-- The primary of the current view.  The `int` epoch is converted to `size_t` before `%`. -/
def primary : Endpoint := n.allEndpoints.getD ((n.epoch % 2 ^ 64).toNat % n.N) []

/-- `is_primary`. -/
def isPrimary : Bool := !n.viewChangeState && n.primary == n.listenedEndpoint

/-- `boardcast_to_other_subs`: everybody but this node and the primary. -/
def boardcastToOtherSubs (target : Target) (data : Cmd) : List Packet :=
  (n.allEndpoints.filter fun sub => sub ≠ n.listenedEndpoint ∧ sub ≠ n.primary).map
    fun sub => ⟨n.listenedEndpoint, sub, target, data⟩

/-- `boardcast_to_others`: everybody but this node. -/
def boardcastToOthers (target : Target) (data : Cmd) : List Packet :=
  (n.allEndpoints.filter fun node => node ≠ n.listenedEndpoint).map
    fun node => ⟨n.listenedEndpoint, node, target, data⟩

/-- `finally_execute_it(string data)`.  The parameter is a copy, so a command rewritten by the
executor goes into the history but not back to the caller. -/
def finallyExecuteIt (data : Cmd) : Node X :=
  let r := E.execute n.exe data
  { n with exe := r.state, commandHistory := n.commandHistory ++ [r.cmd] }

/-- Replace the set of those who have confirmed a command. -/
def setConfirmed (data : Cmd) (votes : Finset Endpoint) : Node X :=
  { n with toBeConfirmedCommands := Function.update n.toBeConfirmedCommands data votes }

/-- Replace the set of those who have committed to a command. -/
def setCommitted (data : Cmd) (votes : Finset Endpoint) : Node X :=
  { n with toBeCommittedCommands := Function.update n.toBeCommittedCommands data votes }

/-- The vote of `endpoint` in the tally of the confirmations of a command. -/
def confirmVote (endpoint : Endpoint) (data : Cmd) : Finset Endpoint × Bool :=
  Tally.vote n.quorum (n.toBeConfirmedCommands data) endpoint

/-- The vote of `endpoint` in the tally of the commits of a command. -/
def commitVote (endpoint : Endpoint) (data : Cmd) : Finset Endpoint × Bool :=
  Tally.vote n.quorum (n.toBeCommittedCommands data) endpoint

/-- `add_to_to_be_committed_commands`: with enough commits the command is executed. -/
def addToToBeCommittedCommands (endpoint : Endpoint) (data : Cmd) : Out X :=
  let v := n.commitVote endpoint data
  let n' := n.setCommitted data v.1
  if v.2 then { node := n'.finallyExecuteIt E data, executed := [data] } else { node := n' }

/-- `add_to_to_be_confirmed_commands`: with enough confirmations the node commits, to the others and
to itself. -/
def addToToBeConfirmedCommands (endpoint : Endpoint) (data : Cmd) : Out X :=
  let v := n.confirmVote endpoint data
  let n' := n.setConfirmed data v.1
  if v.2 then
    (n'.addToToBeCommittedCommands E n.listenedEndpoint data).after
      (n.boardcastToOtherSubs .pleaseCommitThis data)
  else { node := n' }

/-- `handle_commit_for_sub`. -/
def handleCommitForSub (endpoint : Endpoint) (data : Cmd) : Out X :=
  if n.viewChangeState then { node := n } else n.addToToBeCommittedCommands E endpoint data

/-- `handle_confirm_for_sub`. -/
def handleConfirmForSub (endpoint : Endpoint) (data : Cmd) : Out X :=
  if n.viewChangeState then { node := n } else n.addToToBeConfirmedCommands E endpoint data

/-- `handle_execute_for_sub1`: an order of the primary is confirmed, anything else comes from a
client and is forwarded. -/
def handleExecuteForSub1 (endpoint : Endpoint) (data : Cmd) : Out X :=
  if n.viewChangeState then { node := n }
  else if endpoint = n.primary then
    (n.addToToBeConfirmedCommands E n.listenedEndpoint data).after
      (n.boardcastToOtherSubs .pleaseConfirmThis data)
  else
    { node := n, sent := [⟨n.listenedEndpoint, n.primary, .pleaseExecuteThis, data⟩] }

/-- `handle_execute_for_primary1`.  The broadcast uses the caller's `data`. -/
def handleExecuteForPrimary1 (_endpoint : Endpoint) (data : Cmd) : Out X :=
  if n.viewChangeState then { node := n }
  else if data ∈ n.receivedCommands then { node := n }
  else
    { node := n.finallyExecuteIt E data
      sent := n.boardcastToOthers .pleaseExecuteThis data
      executed := [data]
      ordered := [data] }

/-- `ICnsssPrimaryBased::handle_execute`, the entry for local clients. -/
def handleExecute (endpoint : Endpoint) (data : Cmd) : Out X :=
  if n.isPrimary then n.handleExecuteForPrimary1 E endpoint data
  else n.handleExecuteForSub1 E endpoint data

/-- The handler registered for a target (`start_listening_as_primary`, `start_listening_as_sub`); a
datagram without a handler is dropped. -/
def receive (src : Endpoint) (target : Target) (data : Cmd) : Out X :=
  match n.role, target with
  | .primary, .pleaseExecuteThis => n.handleExecuteForPrimary1 E src data
  | .sub, .pleaseExecuteThis => n.handleExecuteForSub1 E src data
  | .sub, .pleaseConfirmThis => n.handleConfirmForSub E src data
  | .sub, .pleaseCommitThis => n.handleCommitForSub E src data
  | _, _ => { node := n }

end Node

/-! ### What a vote does -/

namespace Node

variable {X : Type*} {E : IForConsensusExecutable X} {n : Node X} {e : Endpoint} {c : Cmd}

theorem data_of_mem_boardcastToOtherSubs {t : Target} {c : Cmd} {p : Packet}
    (h : p ∈ n.boardcastToOtherSubs t c) :
    p.src = n.listenedEndpoint ∧ p.target = t ∧ p.data = c ∧ p.dst ≠ n.listenedEndpoint := by
  obtain ⟨sub, hsub, rfl⟩ := List.mem_map.1 h
  have hne := (List.mem_filter.1 hsub).2
  simp only [decide_eq_true_eq] at hne
  exact ⟨rfl, rfl, rfl, hne.1⟩

theorem data_of_mem_boardcastToOthers {t : Target} {c : Cmd} {p : Packet}
    (h : p ∈ n.boardcastToOthers t c) :
    p.src = n.listenedEndpoint ∧ p.target = t ∧ p.data = c := by
  obtain ⟨sub, -, rfl⟩ := List.mem_map.1 h
  exact ⟨rfl, rfl, rfl⟩

theorem confirmed_addToToBeCommittedCommands :
    (n.addToToBeCommittedCommands E e c).node.toBeConfirmedCommands = n.toBeConfirmedCommands := by
  unfold addToToBeCommittedCommands
  dsimp only
  split_ifs <;> rfl

theorem committed_addToToBeCommittedCommands :
    (n.addToToBeCommittedCommands E e c).node.toBeCommittedCommands =
      Function.update n.toBeCommittedCommands c (n.commitVote e c).1 := by
  unfold addToToBeCommittedCommands
  dsimp only
  split_ifs <;> rfl

theorem executed_addToToBeCommittedCommands :
    (n.addToToBeCommittedCommands E e c).executed =
      List.replicate (n.commitVote e c).2.toNat c := by
  unfold addToToBeCommittedCommands
  dsimp only
  split_ifs with h <;> simp [h]

theorem sent_addToToBeCommittedCommands : (n.addToToBeCommittedCommands E e c).sent = [] := by
  unfold addToToBeCommittedCommands
  dsimp only
  split_ifs <;> rfl

theorem addToToBeConfirmedCommands_of_fired (h : (n.confirmVote e c).2 = true) :
    n.addToToBeConfirmedCommands E e c =
      ((n.setConfirmed c (n.confirmVote e c).1).addToToBeCommittedCommands E n.listenedEndpoint
        c).after (n.boardcastToOtherSubs .pleaseCommitThis c) :=
  if_pos h

theorem addToToBeConfirmedCommands_of_not_fired (h : (n.confirmVote e c).2 = false) :
    n.addToToBeConfirmedCommands E e c = { node := n.setConfirmed c (n.confirmVote e c).1 } :=
  if_neg (by simp [h])

theorem confirmed_addToToBeConfirmedCommands :
    (n.addToToBeConfirmedCommands E e c).node.toBeConfirmedCommands =
      Function.update n.toBeConfirmedCommands c (n.confirmVote e c).1 := by
  cases h : (n.confirmVote e c).2 with
  | true =>
    rw [addToToBeConfirmedCommands_of_fired h, Out.after_node,
      confirmed_addToToBeCommittedCommands]
    rfl
  | false =>
    rw [addToToBeConfirmedCommands_of_not_fired h]
    rfl

theorem committed_addToToBeConfirmedCommands_of_ne {d : Cmd} (hd : d ≠ c) :
    (n.addToToBeConfirmedCommands E e c).node.toBeCommittedCommands d =
      n.toBeCommittedCommands d := by
  cases h : (n.confirmVote e c).2 with
  | true =>
    rw [addToToBeConfirmedCommands_of_fired h, Out.after_node,
      committed_addToToBeCommittedCommands, Function.update_of_ne hd]
    rfl
  | false =>
    rw [addToToBeConfirmedCommands_of_not_fired h]
    rfl

/-- A vote for a command executes no other command. -/
theorem count_executed_addToToBeCommittedCommands_of_ne {d : Cmd} (hd : d ≠ c) :
    (n.addToToBeCommittedCommands E e c).executed.count d = 0 := by
  rw [executed_addToToBeCommittedCommands, List.count_replicate, if_neg (by simpa using hd.symm)]

theorem count_executed_addToToBeConfirmedCommands_of_ne {d : Cmd} (hd : d ≠ c) :
    (n.addToToBeConfirmedCommands E e c).executed.count d = 0 := by
  cases h : (n.confirmVote e c).2 with
  | true =>
    rw [addToToBeConfirmedCommands_of_fired h, Out.after_executed]
    exact count_executed_addToToBeCommittedCommands_of_ne hd
  | false =>
    rw [addToToBeConfirmedCommands_of_not_fired h]
    rfl

/-- What a vote sends are votes to others. -/
theorem sent_addToToBeConfirmedCommands {p : Packet}
    (hp : p ∈ (n.addToToBeConfirmedCommands E e c).sent) :
    p ∈ n.boardcastToOtherSubs .pleaseCommitThis c := by
  cases h : (n.confirmVote e c).2 with
  | true =>
    rw [addToToBeConfirmedCommands_of_fired h, Out.after_sent, sent_addToToBeCommittedCommands,
      List.append_nil] at hp
    exact hp
  | false =>
    rw [addToToBeConfirmedCommands_of_not_fired h] at hp
    exact absurd hp List.not_mem_nil

end Node

end Rbft

end WeakChain
