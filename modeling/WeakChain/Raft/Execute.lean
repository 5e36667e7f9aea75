import WeakChain.Raft.Vote

/-!
# Executing commands over Raft

A primary executes a command and broadcasts it under `/pleaseExecute`; a sub forwards what comes
from anybody but its primary, under the same target, and executes what comes from its primary.  A
request does not say whether it is an order or has been forwarded: the receiver decides by who it
takes for the primary, and by then the roles may have changed.

`ExecGroup.source_of_executed` says where a command that a sub executes comes from: its primary has
executed and broadcast it, or has forwarded it to this very node, which it took for the primary.
-/

namespace WeakChain

namespace Raft

/-- A `/pleaseExecute` on its way. -/
structure Request where
  /-- The sender. -/
  src : Endpoint
  /-- The receiver. -/
  dst : Endpoint
  /-- The command. -/
  data : Cmd
  deriving DecidableEq

/-- Who calls `handle_execute`. -/
inductive Caller
  | client
  | sealer
  deriving DecidableEq

/-- The name under which it calls. -/
def Caller.name : Caller → Endpoint
  | .client => ascii "CLIENT"
  | .sealer => ascii "SEALER"

/-- A primary has executed a command and broadcast it. -/
structure Order where
  /-- The primary. -/
  host : Endpoint
  /-- The command it got. -/
  cmd : Cmd
  /-- The command as the executor left it, which is what is broadcast. -/
  sent : Cmd
  deriving DecidableEq

/-- What a handler leaves behind. -/
structure Served (X : Type*) where
  /-- The executor after the call. -/
  exe : X
  /-- The requests sent, in order. -/
  sent : List Request := []
  /-- What the node has executed as the primary. -/
  ordered : List Order := []
  /-- What the node has forwarded. -/
  forwarded : List Request := []
  /-- What the node has executed as a sub. -/
  executed : List Cmd := []
  /-- The returned string. -/
  reply : Option Bytes := none

namespace Node

variable {X : Type*} (E : IForConsensusExecutable X) (n : Node) (x : X)

/-- `is_primary`. -/
def isPrimary : Bool := n.primary == n.listenedEndpoint

/-- `handle_execute_for_primary`.  The executor may rewrite the command, and the others get it as it
left it. -/
def handleExecuteForPrimary (_endpoint : Endpoint) (data : Cmd) : Served X :=
  let r := E.execute x data
  { exe := r.state
    sent := n.others.map fun other => ⟨n.listenedEndpoint, other, r.cmd⟩
    ordered := [⟨n.listenedEndpoint, data, r.cmd⟩]
    reply := some (ascii "Done") }

/-- `handle_execute_for_sub`. -/
def handleExecuteForSub (endpoint : Endpoint) (data : Cmd) : Served X :=
  if endpoint ≠ n.primary then
    let r : Request := ⟨n.listenedEndpoint, n.primary, data⟩
    { exe := x, sent := [r], forwarded := [r], reply := some (ascii "forwarded to primary") }
  else { exe := (E.execute x data).state, executed := [data], reply := some (ascii "Done") }

/-- `ICnsssPrimaryBased::handle_execute`. -/
def handleExecute (endpoint : Endpoint) (data : Cmd) : Served X :=
  if n.isPrimary then n.handleExecuteForPrimary E x endpoint data
  else n.handleExecuteForSub E x endpoint data

/-- `handle_pleaseExecute`: without a primary the request is dropped. -/
def handlePleaseExecute (src : Endpoint) (data : Cmd) : Served X :=
  if n.primary = [] then { exe := x }
  else { n.handleExecute E x src data with reply := none }

end Node

/-- A group that executes commands. -/
structure ExecGroup (X : Type*) extends Group where
  /-- The program every executor runs. -/
  exe : IForConsensusExecutable X
  /-- The executor of each node at the start. -/
  exe₀ : Endpoint → X
  /-- No node has the name of a local caller. -/
  name_notMem : ∀ c : Caller, c.name ∉ members

/-- The nodes with their executors and the requests, with the history of what has been executed. -/
structure Ledger (X : Type*) where
  /-- The nodes, and the messages of the elections. -/
  cluster : Cluster
  /-- The executors. -/
  exe : Endpoint → X
  /-- The requests on their way. -/
  requests : List Request := []
  /-- What primaries have executed and broadcast. -/
  orders : List Order := []
  /-- What subs have forwarded. -/
  forwards : List Request := []
  /-- What subs have executed: from whom, where, and what. -/
  executions : List Request := []

namespace Ledger

/-- What can happen. -/
inductive Event
  /-- Something happens in the elections. -/
  | raft (l : Raft.Event)
  /-- Somebody calls `handle_execute` at the node `i`. -/
  | call (i : Endpoint) (c : Caller) (data : Cmd)
  /-- The network delivers a request. -/
  | deliver (r : Request)
  deriving DecidableEq

variable {X : Type*} (s : Ledger X)

/-- Install what a handler of node `i` left behind, which was called in the name of `endpoint`. -/
def apply (i endpoint : Endpoint) (o : Served X) : Ledger X :=
  { s with
    exe := Function.update s.exe i o.exe
    requests := s.requests ++ o.sent
    orders := s.orders ++ o.ordered
    forwards := s.forwards ++ o.forwarded
    executions := s.executions ++ o.executed.map fun data => ⟨endpoint, i, data⟩ }

/-- Take a request out of the network. -/
def take (r : Request) : Ledger X := { s with requests := s.requests.erase r }

/-- A command comes from a node: the node has executed and broadcast it as the primary, or it has
forwarded it to `i`. -/
def Source (src i : Endpoint) (data : Cmd) : Prop :=
  (∃ o ∈ s.orders, o.host = src ∧ o.sent = data) ∨ ⟨src, i, data⟩ ∈ s.forwards

end Ledger

namespace ExecGroup

variable {X : Type*} (G : ExecGroup X)

/-- Which events may happen.  A request that is never delivered is lost. -/
def Enabled (s : Ledger X) : Ledger.Event → Prop
  | .raft l => G.toGroup.Enabled s.cluster l
  | .call i _ _ => i ∈ G.members
  | .deliver r => r ∈ s.requests ∧ r.dst ∈ G.members

instance (s : Ledger X) (l : Ledger.Event) : Decidable (G.Enabled s l) :=
  match l with
  | .raft l => inferInstanceAs (Decidable (G.toGroup.Enabled s.cluster l))
  | .call _ _ _ => inferInstanceAs (Decidable (_ ∈ _))
  | .deliver _ => inferInstanceAs (Decidable (_ ∧ _))

/-- The effect of an event. -/
def act (s : Ledger X) : Ledger.Event → Ledger X
  | .raft l => { s with cluster := Group.act s.cluster l }
  | .call i c data =>
    s.apply i c.name ((s.cluster.node i).handleExecute G.exe (s.exe i) c.name data)
  | .deliver r =>
    (s.take r).apply r.dst r.src
      ((s.cluster.node r.dst).handlePleaseExecute G.exe (s.exe r.dst) r.src r.data)

/-- The group as a system. -/
def sys : Sys (Ledger X) Ledger.Event where
  init s := ∃ rand, s = { cluster := ⟨G.toGroup.start rand, [], [], []⟩, exe := G.exe₀ }
  enabled := G.Enabled
  act := G.act

instance (s : Ledger X) (l : Ledger.Event) : Decidable (G.sys.enabled s l) :=
  inferInstanceAs (Decidable (G.Enabled s l))

end ExecGroup

/-! ### Who can be a primary -/

namespace Node

variable {n : Node}

/-- A node sends in its own name. -/
theorem Does.src_of_mem_sent {i : Input} {o : Out} (h : n.Does i o) {p : Packet} (hp : p ∈ o.sent) :
    p.src = n.listenedEndpoint := by
  have hothers : ∀ msg, p ∈ n.sendToOthers msg → p.src = n.listenedEndpoint := by
    intro msg hp
    obtain ⟨other, -, rfl⟩ := List.mem_map.1 hp
    rfl
  cases h with
  | complain rand hself hpatience => exact hothers _ hp
  | win src rand hwin => exact hothers _ hp
  | beat hself => exact hothers _ hp
  | vote src term rand hterm hvoted => rw [List.mem_singleton.1 hp]
  | quiet i patience => exact absurd hp List.not_mem_nil
  | count src rand hfew => exact absurd hp List.not_mem_nil
  | follow src term rand hterm => exact absurd hp List.not_mem_nil
  | reset => exact absurd hp List.not_mem_nil

/-- A node takes for its primary whom it did before, or itself, or the sender of a message. -/
theorem Does.primary {i : Input} {o : Out} (h : n.Does i o) :
    o.node.primary = n.primary ∨ o.node.primary = n.listenedEndpoint ∨
      ∃ src msg rand, i = .receive src msg rand ∧ o.node.primary = src := by
  cases h with
  | win src rand hwin => exact .inr (.inl rfl)
  | follow src term rand hterm => exact .inr (.inr ⟨_, _, _, rfl, rfl⟩)
  | quiet i patience => exact .inl rfl
  | complain rand hself hpatience => exact .inl rfl
  | vote src term rand hterm hvoted => exact .inl rfl
  | count src rand hfew => exact .inl rfl
  | reset => exact .inl rfl
  | beat hself => exact .inl rfl

end Node

namespace Group

variable {G : Group}

variable (G) in
/-- Messages come from members, and so do primaries. -/
structure Known (c : Cluster) : Prop where
  src_mem : ∀ p ∈ c.flying, p.src ∈ G.members
  primary_mem : ∀ i, (c.node i).primary = [] ∨ (c.node i).primary ∈ G.members

theorem mem_of_enabled {c : Cluster} {l : Event} (h : G.Enabled c l) : l.input.1 ∈ G.members := by
  cases l with
  | tick i rand => exact h
  | startBeingPrimary i => exact h.1
  | beat i => exact h
  | deliver p rand => exact h.2

theorem known_of_reach {c : Cluster} (h : G.sys.Reach c) : G.Known c := by
  refine h.invariant ?_ ?_
  · rintro _ ⟨rand, rfl⟩
    exact ⟨nofun, fun i => .inl rfl⟩
  · intro c l hr hknown hl
    have hmem := mem_of_enabled hl
    have hself := (frame_of_reach hr l.input.1).1
    have hdoes := (c.node l.input.1).does_handle l.input.2
    change G.Known (Group.act c l)
    rw [act_eq]
    refine ⟨?_, ?_⟩
    · intro p hp
      rcases List.mem_append.1 hp with hp | hp
      · exact hknown.src_mem p (flying_taken_subset c l hp)
      · rw [hdoes.src_of_mem_sent hp, hself]
        exact hmem
    · intro i
      by_cases hi : i = l.input.1
      · rw [hi, node_apply_self]
        rcases hdoes.primary with hold | hown | hmsg
        · rw [hold]
          exact hknown.primary_mem _
        · rw [hown, hself]
          exact .inr hmem
        · obtain ⟨src, msg, rand, hinput, hprimary⟩ := hmsg
          rw [hprimary]
          -- the sender of a message on its way
          cases l with
          | deliver p rand' =>
            obtain ⟨rfl, -, -⟩ := Input.receive.inj hinput
            exact .inr (hknown.src_mem p hl.1)
          | tick j rand' => cases hinput
          | startBeingPrimary j => cases hinput
          | beat j => cases hinput
      · rw [node_apply_of_ne _ hi, (taken_node c l).1]
        exact hknown.primary_mem i

end Group

/-! ### Where commands come from -/

namespace Node

variable {X : Type*} {E : IForConsensusExecutable X} {n : Node} {x : X}

/-- Everything that is sent is an order or is forwarded. -/
theorem source_of_mem_sent {endpoint : Endpoint} {data : Cmd} {r : Request}
    (h : r ∈ (n.handleExecute E x endpoint data).sent) :
    (∃ o ∈ (n.handleExecute E x endpoint data).ordered, o.host = r.src ∧ o.sent = r.data) ∨
      r ∈ (n.handleExecute E x endpoint data).forwarded := by
  unfold handleExecute handleExecuteForPrimary handleExecuteForSub at h ⊢
  split_ifs at h ⊢ with hprimary hne
  · obtain ⟨other, -, rfl⟩ := List.mem_map.1 h
    exact .inl ⟨_, List.mem_singleton_self _, rfl, rfl⟩
  · exact .inr h
  · exact absurd h List.not_mem_nil

/-- A sub executes what comes from its primary. -/
theorem eq_primary_of_mem_executed {endpoint : Endpoint} {data d : Cmd}
    (h : d ∈ (n.handleExecute E x endpoint data).executed) : d = data ∧ endpoint = n.primary := by
  unfold handleExecute handleExecuteForPrimary handleExecuteForSub at h
  split_ifs at h with hprimary hne
  · exact absurd h List.not_mem_nil
  · exact absurd h List.not_mem_nil
  · exact ⟨List.mem_singleton.1 h, not_not.1 hne⟩

end Node

theorem Ledger.Source.apply {X : Type*} {s : Ledger X} {src dst : Endpoint} {data : Cmd}
    (h : s.Source src dst data) (i endpoint : Endpoint) (o : Served X) :
    (s.apply i endpoint o).Source src dst data := by
  rcases h with ⟨ord, hord, heq⟩ | hfwd
  · exact .inl ⟨ord, List.mem_append_left _ hord, heq⟩
  · exact .inr (List.mem_append_left _ hfwd)

namespace ExecGroup

variable {X : Type*} {G : ExecGroup X}

variable (G) in
/-- Everything on its way and everything that has been executed comes from somewhere. -/
structure Sourced (s : Ledger X) : Prop where
  cluster : G.toGroup.sys.Reach s.cluster
  request : ∀ r ∈ s.requests, s.Source r.src r.dst r.data
  execution : ∀ e ∈ s.executions, s.Source e.src e.dst e.data

/-- **A handler keeps this**, if what it executes comes from somewhere. -/
theorem Sourced.apply {s : Ledger X} (h : G.Sourced s) {i endpoint : Endpoint} {o : Served X}
    (hsent : ∀ r ∈ o.sent, (∃ ord ∈ o.ordered, ord.host = r.src ∧ ord.sent = r.data) ∨
      r ∈ o.forwarded)
    (hexec : ∀ d ∈ o.executed, s.Source endpoint i d) : G.Sourced (s.apply i endpoint o) := by
  refine ⟨h.cluster, ?_, ?_⟩
  · intro r hr
    rcases List.mem_append.1 hr with hr | hr
    · exact (h.request r hr).apply _ _ _
    · rcases hsent r hr with ⟨ord, hord, heq⟩ | hfwd
      · exact .inl ⟨ord, List.mem_append_right _ hord, heq⟩
      · exact .inr (List.mem_append_right _ hfwd)
  · intro e he
    rcases List.mem_append.1 he with he | he
    · exact (h.execution e he).apply _ _ _
    · obtain ⟨d, hd, rfl⟩ := List.mem_map.1 he
      exact (hexec d hd).apply _ _ _

theorem Sourced.call {s : Ledger X} (h : G.Sourced s) (i : Endpoint) (c : Caller) (data : Cmd) :
    G.Sourced (G.act s (.call i c data)) := by
  refine h.apply (fun r hr => Node.source_of_mem_sent hr) ?_
  intro d hd
  -- a local caller is nobody's primary
  have hname : c.name = (s.cluster.node i).primary := (Node.eq_primary_of_mem_executed hd).2
  rcases (Group.known_of_reach h.cluster).primary_mem i with hnil | hmem
  · rw [hnil] at hname
    cases c <;> cases hname
  · rw [← hname] at hmem
    exact absurd hmem (G.name_notMem c)

theorem Sourced.deliver {s : Ledger X} (h : G.Sourced s) {r : Request} (hr : r ∈ s.requests) :
    G.Sourced (G.act s (.deliver r)) := by
  have htake : G.Sourced (s.take r) :=
    ⟨h.cluster, fun r' hr' => h.request r' (List.mem_of_mem_erase hr'), h.execution⟩
  change G.Sourced ((s.take r).apply r.dst r.src
    ((s.cluster.node r.dst).handlePleaseExecute G.exe (s.exe r.dst) r.src r.data))
  unfold Node.handlePleaseExecute
  split_ifs with hnil
  · exact htake.apply nofun nofun
  · refine htake.apply (fun r' hr' => Node.source_of_mem_sent hr') ?_
    intro d hd
    rw [(Node.eq_primary_of_mem_executed hd).1]
    exact h.request r hr

/-- **Where an executed command comes from.**  In every run of a Raft cluster of honest nodes, with
any timeouts and any loss, delay and reordering of messages: whenever a node executes a command in
`handle_execute_for_sub`, because it came from its primary, then that node has executed the command
in `handle_execute_for_primary` and broadcast it as its executor left it, or it has forwarded it to
this node, which it took for the primary. -/
theorem source_of_executed {s : Ledger X} (hs : G.sys.Reach s) {e : Request}
    (he : e ∈ s.executions) :
    (∃ o ∈ s.orders, o.host = e.src ∧ o.sent = e.data) ∨ e ∈ s.forwards := by
  have hsourced : G.Sourced s := by
    refine hs.invariant ?_ ?_
    · rintro _ ⟨rand, rfl⟩
      exact ⟨.init ⟨rand, rfl⟩, nofun, nofun⟩
    · intro s l _ h hl
      cases l with
      | raft l => exact ⟨.act h.cluster hl, h.request, h.execution⟩
      | call i c data => exact h.call i c data
      | deliver r => exact h.deliver hl.1
  exact hsourced.execution e he

end ExecGroup

/-- A group of two, whose executors leave the commands alone. -/
def mockExecGroup : ExecGroup Unit where
  members := [ascii "A", ascii "B"]
  nodup := by decide
  exe := mockExecutable
  exe₀ _ := ()
  name_notMem c := by cases c <;> decide

namespace ExecGroup

/-- `i` loses its patience, and the only other node votes for it and follows it. -/
def election (i j : Endpoint) (term : ℤ) : List Ledger.Event :=
  List.replicate 6 (.raft (.tick i 0)) ++
    [.raft (.deliver ⟨i, j, .pleaseVoteMe term⟩ 0), .raft (.deliver ⟨j, i, .voteForYou term⟩ 0),
      .raft (.deliver ⟨i, j, .iAmThePrimary term⟩ 0)]

/-- `B` forwards a command to the primary `A`, which executes it and sends it back to `B`. -/
theorem source_of_executed_two :
    ∃ s, mockExecGroup.sys.Reach s ∧ ∃ e ∈ s.executions, e.src = ascii "A" ∧ e.dst = ascii "B" ∧
      ((∃ o ∈ s.orders, o.host = e.src ∧ o.sent = e.data) ∨ e ∈ s.forwards) := by
  let A := ascii "A"
  let B := ascii "B"
  obtain ⟨s, hs, he⟩ := Sys.exists_reach_of_exec (A := mockExecGroup.sys)
    (s := { cluster := ⟨mockExecGroup.toGroup.start fun _ => 0, [], [], []⟩, exe := fun _ => () })
    (P := fun s => (⟨A, B, ascii "cmd"⟩ : Request) ∈ s.executions) ⟨fun _ => 0, rfl⟩
    (election A B 1 ++ [.call B .client (ascii "cmd"), .deliver ⟨B, A, ascii "cmd"⟩,
      .deliver ⟨A, B, ascii "cmd"⟩]) (by decide +kernel)
  exact ⟨s, hs, _, he, rfl, rfl, source_of_executed hs he⟩

/-- `B` forwards a command to the primary `A`.  Before it arrives `B` wins the next term, and `A`
follows it: then `A` executes the command, which `B` has never executed. -/
theorem not_ordered_of_executed :
    ¬∀ s, mockExecGroup.sys.Reach s → ∀ e ∈ s.executions,
      ∃ o ∈ s.orders, o.host = e.src ∧ o.sent = e.data := by
  intro hall
  let A := ascii "A"
  let B := ascii "B"
  obtain ⟨s, hs, he, hnone⟩ := Sys.exists_reach_of_exec (A := mockExecGroup.sys)
    (s := { cluster := ⟨mockExecGroup.toGroup.start fun _ => 0, [], [], []⟩, exe := fun _ => () })
    (P := fun s => (⟨B, A, ascii "cmd"⟩ : Request) ∈ s.executions ∧ s.orders = []) ⟨fun _ => 0, rfl⟩
    (election A B 1 ++ .call B .client (ascii "cmd") :: election B A 2 ++
      [.deliver ⟨B, A, ascii "cmd"⟩]) (by decide +kernel)
  obtain ⟨o, ho, -⟩ := hall s hs _ he
  rw [hnone] at ho
  exact absurd ho List.not_mem_nil

end ExecGroup

end Raft

end WeakChain
