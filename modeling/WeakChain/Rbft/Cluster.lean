import WeakChain.Rbft.Node
import WeakChain.Lib.Run
import Mathlib.Data.List.GetD

/-!
# A cluster in one view

`View` fixes what does not change while a view lasts: the members, the epoch, which members are
faulty, and the executors.  `View.sys` is the system of its honest nodes and the network.  The
network keeps every datagram ever sent and may deliver any of them at any time and any number of
times; a faulty member sends what it likes to whom it likes, in its own name only; an outsider (a
client) may send `/pleaseExecuteThis`.

The handlers only touch the votes, the history and the executor of a node, so its identity, its
membership list, its epoch and its role stay what they were (`Node.frame`, `View.frame_of_reach`).
-/

namespace WeakChain

namespace Rbft

namespace Node

variable {X : Type*} {E : IForConsensusExecutable X} {n : Node X}

/-- The second node is the first with other votes, another history and another executor. -/
def WithinView (n n' : Node X) : Prop :=
  ∃ confirmed committed history exe, n' =
    { n with
      toBeConfirmedCommands := confirmed
      toBeCommittedCommands := committed
      commandHistory := history
      exe := exe }

theorem WithinView.refl (n : Node X) : WithinView n n := ⟨_, _, _, _, rfl⟩

theorem withinView_addToToBeCommittedCommands (e : Endpoint) (data : Cmd) :
    WithinView n (n.addToToBeCommittedCommands E e data).node := by
  unfold addToToBeCommittedCommands
  dsimp only
  split_ifs <;> exact ⟨_, _, _, _, rfl⟩

theorem withinView_addToToBeConfirmedCommands (e : Endpoint) (data : Cmd) :
    WithinView n (n.addToToBeConfirmedCommands E e data).node := by
  unfold addToToBeConfirmedCommands
  dsimp only
  split_ifs
  · -- the node commits as well
    obtain ⟨_, _, _, _, h⟩ := withinView_addToToBeCommittedCommands (E := E)
      (n := n.setConfirmed data (n.confirmVote e data).1) n.listenedEndpoint data
    exact ⟨_, _, _, _, h⟩
  · exact ⟨_, _, _, _, rfl⟩

theorem withinView_handleExecuteForSub1 (e : Endpoint) (data : Cmd) :
    WithinView n (n.handleExecuteForSub1 E e data).node := by
  unfold handleExecuteForSub1
  split_ifs
  · exact .refl n
  · exact withinView_addToToBeConfirmedCommands _ _
  · exact .refl n

theorem withinView_handleExecuteForPrimary1 (e : Endpoint) (data : Cmd) :
    WithinView n (n.handleExecuteForPrimary1 E e data).node := by
  unfold handleExecuteForPrimary1
  split_ifs
  · exact .refl n
  · exact .refl n
  · exact ⟨_, _, _, _, rfl⟩

theorem withinView_handleExecute (e : Endpoint) (data : Cmd) :
    WithinView n (n.handleExecute E e data).node := by
  unfold handleExecute
  split_ifs
  · exact withinView_handleExecuteForPrimary1 e data
  · exact withinView_handleExecuteForSub1 e data

theorem withinView_receive (src : Endpoint) (target : Target) (data : Cmd) :
    WithinView n (n.receive E src target data).node := by
  unfold receive
  split
  · exact withinView_handleExecuteForPrimary1 _ _
  · exact withinView_handleExecuteForSub1 _ _
  · unfold handleConfirmForSub
    split_ifs
    · exact .refl n
    · exact withinView_addToToBeConfirmedCommands _ _
  · unfold handleCommitForSub
    split_ifs
    · exact .refl n
    · exact withinView_addToToBeCommittedCommands _ _
  · exact .refl n

/-- The part of a node that lasts for the whole view. -/
def frame (n : Node X) : Endpoint × List Endpoint × ℤ × Bool × Role :=
  (n.listenedEndpoint, n.allEndpoints, n.epoch, n.viewChangeState, n.role)

theorem WithinView.frame_eq {n' : Node X} (h : WithinView n n') : n'.frame = n.frame := by
  obtain ⟨_, _, _, _, rfl⟩ := h
  rfl

theorem frame_handleExecute (e : Endpoint) (data : Cmd) :
    (n.handleExecute E e data).node.frame = n.frame := (withinView_handleExecute e data).frame_eq

theorem frame_receive (src : Endpoint) (target : Target) (data : Cmd) :
    (n.receive E src target data).node.frame = n.frame :=
  (withinView_receive src target data).frame_eq

end Node

/-- What is fixed while a view lasts. -/
structure View (X : Type*) where
  /-- The members (`all_endpoints`). -/
  members : List Endpoint
  /-- The epoch. -/
  epoch : ℤ
  /-- The members that need not follow the protocol. -/
  faulty : Finset Endpoint
  /-- Only members can be faulty. -/
  faulty_mem : ∀ e ∈ faulty, e ∈ members
  /-- The program every executor runs. -/
  exe : IForConsensusExecutable X
  /-- The executor of each node when the view starts. -/
  exe₀ : Endpoint → X
  /-- The command history when the view starts. -/
  history₀ : List Cmd

/-- The nodes and the network, with the history of what has happened so far. -/
structure Cluster (X : Type*) where
  /-- The nodes (only those of honest members matter). -/
  node : Endpoint → Node X
  /-- Every datagram sent so far. -/
  sent : List Packet
  /-- The datagrams delivered so far, latest first. -/
  delivered : List Packet
  /-- The calls of `finally_execute_it`, by node. -/
  executed : List (Endpoint × Cmd)
  /-- The commands an honest primary has broadcast under `/pleaseExecuteThis`. -/
  ordered : List Cmd

/-- What can happen. -/
inductive Event
  /-- A client calls `handle_execute` at the node `dst`, giving `src` as its name. -/
  | client (dst src : Endpoint) (data : Cmd)
  /-- The network delivers a datagram. -/
  | deliver (p : Packet)
  /-- A faulty member or an outsider sends a datagram. -/
  | inject (p : Packet)
  deriving DecidableEq

namespace View

variable {X : Type*} (V : View X)

/-- The size of the group. -/
def N : ℕ := V.members.length

/-- The number of faulty members the group is made for. -/
def f : ℕ := (V.N - 1) / 3

/-- The votes a command needs. -/
def quorum : ℕ := V.N - 1 - V.f

/-- The primary of the view. -/
def primary : Endpoint := V.members.getD ((V.epoch % 2 ^ 64).toNat % V.N) []

/-- `i` is a member that follows the protocol. -/
def Honest (i : Endpoint) : Prop := i ∈ V.members ∧ i ∉ V.faulty

/-- `i` is an honest member other than the primary. -/
def HonestSub (i : Endpoint) : Prop := V.Honest i ∧ i ≠ V.primary

instance (i : Endpoint) : Decidable (V.Honest i) := inferInstanceAs (Decidable (_ ∧ _))

instance (i : Endpoint) : Decidable (V.HonestSub i) := inferInstanceAs (Decidable (_ ∧ _))

/-- A node at the start of the view: no votes yet. -/
def start (i : Endpoint) : Node X where
  listenedEndpoint := i
  allEndpoints := V.members
  epoch := V.epoch
  viewChangeState := false
  role := if V.primary = i then .primary else .sub
  toBeConfirmedCommands := fun _ => ∅
  toBeCommittedCommands := fun _ => ∅
  receivedCommands := ∅
  commandHistory := V.history₀
  exe := V.exe₀ i

/-- The cluster at the start of the view. -/
def init : Cluster X := ⟨V.start, [], [], [], []⟩

/-- Install what a handler of node `i` left behind. -/
def apply (s : Cluster X) (i : Endpoint) (o : Out X) : Cluster X where
  node := Function.update s.node i o.node
  sent := s.sent ++ o.sent
  delivered := s.delivered
  executed := s.executed ++ o.executed.map fun c => (i, c)
  ordered := s.ordered ++ o.ordered

/-- Which events may happen. -/
def Enabled (s : Cluster X) : Event → Prop
  | .client dst src _ => V.Honest dst ∧ src ∉ V.members
  | .deliver p => p ∈ s.sent ∧ V.Honest p.dst
  | .inject p => p.src ∈ V.faulty ∨ p.src ∉ V.members ∧ p.target = .pleaseExecuteThis

instance (s : Cluster X) (l : Event) : Decidable (V.Enabled s l) :=
  match l with
  | .client _ _ _ => inferInstanceAs (Decidable (_ ∧ _))
  | .deliver _ => inferInstanceAs (Decidable (_ ∧ _))
  | .inject _ => inferInstanceAs (Decidable (_ ∨ _))

/-- The effect of an event. -/
def act (s : Cluster X) : Event → Cluster X
  | .client dst src data => apply s dst ((s.node dst).handleExecute V.exe src data)
  | .deliver p =>
    { apply s p.dst ((s.node p.dst).receive V.exe p.src p.target p.data) with
      delivered := p :: s.delivered }
  | .inject p => { s with sent := s.sent ++ [p] }

/-- The cluster as a system. -/
def sys : Sys (Cluster X) Event where
  init s := s = V.init
  enabled := V.Enabled
  act := V.act

instance (s : Cluster X) (l : Event) : Decidable (V.sys.enabled s l) :=
  inferInstanceAs (Decidable (V.Enabled s l))

variable {V}

/-- Every node keeps the frame it started with. -/
theorem frame_of_reach {s : Cluster X} (h : V.sys.Reach s) (i : Endpoint) :
    (s.node i).frame = (V.start i).frame := by
  refine h.invariant (I := fun s => ∀ i, (s.node i).frame = (V.start i).frame)
    (fun s hs i => by rw [hs]; rfl) ?_ i
  intro s l _ ih _ i
  cases l with
  | client dst src data =>
    change (Function.update s.node dst _ i).frame = _
    by_cases hi : i = dst
    · subst hi
      rw [Function.update_self, Node.frame_handleExecute, ih]
    · rw [Function.update_of_ne hi, ih]
  | deliver p =>
    change (Function.update s.node p.dst _ i).frame = _
    by_cases hi : i = p.dst
    · subst hi
      rw [Function.update_self, Node.frame_receive, ih]
    · rw [Function.update_of_ne hi, ih]
  | inject p => exact ih i

/-! ### What an event does -/

/-- The bookkeeping of a delivery. -/
def mark : Event → Cluster X → Cluster X
  | .deliver p, s => { s with delivered := p :: s.delivered }
  | _, s => s

variable (V) in
/-- A command reaches the primary. -/
def ToPrimary : Event → Prop
  | .client dst _ _ => dst = V.primary
  | .deliver p => p.dst = V.primary ∧ p.target = .pleaseExecuteThis
  | .inject _ => False

instance (l : Event) : Decidable (V.ToPrimary l) :=
  match l with
  | .client _ _ _ => inferInstanceAs (Decidable (_ = _))
  | .deliver _ => inferInstanceAs (Decidable (_ ∧ _))
  | .inject _ => inferInstanceAs (Decidable False)

variable (V) in
/-- Everything an enabled event can do in a reachable state, guards included. -/
inductive Effect (s : Cluster X) : Event → Cluster X → Prop
  /-- A faulty member or an outsider sends. -/
  | inject (p : Packet)
      (h : p.src ∈ V.faulty ∨ p.src ∉ V.members ∧ p.target = .pleaseExecuteThis) :
      Effect s (.inject p) { s with sent := s.sent ++ [p] }
  /-- A datagram or a request that is ignored. -/
  | idle (l : Event) : Effect s l (mark l s)
  /-- A sub passes a request on. -/
  | forward (l : Event) (i : Endpoint) (c : Cmd) (hi : V.HonestSub i) :
      Effect s l (mark l (apply s i
        { node := s.node i, sent := [⟨i, V.primary, .pleaseExecuteThis, c⟩] }))
  /-- The primary executes a command and broadcasts it. -/
  | execute (l : Event) (c : Cmd) (hp : V.Honest V.primary) (hl : V.ToPrimary l) :
      Effect s l (mark l (apply s V.primary
        { node := (s.node V.primary).finallyExecuteIt V.exe c
          sent := (s.node V.primary).boardcastToOthers .pleaseExecuteThis c
          executed := [c]
          ordered := [c] }))
  /-- A sub gets an order of the primary. -/
  | order (i : Endpoint) (c : Cmd) (hi : V.HonestSub i)
      (hm : ⟨V.primary, i, .pleaseExecuteThis, c⟩ ∈ s.sent) :
      Effect s (.deliver ⟨V.primary, i, .pleaseExecuteThis, c⟩)
        (mark (.deliver ⟨V.primary, i, .pleaseExecuteThis, c⟩) (apply s i
          (((s.node i).addToToBeConfirmedCommands V.exe i c).after
            ((s.node i).boardcastToOtherSubs .pleaseConfirmThis c))))
  /-- A sub gets a confirmation. -/
  | confirm (i e : Endpoint) (c : Cmd) (hi : V.HonestSub i)
      (hm : ⟨e, i, .pleaseConfirmThis, c⟩ ∈ s.sent) :
      Effect s (.deliver ⟨e, i, .pleaseConfirmThis, c⟩)
        (mark (.deliver ⟨e, i, .pleaseConfirmThis, c⟩)
          (apply s i ((s.node i).addToToBeConfirmedCommands V.exe e c)))
  /-- A sub gets a commit. -/
  | commit (i e : Endpoint) (c : Cmd) (hi : V.HonestSub i)
      (hm : ⟨e, i, .pleaseCommitThis, c⟩ ∈ s.sent) :
      Effect s (.deliver ⟨e, i, .pleaseCommitThis, c⟩)
        (mark (.deliver ⟨e, i, .pleaseCommitThis, c⟩)
          (apply s i ((s.node i).addToToBeCommittedCommands V.exe e c)))

section Frame

variable {s : Cluster X} (h : V.sys.Reach s) (i : Endpoint)
include h

theorem listenedEndpoint_of_reach : (s.node i).listenedEndpoint = i :=
  congrArg (·.1) (frame_of_reach h i)

theorem allEndpoints_of_reach : (s.node i).allEndpoints = V.members :=
  congrArg (·.2.1) (frame_of_reach h i)

theorem epoch_of_reach : (s.node i).epoch = V.epoch := congrArg (·.2.2.1) (frame_of_reach h i)

theorem viewChangeState_of_reach : (s.node i).viewChangeState = false :=
  congrArg (·.2.2.2.1) (frame_of_reach h i)

theorem role_of_reach : (s.node i).role = if V.primary = i then .primary else .sub :=
  congrArg (·.2.2.2.2) (frame_of_reach h i)

theorem primary_of_reach : (s.node i).primary = V.primary := by
  simp only [Node.primary, Node.N, allEndpoints_of_reach h, epoch_of_reach h]
  rfl

theorem quorum_of_reach : (s.node i).quorum = V.quorum := by
  simp only [Node.quorum, Node.f, Node.N, allEndpoints_of_reach h]
  rfl

end Frame

theorem apply_self (s : Cluster X) (i : Endpoint) : apply s i { node := s.node i } = s := by
  simp [apply]

section Inversion

variable {s : Cluster X} (h : V.sys.Reach s)
include h

theorem effect_handleExecuteForPrimary1 {l : Event} (hp : V.Honest V.primary)
    (hl : V.ToPrimary l) (e : Endpoint) (c : Cmd) :
    V.Effect s l (mark l (apply s V.primary
      ((s.node V.primary).handleExecuteForPrimary1 V.exe e c))) := by
  unfold Node.handleExecuteForPrimary1
  rw [viewChangeState_of_reach h]
  simp only [Bool.false_eq_true, ↓reduceIte]
  split_ifs with hc
  · rw [apply_self]
    exact .idle l
  · exact .execute l c hp hl

theorem effect_client {dst src : Endpoint} {c : Cmd} (hi : V.Honest dst)
    (hsrc : src ∉ V.members) (hp : V.primary ∈ V.members) :
    V.Effect s (.client dst src c) (V.act s (.client dst src c)) := by
  change V.Effect s _ (mark (.client dst src c) (apply s dst _))
  unfold Node.handleExecute Node.isPrimary
  rw [viewChangeState_of_reach h, primary_of_reach h, listenedEndpoint_of_reach h]
  by_cases hd : V.primary = dst
  · subst hd
    simpa using effect_handleExecuteForPrimary1 h hi (l := .client _ src c) rfl src c
  -- a client is not the primary, so the sub forwards what it says
  · have hne : src ≠ V.primary := fun he => hsrc (he ▸ hp)
    have hsub : V.HonestSub dst := ⟨hi, fun he => hd he.symm⟩
    simp only [Bool.not_false, Bool.true_and, beq_iff_eq, hd, ↓reduceIte,
      Node.handleExecuteForSub1, viewChangeState_of_reach h, Bool.false_eq_true,
      primary_of_reach h, hne, listenedEndpoint_of_reach h]
    exact .forward _ dst c hsub

theorem effect_deliver {p : Packet} (hm : p ∈ s.sent) (hi : V.Honest p.dst) :
    V.Effect s (.deliver p) (V.act s (.deliver p)) := by
  change V.Effect s _ (mark (.deliver p) (apply s p.dst _))
  obtain ⟨src, i, target, c⟩ := p
  unfold Node.receive
  rw [role_of_reach h]
  by_cases hd : V.primary = i
  · subst hd
    simp only [↓reduceIte]
    cases target with
    | pleaseExecuteThis =>
      exact effect_handleExecuteForPrimary1 h hi
        (l := .deliver ⟨src, V.primary, .pleaseExecuteThis, c⟩) ⟨rfl, rfl⟩ src c
    | pleaseConfirmThis => rw [apply_self]; exact .idle _
    | pleaseCommitThis => rw [apply_self]; exact .idle _
  · have hsub : V.HonestSub i := ⟨hi, fun he => hd he.symm⟩
    simp only [hd, ↓reduceIte]
    cases target with
    | pleaseExecuteThis =>
      simp only [Node.handleExecuteForSub1, viewChangeState_of_reach h, primary_of_reach h,
        listenedEndpoint_of_reach h, Bool.false_eq_true, ↓reduceIte]
      split_ifs with hsrc
      · subst hsrc
        exact .order i c hsub hm
      · exact .forward _ i c hsub
    | pleaseConfirmThis =>
      simp only [Node.handleConfirmForSub, viewChangeState_of_reach h, Bool.false_eq_true,
        ↓reduceIte]
      exact .confirm i src c hsub hm
    | pleaseCommitThis =>
      simp only [Node.handleCommitForSub, viewChangeState_of_reach h, Bool.false_eq_true,
        ↓reduceIte]
      exact .commit i src c hsub hm

/-- **What an event can do**, in a view whose primary is one of its members. -/
theorem effect_of_enabled {l : Event} (hp : V.primary ∈ V.members) (hl : V.Enabled s l) :
    V.Effect s l (V.act s l) := by
  cases l with
  | client dst src c => exact effect_client h hl.1 hl.2 hp
  | deliver p => exact effect_deliver h hl.1 hl.2
  | inject p => exact .inject p hl

end Inversion

/-- The view in which every node runs `mock::Executable`, for concrete runs. -/
def mockView (members : List Endpoint) (faulty : Finset Endpoint)
    (h : ∀ e ∈ faulty, e ∈ members) : View Unit where
  members := members
  epoch := 0
  faulty := faulty
  faulty_mem := h
  exe := mockExecutable
  exe₀ := fun _ => ()
  history₀ := []

/-- The primary of a non-empty group is a member of it. -/
theorem primary_mem (h : 0 < V.N) : V.primary ∈ V.members := by
  have hlt : (V.epoch % 2 ^ 64).toNat % V.N < V.members.length := Nat.mod_lt _ h
  rw [primary, List.getD_eq_getElem _ _ hlt]
  exact List.getElem_mem hlt

end View

end Rbft

end WeakChain
